import Stencil.Proofs.Ir.Draft

namespace Stencil.Ir

open List

/-- A later state of a block: it has more code, unless it had ended. -/
structure Block.Continues (b b' : Block) : Prop where
  code : b.code <+: b'.code
  ended : ∀ t, b.terminator = some t → b'.terminator = some t ∧ b'.code = b.code

theorem Block.Continues.refl (b : Block) : b.Continues b :=
  ⟨prefix_rfl, fun _ h => ⟨h, rfl⟩⟩

theorem Block.Continues.trans {a b c : Block} (fst : a.Continues b) (snd : b.Continues c) :
    a.Continues c where
  code := fst.code.trans snd.code
  ended t has := by
    obtain ⟨middle, same⟩ := fst.ended t has
    obtain ⟨last, unchanged⟩ := snd.ended t middle
    exact ⟨last, unchanged.trans same⟩

namespace Function

/-- A later state of a function under construction. -/
structure Continues (f : Function) (supply : Supply) (f' : Function) (supply' : Supply) : Prop where
  name : f'.name = f.name
  params : f'.params = f.params
  result : f'.result = f.result
  blocks : ∀ (i : Nat) (b : Block), f.blocks[i]? = some b →
    ∃ b', f'.blocks[i]? = some b' ∧ b.Continues b'
  slots : ∀ k type, f.HasSlot k type → f'.HasSlot k type
  supplies : ∀ i k, i < f.size → (supply' i k ↔ supply i k)

variable {t : Terminator}

section

variable {f f' f'' : Function} {supply supply' supply'' : Supply} {c : Nat} {b : Block}

theorem Continues.refl (f : Function) (supply : Supply) : f.Continues supply f supply where
  name := rfl
  params := rfl
  result := rfl
  blocks _ b has := ⟨b, has, Block.Continues.refl b⟩
  slots _ _ h := h
  supplies _ _ _ := Iff.rfl

theorem Continues.length (h : f.Continues supply f' supply') : f.size ≤ f'.size := by
  by_contra longer
  have has := getElem?_eq_getElem (Nat.lt_of_not_le longer)
  obtain ⟨_, got, -⟩ := h.blocks _ _ has
  exact Nat.lt_irrefl _ (List.getElem?_eq_some_iff.mp got).1

theorem Continues.trans (fst : f.Continues supply f' supply')
    (snd : f'.Continues supply' f'' supply'') : f.Continues supply f'' supply'' where
  name := snd.name.trans fst.name
  params := snd.params.trans fst.params
  result := snd.result.trans fst.result
  blocks i b has := by
    obtain ⟨b', got, here⟩ := fst.blocks i b has
    obtain ⟨b'', last, more⟩ := snd.blocks i b' got
    exact ⟨b'', last, here.trans more⟩
  slots k type h := snd.slots k type (fst.slots k type h)
  supplies i k lies :=
    (snd.supplies i k (Nat.lt_of_lt_of_le lies fst.length)).trans (fst.supplies i k lies)

theorem continues_change {g : Block → Block} (here : f.blocks[c]? = some b)
    (kept : ∀ x ∈ b.insts, x ∈ (g b).insts) (grown : b.Continues (g b)) :
    f.Continues supply (f.change c g) supply where
  name := rfl
  params := rfl
  result := rfl
  blocks i b' has := by
    by_cases same : i = c
    · subst same
      obtain rfl : b = b' := Option.some.inj (here.symm.trans has)
      exact ⟨g b, change_here here, grown⟩
    · exact ⟨b', by rw [change_other same, has], Block.Continues.refl b'⟩
  slots _ _ h := hasSlot_change here kept h
  supplies _ _ _ := Iff.rfl

theorem continues_push {inst : Inst} (here : f.blocks[c]? = some b) (plain : inst.isAlloca = false)
    (isOpen : b.terminator = none) :
    f.Continues supply (f.change c (·.push inst)) supply := by
  refine continues_change here (fun x mem => mem_append_left _ mem) ⟨?_, ?_⟩
  · rw [code_push plain]
    exact prefix_append _ _
  intro t ended
  rw [isOpen] at ended
  cases ended

theorem continues_finish (here : f.blocks[c]? = some b)
    (isOpen : b.terminator = none) : f.Continues supply (f.change c (·.finish t)) supply := by
  refine continues_change here (fun x mem => mem) ⟨prefix_rfl, ?_⟩
  intro t ended
  rw [isOpen] at ended
  cases ended

theorem continues_reserve {slot : Inst} (here : f.blocks[0]? = some b) (reserves : slot.isAlloca) :
    f.Continues supply (f.change 0 (·.reserve slot)) supply := by
  have same := b.code_reserve reserves
  exact continues_change here (fun x mem => Block.mem_reserve.mpr (.inr mem))
    ⟨same ▸ prefix_rfl, fun t ended => ⟨ended, same⟩⟩

theorem continues_extend (f : Function) (supply : Supply) (name : String) (set : Nat → Prop) :
    f.Continues supply (f.extend name) (supply.stock f.size set) where
  name := rfl
  params := rfl
  result := rfl
  blocks _ b has := ⟨b, extend_old has, Block.Continues.refl b⟩
  slots _ _ := hasSlot_extend
  supplies _ k lies := supply.stock_other set k (Nat.ne_of_lt lies)

end

def Ended (f : Function) (i : Nat) (code : List Inst) (t : Terminator) : Prop :=
  ∃ b, f.blocks[i]? = some b ∧ b.code = code ∧ b.terminator = some t

theorem Continues.ended {f f' : Function} {supply supply' : Supply}
    (h : f.Continues supply f' supply') {i : Nat} {code : List Inst}
    (ended : f.Ended i code t) : f'.Ended i code t := by
  obtain ⟨b, has, same, done⟩ := ended
  obtain ⟨b', present', continued⟩ := h.blocks i b has
  obtain ⟨done', same'⟩ := continued.ended t done
  exact ⟨b', present', same'.trans same, done'⟩

theorem Ended.unique {f : Function} {i : Nat} {code code' : List Inst} {t t' : Terminator}
    (fst : f.Ended i code t) (snd : f.Ended i code' t') : code = code' ∧ t = t' := by
  obtain ⟨b, has, rfl, done⟩ := fst
  obtain ⟨_, present', rfl, done'⟩ := snd
  cases has.symm.trans present'
  exact ⟨rfl, Option.some.inj (done.symm.trans done')⟩

structure Links (f f' : Function) (goal : Nat → Prop) : Prop where
  kept : ∀ {i code t}, f.Ended i code t → f'.Ended i code t
  new : ∀ {i code t}, f'.Ended i code t →
    f.Ended i code t ∨ t.successors ≠ [] ∧ ∀ next ∈ t.successors, goal next

section

variable {f f' f'' : Function} {supply supply' : Supply} {c : Nat} {b : Block}
  {goal goal' : Nat → Prop}

theorem Links.refl (f : Function) (goal : Nat → Prop) : f.Links f goal :=
  ⟨fun h => h, .inl⟩

theorem Links.of_eq (same : f' = f) : f.Links f' goal :=
  same ▸ .refl f goal

theorem Links.mono (links : f.Links f' goal) (less : ∀ next, goal next → goal' next) :
    f.Links f' goal' :=
  ⟨links.kept, fun ended => (links.new ended).imp_right fun h =>
    ⟨h.1, fun next mem => less next (h.2 next mem)⟩⟩

theorem Links.trans (fst : f.Links f' goal) (snd : f'.Links f'' goal) : f.Links f'' goal :=
  ⟨fun h => snd.kept (fst.kept h), fun ended => (snd.new ended).elim fst.new .inr⟩

theorem Continues.links (h : f.Continues supply f' supply')
    (new : ∀ (i : Nat) (b : Block) t, f'.blocks[i]? = some b → b.terminator = some t →
      (∃ b0, f.blocks[i]? = some b0 ∧ b0.terminator = some t) ∨
        t.successors ≠ [] ∧ ∀ next ∈ t.successors, goal next) : f.Links f' goal where
  kept := h.ended
  new := by
    rintro i _ t ⟨b, has, rfl, done⟩
    refine (new i b t has done).imp_left ?_
    rintro ⟨b0, before, done0⟩
    have same := (Ended.unique (h.ended ⟨b0, before, rfl, done0⟩) ⟨b, has, rfl, done⟩).1
    exact ⟨b0, before, same, done0⟩

theorem links_change {g : Block → Block} (h : f.Continues supply (f.change c g) supply)
    (same : ∀ b, (g b).terminator = b.terminator) : f.Links (f.change c g) goal := by
  refine h.links fun i b t has done => .inl ?_
  rcases change_cases has with ⟨rfl, b0, before, rfl⟩ | ⟨-, before⟩
  · exact ⟨b0, before, (same b0).symm.trans done⟩
  · exact ⟨b, before, done⟩

theorem links_finish (here : f.blocks[c]? = some b) (isOpen : b.terminator = none)
    (some : t.successors ≠ []) (goes : ∀ next ∈ t.successors, goal next) :
    f.Links (f.change c (·.finish t)) goal := by
  have continues : f.Continues (fun _ _ => False) (f.change c (·.finish t)) fun _ _ => False :=
    continues_finish here isOpen
  refine continues.links fun i b _ has done => ?_
  rcases change_cases has with ⟨-, _, -, rfl⟩ | ⟨-, before⟩
  · cases done
    exact .inr ⟨some, goes⟩
  · exact .inl ⟨b, before, done⟩

theorem links_extend (f : Function) (name : String) : f.Links (f.extend name) goal := by
  refine (continues_extend f (fun _ _ => False) name fun _ => False).links fun i b t has done =>
    .inl ?_
  rcases extend_cases has with ⟨-, rfl⟩ | before
  · cases done
  · exact ⟨b, before, done⟩

end

structure Pending (f : Function) (c : Nat) (waiting : List Nat) : Prop where
  inside : c < f.size
  waits : ∀ i ∈ waiting, i ≠ c ∧
    ∃ b, f.blocks[i]? = some b ∧ b.terminator = none ∧ b.code = []
  distinct : waiting.Nodup
  ended : ∀ i b, f.blocks[i]? = some b → i ≠ c → i ∉ waiting →
    b.isTerminated

section

variable {f f' : Function} {c : Nat} {waiting : List Nat}

section

variable (pending : f.Pending c waiting)
include pending

theorem Pending.here : ∃ b, f.blocks[c]? = some b :=
  ⟨_, getElem?_eq_getElem pending.inside⟩

theorem Pending.lt_of_waiting {i : Nat} (mem : i ∈ waiting) : i < f.size := by
  obtain ⟨-, b, has, -⟩ := pending.waits i mem
  exact (List.getElem?_eq_some_iff.mp has).1

theorem Pending.congr (length : f'.size = f.size)
    (others : ∀ i b, i ≠ c → f.blocks[i]? = some b → ∃ b',
      f'.blocks[i]? = some b' ∧ b'.terminator = b.terminator ∧ b'.code = b.code) :
    f'.Pending c waiting where
  inside := length ▸ pending.inside
  waits i mem := by
    obtain ⟨apart, b, has, isOpen, bare⟩ := pending.waits i mem
    obtain ⟨b', present', same, code⟩ := others i b apart has
    exact ⟨apart, b', present', same.trans isOpen, code.trans bare⟩
  distinct := pending.distinct
  ended i b' has apart unlisted := by
    have inside : i < f'.size := (List.getElem?_eq_some_iff.mp has).1
    rw [length] at inside
    have before := getElem?_eq_getElem inside
    obtain ⟨_, present', same, -⟩ := others i _ apart before
    cases present'.symm.trans has
    have done := pending.ended i _ before apart unlisted
    rw [Block.isTerminated, same]
    exact done

theorem Pending.change (g : Block → Block) : (f.change c g).Pending c waiting :=
  pending.congr change_length fun _ b apart has =>
    ⟨b, (change_other apart).trans has, rfl, rfl⟩

theorem Pending.reserve {slot : Inst} (reserves : slot.isAlloca) :
    (f.change 0 (·.reserve slot)).Pending c waiting := by
  refine pending.congr change_length fun i b _ has => ?_
  by_cases entry : i = 0
  · subst entry
    exact ⟨_, change_here has, rfl, b.code_reserve reserves⟩
  · exact ⟨b, (change_other entry).trans has, rfl, rfl⟩

theorem Pending.extend (name : String) : (f.extend name).Pending c (f.size :: waiting) where
  inside := by
    rw [extend_length]
    exact Nat.lt_succ_of_lt pending.inside
  waits i mem := by
    rcases mem_cons.mp mem with rfl | old
    · exact ⟨Nat.ne_of_gt pending.inside, _, extend_new f name, rfl, rfl⟩
    obtain ⟨apart, b, has, isOpen, bare⟩ := pending.waits i old
    exact ⟨apart, b, extend_old has, isOpen, bare⟩
  distinct := nodup_cons.mpr
    ⟨fun mem => Nat.lt_irrefl _ (pending.lt_of_waiting mem), pending.distinct⟩
  ended i b has apart unlisted := by
    rcases extend_cases has with ⟨rfl, -⟩ | old
    · exact absurd (.head _) unlisted
    · exact pending.ended i b old apart fun mem => unlisted (.tail _ mem)

end

/-- Once a block has ended, work goes on at one of those that wait. -/
theorem Pending.position {front back : List Nat} {next : Nat}
    (pending : f.Pending c (front ++ next :: back))
    (done : ∀ b, f.blocks[c]? = some b → b.isTerminated) :
    f.Pending next (front ++ back) := by
  have perm : (front ++ next :: back).Perm (next :: (front ++ back)) := perm_middle
  have distinct := nodup_cons.mp (perm.nodup_iff.mp pending.distinct)
  constructor
  case inside => exact pending.lt_of_waiting (perm.mem_iff.mpr (.head _))
  case waits =>
    intro i mem
    refine ⟨?_, (pending.waits i (perm.mem_iff.mpr (.tail _ mem))).2⟩
    rintro rfl
    exact distinct.1 mem
  case distinct => exact distinct.2
  case ended =>
    intro i b has apart unlisted
    by_cases last : i = c
    · subst last
      exact done b has
    refine pending.ended i b has last fun mem => ?_
    rcases mem_cons.mp (perm.mem_iff.mp mem) with same | other
    · exact apart same
    · exact unlisted other

end

def Finished (Γ : Context) (f : Function) : Prop :=
  (∃ supply types bound, f.Draft Γ supply types bound) ∧
    ∀ (i : Nat) (b : Block), f.blocks[i]? = some b → b.isTerminated

theorem Finished.mono {Γ Δ : Context} {f : Function} (finished : f.Finished Γ)
    (names : Γ.Within Δ) : f.Finished Δ := by
  obtain ⟨⟨supply, types, bound, draft⟩, ended⟩ := finished
  exact ⟨⟨supply, types, bound, draft.mono names⟩, ended⟩

end Function

end Stencil.Ir
