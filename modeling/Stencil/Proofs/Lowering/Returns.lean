import Stencil.Proofs.Lowering.ControlFlow

namespace Stencil

open Ir List

namespace Frame

/-- A block that ends with a `return` statement. Where several share an exit, the value is put into
the slot last. -/
inductive Gives (frame : Frame) (code : List Inst) : Terminator → Prop
  | direct {value : Option Value} (alone : frame.exit = none) : Gives frame code (.ret value)
  | shared {e : Nat} (exit : frame.exit = some e)
      (stored : ∀ slot, frame.slot = some slot →
        ∃ v, code.getLast? = some (.store frame.result.ir slot v)) : Gives frame code (.jump e)

structure Tally (frame : Frame) (f f' : Function) (places : List Nat) : Prop where
  kept : ∀ {i code t}, f.Ended i code t → f'.Ended i code t
  distinct : places.Nodup
  gives : ∀ i ∈ places, (∀ code t, ¬f.Ended i code t) ∧
    ∃ code t, f'.Ended i code t ∧ frame.Gives code t
  new : ∀ {i code t}, f'.Ended i code t → f.Ended i code t ∨ i ∈ places ∨
    t.successors ≠ [] ∧ ∀ next ∈ t.successors, frame.exit ≠ some next

def Counts (frame : Frame) (f f' : Function) (returns : Nat) : Prop :=
  ∃ places, places.length = returns ∧ frame.Tally f f' places

variable {frame : Frame} {f f' f'' : Function} {m n : Nat} {goal : Nat → Prop}

theorem Counts.trans (fst : frame.Counts f f' m) (snd : frame.Counts f' f'' n) :
    frame.Counts f f'' (m + n) := by
  obtain ⟨places, rfl, fst⟩ := fst
  obtain ⟨places', rfl, snd⟩ := snd
  refine ⟨places ++ places', length_append, fun h => snd.kept (fst.kept h), ?_, ?_, ?_⟩
  · refine nodup_append.mpr ⟨fst.distinct, snd.distinct, ?_⟩
    rintro i early _ late rfl
    obtain ⟨-, code, t, ended, -⟩ := fst.gives i early
    exact (snd.gives i late).1 code t ended
  · intro i mem
    rcases mem_append.mp mem with early | late
    · obtain ⟨fresh, code, t, ended, gives⟩ := fst.gives i early
      exact ⟨fresh, code, t, snd.kept ended, gives⟩
    obtain ⟨fresh, ended⟩ := snd.gives i late
    exact ⟨fun code t before => fresh code t (fst.kept before), ended⟩
  intro i _ t ended
  rcases snd.new ended with before | late | goes
  · exact (fst.new before).imp_right (Or.imp_left (mem_append_left _))
  · exact .inr (.inl (mem_append_right _ late))
  · exact .inr (.inr goes)

theorem counts_of_links (links : f.Links f' goal) (apart : ∀ next, goal next → frame.exit ≠ some next) :
    frame.Counts f f' 0 :=
  ⟨[], rfl, links.kept, .nil, nofun, fun ended => (links.new ended).imp_right fun h =>
    .inr ⟨h.1, fun next mem => apart next (h.2 next mem)⟩⟩

theorem counts_of_eq (same : f' = f) : frame.Counts f f' 0 :=
  have links := .of_eq same
  counts_of_links links fun _ => False.elim

/-- The end of a block that returns. -/
theorem counts_of_ends {x : Spot} {y : Site} {t : Terminator} (ends : x.Ends y t)
    (gives : frame.Gives x.code t) : frame.Counts x.draft y.draft 1 := by
  obtain ⟨b, here, isOpen⟩ := x.isOpen
  have fresh : ∀ code t, ¬x.draft.Ended x.block code t := by
    rintro _ t ⟨_, here', -, done⟩
    cases here.symm.trans here'
    rw [isOpen] at done
    cases done
  have continues : x.draft.Continues x.supply y.draft x.supply :=
    ends.draft ▸ Ir.Function.continues_finish here isOpen
  refine ⟨[x.block], rfl, continues.ended, by simp, ?_, ?_⟩
  · exact forall_mem_singleton.mpr ⟨fresh, _, t, ends.ended, gives⟩
  rintro i _ _ ⟨b', present, rfl, done⟩
  rw [ends.draft] at present
  rcases Ir.Function.change_cases present with ⟨rfl, -⟩ | ⟨-, before⟩
  · exact .inr (.inl (mem_singleton_self _))
  · exact .inl ⟨b', before, rfl, done⟩

theorem counts_of_returned {x : Spot} {y : Site} {value : Option Value} (sound : frame.Sound x.toSite)
    (apart : frame.exit ≠ some x.block) (void : value = none → frame.result.isVoid)
    (returned : Returned frame value x y) : frame.Counts x.draft y.draft 1 := by
  cases returned with
  | direct alone ends => exact counts_of_ends ends (.direct alone)
  | stored exit held given reached emits left ends =>
    refine Nat.zero_add 1 ▸ (counts_of_links reached.inside.links fun _ owns => ?_).trans
      (counts_of_ends ends (.shared exit fun slot same => ?_))
    · exact sound.apart apart owns
    cases held.symm.trans same
    rw [emits.code rfl]
    exact ⟨_, getLast?_concat⟩
  | bare exit without ends =>
  refine counts_of_ends ends (.shared exit fun slot held => ?_)
  rcases without with none | none
  · rw [none] at held
    cases held
  rw [sound.filled slot held] at void
  cases void none

theorem counts_of_through {during : Junction → Junction → Prop} {next : Nat} {block : Option Nat}
    (through : Through during next f block f')
    (counts : ∀ w e, during w e → frame.Counts w.draft e.draft n)
    (none : block.isNone → n = 0) (apart : frame.exit ≠ some next) : frame.Counts f f' n := by
  cases through with
  | absent => exact none rfl ▸ counts_of_eq rfl
  | present start holds closes =>
    exact start ▸ (counts _ _ holds).trans (counts_of_links closes fun _ same => same ▸ apart)

/-- Neither the insertion block nor the blocks of the loop around it are the exit. -/
structure Apart (frame : Frame) (loop : Option LoopTargets) (x : Site) : Prop where
  here : frame.exit ≠ some x.block
  loop : ∀ targets, loop = some targets →
    frame.exit ≠ some targets.header ∧ frame.exit ≠ some targets.exit

/-- Code that has been built with so many `return` statements, from one site to another. -/
structure Builds (frame : Frame) (x y : Site) (returns : Nat) : Prop where
  counts : frame.Counts x.draft y.draft returns
  block : x.Owns y.block

variable {x y z : Site} {loop : Option LoopTargets}

theorem Apart.mono (apart : frame.Apart loop x) (sound : frame.Sound x) (owns : x.Owns y.block) :
    frame.Apart loop y :=
  ⟨sound.apart apart.here owns, apart.loop⟩

theorem Builds.trans (fst : frame.Builds x y m) (longer : x.draft.size ≤ y.draft.size)
    (snd : frame.Builds y z n) : frame.Builds x z (m + n) :=
  ⟨fst.counts.trans snd.counts, x.owns_trans longer fst.block snd.block⟩

theorem builds_of_inside (sound : frame.Sound x) (apart : frame.Apart loop x) (inside : x.Inside y) :
    frame.Builds x y 0 :=
  ⟨counts_of_links inside.links fun _ owns => sound.apart apart.here owns, inside.block⟩

theorem builds_of_straight {w w' : Junction} {isOpen : w.IsOpen} {post : Spot → Prop}
    (sound : frame.Sound w.toSite) (apart : frame.Apart loop w.toSite)
    (straight : ∃ z : Spot, z.toSite = w'.toSite ∧ (w.spot isOpen).Flows z ∧ post z) :
    frame.Builds w.toSite w'.toSite 0 := by
  obtain ⟨z, same, flows, -⟩ := straight
  exact same ▸ builds_of_inside sound apart flows.inside

theorem builds_of_jump {u : Spot} {next : Nat} (ends : u.Ends y (.jump next))
    (apart : frame.exit ≠ some next) : frame.Builds u.toSite y 0 := by
  refine ⟨counts_of_links (ends.links (cons_ne_nil _ _) fun _ mem => ?_) fun _ h => h,
    .inl ends.block⟩
  exact mem_singleton.mp mem ▸ apart

variable {bare bare' : Bool} {evaluated : TypedValue → Spot → Prop} {v : TypedValue} {u : Spot}
  {yes no : Option Nat} {during during' : Junction → Junction → Prop} {w : Junction}

theorem builds_of_branches (sound : frame.Sound u.toSite) (apart : frame.Apart loop u.toSite)
    (branches : Branches bare bare' evaluated during during' v u yes no w)
    (fst : ∀ w e, during w e → frame.Counts w.draft e.draft m) (none : bare → m = 0)
    (snd : ∀ w e, during' w e → frame.Counts w.draft e.draft n) (none' : bare' → n = 0) :
    frame.Builds u.toSite w.toSite (m + n) := by
  obtain ⟨f, g, links, through, through'⟩ := branches.chain
  have next := sound.apart apart.here branches.owned
  have before := counts_of_links links fun _ owns => sound.apart apart.here owns
  have here := counts_of_through through fst (fun h => none (branches.sides.1 ▸ h)) next
  have there := counts_of_through through' snd (fun h => none' (branches.sides.2 ▸ h)) next
  exact ⟨Nat.zero_add (m + n) ▸ before.trans (here.trans there), branches.owned⟩

theorem builds_of_loops {x h : Junction} {evaluated : Junction → TypedValue → Spot → Prop}
    {during : LoopTargets → Junction → Junction → Prop} (sound : frame.Sound x.toSite)
    (apart : frame.Apart loop x.toSite) (loops : Loops bare evaluated during x h v u yes w)
    (inside : ∀ targets w e, during targets w e → frame.Counts w.draft e.draft n)
    (none : bare → n = 0) : frame.Builds x.toSite w.toSite n := by
  obtain ⟨f, links, through⟩ := loops.chain
  have sound' := sound.mono loops.passes.advances
  have header := apart.mono sound loops.heads.inside.block
  have before := (builds_of_inside sound apart loops.heads.inside).trans loops.passes.draft.length
    (builds_of_inside sound' header loops.flows.inside)
  have among : ∀ id, id = h.block ∨ u.Owns id → frame.exit ≠ some id := by
    rintro _ (rfl | owns)
    · exact header.here
    · exact sound'.apart header.here (loops.flows.inside.owns loops.flows.draft.length owns)
  refine ⟨?_, ?_⟩
  · refine Nat.zero_add n ▸ (before.counts.trans (counts_of_links links among)).trans ?_
    exact counts_of_through through (inside _) (fun h => none (loops.side ▸ h)) header.here
  refine x.owns_trans (Nat.le_trans loops.passes.draft.length loops.flows.draft.length) before.block
    loops.owned

end Frame

end Stencil
