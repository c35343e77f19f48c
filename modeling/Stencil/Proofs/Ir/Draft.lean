import Stencil.Ir.Builder
import Stencil.Proofs.Ir.Typing

/-!
Functions under construction. Every operand is defined on all ways to its use; for this each block
has a supply, the temporaries that every way to it has defined.
-/

namespace Stencil.Ir

open List

def Terminator.operands : Terminator → List Value
  | ret (some v) => [v]
  | branch cond _ _ => [cond]
  | ret none | jump _ | unreachable => []

/-- The instructions of a block other than stack slots. -/
def Block.code (b : Block) : List Inst :=
  b.insts.filter fun i => !i.isAlloca

def Block.push (b : Block) (i : Inst) : Block :=
  { b with insts := b.insts ++ [i] }

def Block.reserve (b : Block) (slot : Inst) : Block :=
  { b with insts := Builder.insertSlot slot b.insts }

def Block.finish (b : Block) (t : Terminator) : Block :=
  { b with terminator := some t }

theorem takeWhile_append_dropWhile_of_split {α : Type} {p : α → Bool} {front back : List α}
    (holds : ∀ x ∈ front, p x) (fails : ∀ x ∈ back, p x = false) :
    (front ++ back).takeWhile p = front ∧ (front ++ back).dropWhile p = back := by
  rw [takeWhile_append_of_pos holds, dropWhile_append_of_pos holds]
  cases back with
  | nil => simp
  | cons x =>
    have fst := fails x (.head _)
    simp [fst]

def SlotsFirst (insts : List Inst) : Prop :=
  ∃ slots rest, insts = slots ++ rest ∧ (∀ x ∈ slots, x.isAlloca) ∧
    ∀ x ∈ rest, x.isAlloca = false

theorem SlotsFirst.nil : SlotsFirst [] :=
  ⟨[], [], rfl, by simp, by simp⟩

theorem SlotsFirst.concat {insts : List Inst} {inst : Inst} (fst : SlotsFirst insts)
    (plain : inst.isAlloca = false) : SlotsFirst (insts ++ [inst]) := by
  obtain ⟨slots, rest, rfl, reserved, others⟩ := fst
  exact ⟨slots, rest ++ [inst], append_assoc .., reserved,
    forall_mem_append.mpr ⟨others, forall_mem_singleton.mpr plain⟩⟩

theorem SlotsFirst.insertSlot {insts : List Inst} {slot : Inst} (fst : SlotsFirst insts)
    (reserves : slot.isAlloca) : SlotsFirst (Builder.insertSlot slot insts) := by
  obtain ⟨slots, rest, rfl, reserved, others⟩ := fst
  obtain ⟨taken, dropped⟩ := takeWhile_append_dropWhile_of_split reserved others
  refine ⟨slots ++ [slot], rest, ?_,
    forall_mem_append.mpr ⟨reserved, forall_mem_singleton.mpr reserves⟩, others⟩
  rw [Builder.insertSlot, taken, dropped, append_assoc]
  rfl

theorem perm_insertSlot (slot : Inst) (insts : List Inst) :
    (Builder.insertSlot slot insts).Perm (slot :: insts) := by
  have middle : (Builder.insertSlot slot insts).Perm
      (slot :: (insts.takeWhile Inst.isAlloca ++ insts.dropWhile Inst.isAlloca)) :=
    perm_middle
  rwa [takeWhile_append_dropWhile] at middle

theorem Block.code_reserve (b : Block) {slot : Inst} (reserves : slot.isAlloca) :
    (b.reserve slot).code = b.code := by
  rw [code, reserve, Builder.insertSlot, filter_append, filter_cons_of_neg (by simp [reserves]),
    ← filter_append, takeWhile_append_dropWhile, code]

theorem Block.mem_reserve {b : Block} {slot x : Inst} :
    x ∈ (b.reserve slot).insts ↔ x = slot ∨ x ∈ b.insts :=
  (perm_insertSlot slot b.insts).mem_iff.trans mem_cons

theorem Block.temps_push (b : Block) (inst : Inst) : ((b.push inst).insts.filterMap Inst.dst?).Perm
    (inst.dst?.toList ++ b.insts.filterMap Inst.dst?) := by
  rw [push, filterMap_append]
  refine perm_append_comm.trans ?_
  cases result : inst.dst? <;> simp [result]

def Defines (insts : List Inst) (k : Nat) : Prop :=
  ∃ i ∈ insts, i.dst? = some k

variable {k : Nat}

theorem Defines.append_left {front back : List Inst} (h : Defines front k) :
    Defines (front ++ back) k := by
  obtain ⟨i, mem, result⟩ := h
  exact ⟨i, mem_append_left back mem, result⟩

theorem Defines.of_prefix {front whole : List Inst} (h : Defines front k)
    (start : front <+: whole) : Defines whole k := by
  obtain ⟨_, rfl⟩ := start
  exact h.append_left

/-- The temporaries that are defined wherever control enters a block. -/
abbrev Supply := Nat → Nat → Prop

def Supply.stock (supply : Supply) (id : Nat) (set : Nat → Prop) : Supply :=
  fun i k => if i = id then set k else supply i k

theorem Supply.stock_here (supply : Supply) (id : Nat) (set : Nat → Prop) (k : Nat) :
    supply.stock id set id k ↔ set k := by
  simp [stock]

theorem Supply.stock_other (supply : Supply) {id i : Nat} (set : Nat → Prop) (k : Nat)
    (other : i ≠ id) : supply.stock id set i k ↔ supply i k := by
  simp [stock, other]

def Types.note (types : Types) (k : Nat) (type : Ty) : Types :=
  fun i => if i = k then some type else types i

theorem Types.note_here (types : Types) (k : Nat) (type : Ty) : types.note k type k = some type := by
  simp [note]

variable {type : Ty}

theorem Types.within_note {types : Types} (unknown : types k = none) :
    types.Within (types.note k type) := by
  intro i _ known
  have other : i ≠ k := by
    rintro rfl
    rw [unknown] at known
    cases known
  simp [note, other, known]

theorem Types.note_unknown {types : Types} {bound : Nat}
    (unknown : ∀ k, bound ≤ k → types k = none) (k : Nat) (above : bound + 1 ≤ k) :
    types.note bound type k = none := by
  have other : k ≠ bound := by omega
  simp [note, other, unknown k (by omega)]

/-- A name without digits, followed by the number of a block other than the entry. -/
def NameOf (id : Nat) (name : String) : Prop :=
  ∃ stem : String, (∀ c ∈ stem.toList, c.isDigit = false) ∧
    name = if id = 0 then stem else stem ++ toString id

namespace Function

def HasSlot (f : Function) (k : Nat) (type : Ty) : Prop :=
  ∃ entry, f.blocks[0]? = some entry ∧ Inst.alloca k type ∈ entry.insts

def Ready (f : Function) (supply : Supply) (id : Nat) (before : List Inst) : Value → Prop
  | .temp k => (∃ type, f.HasSlot k type) ∨ supply id k ∨ Defines before k
  | .param k => k < f.params.length
  | _ => True

def defined (f : Function) : List Nat :=
  f.insts.filterMap Inst.dst?

/-- What is asked of a block at its place in a function. -/
structure Fits (Γ : Context) (supply : Supply) (types : Types) (f : Function) (i : Nat) (b : Block) :
    Prop where
  number : b.id = i
  name : NameOf i b.name
  targets : ∀ t ∈ b.successors, 0 < t ∧ t < f.size
  slots : ∃ slots rest, b.insts = slots ++ rest ∧
    (∀ x ∈ slots, x.isAlloca) ∧ ∀ x ∈ rest, x.isAlloca = false
  noSlots : 0 < i → ∀ x ∈ b.insts, x.isAlloca = false
  ready : ∀ before inst after, b.code = before ++ inst :: after →
    ∀ v ∈ inst.operands, f.Ready supply i before v
  closed : ∀ t, b.terminator = some t → ∀ v ∈ t.operands, f.Ready supply i b.code v
  supplied : ∀ t ∈ b.successors, ∀ k, supply t k → supply i k ∨ Defines b.code k
  ordered : ∀ inst ∈ b.insts, ∀ k, inst.dst? = some k → ∀ j, .temp j ∈ inst.operands → j < k
  typed : ∀ inst ∈ b.insts, inst.Typed Γ f.params types
  returned : ∀ t, b.terminator = some t → t.Typed Γ f.params types f.result

/-- A function under construction. Its temporaries are below `bound`. -/
structure Draft (Γ : Context) (supply : Supply) (types : Types) (bound : Nat) (f : Function) :
    Prop where
  fits : ∀ i b, f.blocks[i]? = some b → f.Fits Γ supply types i b
  bounded : ∀ k ∈ f.defined, k < bound
  distinct : f.defined.Nodup
  unknown : ∀ k, bound ≤ k → types k = none
  entry : ∀ k, ¬supply 0 k
  stocked : ∀ i k, supply i k → i < f.size ∧ k ∈ f.defined

theorem Ready.mono {f f' : Function} {supply supply' : Supply} {i i' : Nat}
    {before before' : List Inst} {v : Value} (ready : f.Ready supply i before v)
    (params : f'.params = f.params) (slots : ∀ k type, f.HasSlot k type → f'.HasSlot k type)
    (supplies : ∀ k, supply i k → supply' i' k ∨ Defines before' k)
    (defines : ∀ k, Defines before k → supply' i' k ∨ Defines before' k) :
    f'.Ready supply' i' before' v := by
  cases v with
  | temp k =>
    rcases ready with ⟨type, slot⟩ | supplied | defined
    · exact .inl ⟨type, slots k type slot⟩
    · exact .inr (supplies k supplied)
    · exact .inr (defines k defined)
  | param k =>
    change k < f'.params.length
    rw [params]
    exact ready
  | _ => trivial

def change (f : Function) (id : Nat) (g : Block → Block) : Function :=
  { f with blocks := f.blocks.modify id g }

def extend (f : Function) (name : String) : Function :=
  { f with blocks := f.blocks ++ [{ id := f.size, name }] }

variable {i : Nat}

section

variable {f : Function} {c : Nat} {g : Block → Block}

@[simp] theorem change_length : (f.change c g).size = f.size := by
  simp [change, size]

theorem change_other (other : i ≠ c) : (f.change c g).blocks[i]? = f.blocks[i]? := by
  have apart : c ≠ i := fun h => other h.symm
  cases h : f.blocks[i]? <;> simp [change, apart, h]

variable {b : Block}

theorem change_here (here : f.blocks[c]? = some b) : (f.change c g).blocks[c]? = some (g b) := by
  simp [change, here]

theorem change_cases (has : (f.change c g).blocks[i]? = some b) :
    (i = c ∧ ∃ b0, f.blocks[c]? = some b0 ∧ b = g b0) ∨ (i ≠ c ∧ f.blocks[i]? = some b) := by
  by_cases same : i = c
  · subst same
    cases h : f.blocks[i]? with
    | none => simp [change, h] at has
    | some b0 =>
      rw [change_here h] at has
      exact .inl ⟨rfl, b0, rfl, (Option.some.inj has).symm⟩
  rw [change_other same] at has
  exact .inr ⟨same, has⟩

theorem change_defined {new : List Nat} (here : f.blocks[c]? = some b)
    (more : (g b).insts.filterMap Inst.dst? |>.Perm (new ++ b.insts.filterMap Inst.dst?)) :
    (f.change c g).defined.Perm (new ++ f.defined) := by
  obtain ⟨lies, _⟩ := List.getElem?_eq_some_iff.mp here
  obtain ⟨front, b0, back, whole, position, modified⟩ := exists_of_modify g lies
  have got : b0 = b := by
    have at_c : f.blocks[c]? = some b0 := by rw [whole, ← position]; simp
    exact Option.some.inj (at_c.symm.trans here)
  subst got
  have after : (f.change c g).defined = (front.flatMap Block.insts).filterMap Inst.dst? ++
        ((g b0).insts.filterMap Inst.dst? ++ (back.flatMap Block.insts).filterMap Inst.dst?) := by
    simp [defined, insts, change, modified]
  have before : f.defined = (front.flatMap Block.insts).filterMap Inst.dst? ++
        (b0.insts.filterMap Inst.dst? ++ (back.flatMap Block.insts).filterMap Inst.dst?) := by
    simp [defined, insts, whole]
  rw [after, before]
  refine ((more.append_right _).append_left _).trans ?_
  simpa [append_assoc] using perm_append_comm_assoc
    ((front.flatMap Block.insts).filterMap Inst.dst?) new
    (b0.insts.filterMap Inst.dst? ++ (back.flatMap Block.insts).filterMap Inst.dst?)

theorem change_once {new : Option Nat} {lo hi : Nat} (here : f.blocks[c]? = some b)
    (defines : ((g b).insts.filterMap Inst.dst?).Perm (new.toList ++ b.insts.filterMap Inst.dst?))
    (fresh : ∀ k, new = some k → lo ≤ k ∧ k < hi) (once : f.defined.Nodup)
    (bounded : ∀ k ∈ f.defined, k < lo) (below : lo ≤ hi) :
    (f.change c g).defined.Nodup ∧ ∀ k ∈ (f.change c g).defined, k < hi := by
  have defined := change_defined here defines
  refine ⟨defined.nodup_iff.mpr (nodup_append.mpr ⟨?_, once, ?_⟩), fun k mem => ?_⟩
  · cases new <;> simp
  · rintro k mem _ old rfl
    exact Nat.not_lt_of_le (fresh k (Option.mem_toList.mp mem)).1 (bounded k old)
  rcases mem_append.mp (defined.mem_iff.mp mem) with late | old
  · exact (fresh k (Option.mem_toList.mp late)).2
  · exact Nat.lt_of_lt_of_le (bounded k old) below

end

variable {name : String}

section

variable {Γ Δ : Context} {supply supply' : Supply} {types types' : Types} {f f' : Function}
   {b : Block} {inst : Inst}

theorem code_push (plain : inst.isAlloca = false) : (b.push inst).code = b.code ++ [inst] := by
  simp [Block.code, Block.push, plain]

theorem Fits.mono (fits : f.Fits Γ supply types i b) (names : Γ.Within Δ)
    (temps : types.Within types') (params : f'.params = f.params) (result : f'.result = f.result)
    (longer : f.size ≤ f'.size)
    (slots : ∀ k type, f.HasSlot k type → f'.HasSlot k type)
    (gained : ∀ k, supply i k → supply' i k)
    (kept : ∀ t k, t < f.size → supply' t k → supply t k) :
    f'.Fits Δ supply' types' i b where
  __ := fits
  targets t mem := ⟨(fits.targets t mem).1, Nat.lt_of_lt_of_le (fits.targets t mem).2 longer⟩
  ready before inst after split v arg :=
    (fits.ready before inst after split v arg).mono params slots
      (fun k h => .inl (gained k h)) (fun _ h => .inr h)
  closed t ended v arg :=
    (fits.closed t ended v arg).mono params slots (fun k h => .inl (gained k h)) (fun _ h => .inr h)
  supplied t mem k stocked :=
    (fits.supplied t mem k (kept t k (fits.targets t mem).2 stocked)).imp_left (gained k)
  typed inst mem := params ▸ (fits.typed inst mem).mono names temps
  returned t ended := params ▸ result ▸ (fits.returned t ended).mono names temps

theorem split_concat {α : Type} {whole front back : List α} {last x : α}
    (split : whole ++ [last] = front ++ x :: back) :
    (∃ rest, whole = front ++ x :: rest) ∨ (x = last ∧ front = whole) := by
  rcases eq_nil_or_concat back with rfl | ⟨rest, y, rfl⟩
  · obtain ⟨same, last_eq⟩ := append_inj' split (by simp)
    exact .inr ⟨(List.cons.inj last_eq).1.symm, same.symm⟩
  have regrouped : whole ++ [last] = (front ++ x :: rest) ++ [y] := by simpa using split
  exact .inl ⟨rest, (append_inj' regrouped rfl).1⟩

theorem Fits.push (fits : f.Fits Γ supply types i b) (plain : inst.isAlloca = false)
    (ready : ∀ v ∈ inst.operands, f.Ready supply i b.code v)
    (ordered : ∀ k, inst.dst? = some k → ∀ j, .temp j ∈ inst.operands → j < k)
    (typed : inst.Typed Γ f.params types) : f.Fits Γ supply types i (b.push inst) where
  number := fits.number
  name := fits.name
  targets := fits.targets
  slots := SlotsFirst.concat fits.slots plain
  noSlots := by
    intro later
    exact forall_mem_append.mpr ⟨fits.noSlots later, forall_mem_singleton.mpr plain⟩
  ready := by
    intro before x _ split v arg
    rw [code_push plain] at split
    rcases split_concat split with ⟨rest, whole⟩ | ⟨rfl, rfl⟩
    · exact fits.ready before x rest whole v arg
    · exact ready v arg
  closed := by
    intro t ended v arg
    rw [code_push plain]
    exact (fits.closed t ended v arg).mono rfl (fun _ _ h => h) (fun _ h => .inl h)
      (fun _ h => .inr h.append_left)
  supplied := by
    intro t mem k stocked
    rw [code_push plain]
    exact (fits.supplied t mem k stocked).imp_right Defines.append_left
  ordered := by
    exact forall_mem_append.mpr ⟨fits.ordered, forall_mem_singleton.mpr ordered⟩
  typed := by
    exact forall_mem_append.mpr ⟨fits.typed, forall_mem_singleton.mpr typed⟩
  returned := fits.returned

theorem isAlloca_of_operand {inst : Inst} {v : Value} (mem : v ∈ inst.operands) :
    inst.isAlloca = false := by
  cases inst <;> first | rfl | cases mem

theorem Fits.reserve (fits : f.Fits Γ supply types 0 b) {slot : Inst}
    (reserves : slot.isAlloca) (typed : slot.Typed Γ f.params types) :
    f.Fits Γ supply types 0 (b.reserve slot) where
  number := fits.number
  name := fits.name
  targets := fits.targets
  slots := SlotsFirst.insertSlot fits.slots reserves
  noSlots later := absurd later (Nat.lt_irrefl 0)
  ready := by
    rw [b.code_reserve reserves]
    exact fits.ready
  closed := by
    rw [b.code_reserve reserves]
    exact fits.closed
  supplied := by
    rw [b.code_reserve reserves]
    exact fits.supplied
  ordered := by
    intro x mem
    rcases Block.mem_reserve.mp mem with rfl | old
    · intro k _ j arg
      rw [isAlloca_of_operand arg] at reserves
      cases reserves
    · exact fits.ordered x old
  typed := by
    intro x mem
    rcases Block.mem_reserve.mp mem with rfl | old
    · exact typed
    · exact fits.typed x old
  returned := fits.returned

theorem Fits.finish (fits : f.Fits Γ supply types i b) {t : Terminator}
    (targets : ∀ target ∈ t.successors, 0 < target ∧ target < f.size)
    (ready : ∀ v ∈ t.operands, f.Ready supply i b.code v)
    (supplied : ∀ target ∈ t.successors, ∀ k, supply target k → supply i k ∨ Defines b.code k)
    (typed : t.Typed Γ f.params types f.result) : f.Fits Γ supply types i (b.finish t) where
  __ := fits
  targets := targets
  closed := by
    rintro _ ⟨⟩
    exact ready
  supplied := supplied
  returned := by
    rintro _ ⟨⟩
    exact typed

theorem Fits.fresh {id : Nat} (named : NameOf id name) : f.Fits Γ supply types id { id, name } where
  number := rfl
  name := named
  targets := by simp [Block.successors]
  slots := SlotsFirst.nil
  noSlots := by simp
  ready := by simp [Block.code]
  closed := by simp
  supplied := by simp [Block.successors]
  ordered := by simp
  typed := by simp
  returned := by simp

end

variable {Γ Δ : Context} {supply : Supply} {types types' : Types} {bound bound' : Nat}
  {f : Function} {c : Nat} {b : Block} {g : Block → Block}

theorem hasSlot_reserve (here : f.blocks[0]? = some b) (k : Nat) (type : Ty) :
    (f.change 0 (·.reserve (.alloca k type))).HasSlot k type :=
  ⟨_, change_here here, Block.mem_reserve.mpr (.inl rfl)⟩

theorem hasSlot_change (here : f.blocks[c]? = some b)
    (kept : ∀ x ∈ b.insts, x ∈ (g b).insts) (slot : f.HasSlot k type) :
    (f.change c g).HasSlot k type := by
  obtain ⟨entry, fst, mem⟩ := slot
  by_cases same : 0 = c
  · subst same
    obtain rfl : b = entry := Option.some.inj (here.symm.trans fst)
    exact ⟨g b, change_here fst, kept _ mem⟩
  · exact ⟨entry, by rw [change_other same, fst], mem⟩

section

variable (draft : f.Draft Γ supply types bound)
include draft

theorem Draft.mono (names : Γ.Within Δ) : f.Draft Δ supply types bound where
  __ := draft
  fits i b has := (draft.fits i b has).mono names (fun _ _ h => h) rfl rfl .refl
    (fun _ _ h => h) (fun _ h => h) (fun _ _ _ h => h)

/-- One block changes and fits again; what it newly defines has numbers of its own. -/
theorem Draft.change (here : f.blocks[c]? = some b)
    (wider : types.Within types') (larger : bound ≤ bound')
    (unknown : ∀ k, bound' ≤ k → types' k = none)
    (fits : f.Fits Γ supply types' c (g b)) (kept : ∀ x ∈ b.insts, x ∈ (g b).insts)
    (new : Option Nat) (fresh : ∀ k, new = some k → bound ≤ k ∧ k < bound')
    (defines : ((g b).insts.filterMap Inst.dst?).Perm (new.toList ++ b.insts.filterMap Inst.dst?)) :
    (f.change c g).Draft Γ supply types' bound' := by
  have slots : ∀ k type, f.HasSlot k type → (f.change c g).HasSlot k type :=
    fun _ _ => hasSlot_change here kept
  have defined := change_defined here defines
  have once := change_once here defines fresh draft.distinct draft.bounded larger
  constructor
  case fits =>
    intro i b' has
    have grown : ∀ {b0}, f.Fits Γ supply types' i b0 → (f.change c g).Fits Γ supply types' i b0 :=
      fun h => h.mono (.refl Γ) (fun _ _ h => h) rfl rfl (by simp) slots
        (fun _ h => h) (fun _ _ _ h => h)
    rcases change_cases has with ⟨rfl, b0, got, rfl⟩ | ⟨-, got⟩
    · obtain rfl : b = b0 := Option.some.inj (here.symm.trans got)
      exact grown fits
    exact grown ((draft.fits i b' got).mono (.refl Γ) wider rfl rfl
      .refl (fun _ _ h => h) (fun _ h => h) (fun _ _ _ h => h))
  case bounded => exact once.2
  case distinct => exact once.1
  case unknown => exact unknown
  case entry => exact draft.entry
  case stocked =>
    intro i k stocked
    obtain ⟨_, has⟩ := draft.stocked i k stocked
    exact ⟨by rwa [change_length], defined.mem_iff.mpr (mem_append_right _ has)⟩

theorem Draft.mem_defined (here : f.blocks[c]? = some b)
    {before : List Inst} (lies : before ⊆ b.insts)
    (ready : f.Ready supply c before (.temp k)) : k ∈ f.defined := by
  have listed : ∀ {i : Nat} {b : Block} {inst : Inst}, f.blocks[i]? = some b → inst ∈ b.insts →
      inst.dst? = some k → k ∈ f.defined := fun here mem result =>
    mem_filterMap.mpr ⟨_, mem_flatMap.mpr ⟨_, mem_of_getElem? here, mem⟩, result⟩
  rcases ready with ⟨_, _, fst, slot⟩ | supplied | ⟨inst, mem, result⟩
  · exact listed fst slot rfl
  · exact (draft.stocked c k supplied).2
  · exact listed here (lies mem) result

theorem Draft.push {inst : Inst} (here : f.blocks[c]? = some b) (plain : inst.isAlloca = false)
    (ready : ∀ v ∈ inst.operands, f.Ready supply c b.code v)
    (wider : types.Within types') (typed : inst.Typed Γ f.params types')
    (larger : bound ≤ bound') (fresh : ∀ k, inst.dst? = some k → bound ≤ k ∧ k < bound')
    (unknown : ∀ k, bound' ≤ k → types' k = none) :
    (f.change c (·.push inst)).Draft Γ supply types' bound' := by
  have fits : f.Fits Γ supply types' c b :=
    (draft.fits c b here).mono (.refl Γ) wider rfl rfl .refl
      (fun _ _ h => h) (fun _ h => h) (fun _ _ _ h => h)
  have ordered : ∀ k, inst.dst? = some k → ∀ j, .temp j ∈ inst.operands → j < k := by
    intro k result j arg
    have defined := draft.mem_defined here (filter_subset_self _) (ready _ arg)
    exact Nat.lt_of_lt_of_le (draft.bounded j defined) (fresh k result).1
  exact draft.change here wider larger unknown (fits.push plain ready ordered typed)
    (fun x mem => mem_append_left _ mem) inst.dst? fresh (b.temps_push inst)

theorem Draft.reserve (here : f.blocks[0]? = some b) (type : Ty) :
    (f.change 0 (·.reserve (.alloca bound type))).Draft Γ supply
      (types.note bound (.pointer type)) (bound + 1) := by
  have wider : types.Within (types.note bound (.pointer type)) :=
    types.within_note (draft.unknown bound .refl)
  have fits : f.Fits Γ supply (types.note bound (.pointer type)) 0 b :=
    (draft.fits 0 b here).mono (.refl Γ) wider rfl rfl .refl
      (fun _ _ h => h) (fun _ h => h) (fun _ _ _ h => h)
  have typed : (Inst.alloca bound type).Typed Γ f.params (types.note bound (.pointer type)) :=
    ⟨.pointer type, rfl, by rintro k ⟨⟩; exact types.note_here bound _⟩
  refine draft.change here wider (Nat.le_succ _) (Types.note_unknown draft.unknown)
    (fits.reserve rfl typed) (fun x mem => Block.mem_reserve.mpr (.inr mem)) (some bound) ?_
    ((perm_insertSlot _ _).filterMap _)
  rintro k ⟨⟩
  exact ⟨.refl, Nat.lt_succ_self _⟩

theorem Draft.finish {t : Terminator} (here : f.blocks[c]? = some b)
    (targets : ∀ target ∈ t.successors, 0 < target ∧ target < f.size)
    (ready : ∀ v ∈ t.operands, f.Ready supply c b.code v)
    (supplied : ∀ target ∈ t.successors, ∀ k, supply target k → supply c k ∨ Defines b.code k)
    (typed : t.Typed Γ f.params types f.result) :
    (f.change c (·.finish t)).Draft Γ supply types bound :=
  draft.change here (fun _ _ h => h) .refl draft.unknown
    ((draft.fits c b here).finish targets ready supplied typed) (fun _ h => h) none nofun
    (.refl _)

end

theorem extend_old (has : f.blocks[i]? = some b) : (f.extend name).blocks[i]? = some b := by
  have lies := (List.getElem?_eq_some_iff.mp has).1
  rw [extend, getElem?_append_left lies, has]

theorem extend_new (f : Function) (name : String) :
    (f.extend name).blocks[f.size]? = some { id := f.size, name } := by
  simp [extend]

theorem extend_length (f : Function) (name : String) : (f.extend name).size = f.size + 1 := by
  simp [extend, size]

theorem extend_defined (f : Function) (name : String) : (f.extend name).defined = f.defined := by
  simp [defined, insts, extend]

theorem extend_cases (has : (f.extend name).blocks[i]? = some b) :
    (i = f.size ∧ b = { id := f.size, name }) ∨ f.blocks[i]? = some b := by
  by_cases lies : i < f.size
  · rw [extend, getElem?_append_left lies] at has
    exact .inr has
  have bound : i < (f.extend name).size := (List.getElem?_eq_some_iff.mp has).1
  rw [extend_length] at bound
  obtain rfl : i = f.size := by omega
  rw [extend_new] at has
  exact .inl ⟨rfl, (Option.some.inj has).symm⟩

theorem hasSlot_extend (slot : f.HasSlot k type) : (f.extend name).HasSlot k type := by
  obtain ⟨entry, fst, mem⟩ := slot
  exact ⟨entry, extend_old fst, mem⟩

theorem Draft.extend (draft : f.Draft Γ supply types bound) {set : Nat → Prop}
    (inhabited : 0 < f.size) (named : NameOf f.size name)
    (known : ∀ k, set k → k ∈ f.defined) :
    (f.extend name).Draft Γ (supply.stock f.size set) types bound := by
  have defined := f.extend_defined name
  constructor
  case fits =>
    intro i b has
    rcases extend_cases has with ⟨rfl, rfl⟩ | old
    · exact .fresh named
    have lies := (List.getElem?_eq_some_iff.mp old).1
    refine (draft.fits i b old).mono (.refl Γ) (fun _ _ h => h) rfl rfl
      (by simp [extend_length]) (fun _ _ => hasSlot_extend) ?_ ?_
    · exact fun k h => (supply.stock_other set k (Nat.ne_of_lt lies)).mpr h
    · exact fun t k low h => (supply.stock_other set k (Nat.ne_of_lt low)).mp h
  case bounded => exact defined ▸ draft.bounded
  case distinct => exact defined ▸ draft.distinct
  case unknown => exact draft.unknown
  case entry =>
    intro k stocked
    exact draft.entry k ((supply.stock_other set k (Nat.ne_of_lt inhabited)).mp stocked)
  case stocked =>
    intro i k stocked
    rw [extend_length, defined]
    by_cases new : i = f.size
    · subst new
      exact ⟨Nat.lt_succ_self _, known k ((supply.stock_here _ set k).mp stocked)⟩
    obtain ⟨lies, has⟩ := draft.stocked i k ((supply.stock_other set k new).mp stocked)
    exact ⟨Nat.lt_succ_of_lt lies, has⟩

theorem Draft.opening (Γ : Context) (f : Function) (bound : Nat) (named : NameOf 0 name) :
    { f with blocks := [{ id := 0, name }] }.Draft Γ (fun _ _ => False) (fun _ => none) bound where
  fits := by
    intro i b has
    obtain ⟨rfl, rfl⟩ : i = 0 ∧ b = { id := 0, name } := by
      cases i with
      | zero => exact ⟨rfl, (Option.some.inj has).symm⟩
      | succ => simp at has
    exact .fresh named
  bounded := by simp [defined, insts]
  distinct := by simp [defined, insts]
  unknown := by simp
  entry := by simp
  stocked := by simp

end Function

end Stencil.Ir
