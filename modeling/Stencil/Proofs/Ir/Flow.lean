import Mathlib.Data.List.Nodup
import Stencil.Proofs.Ir.Continues

namespace Stencil.Ir

open List Nat

theorem NameOf.digits {id : Nat} {name : String} (named : NameOf id name) :
    name.toList.filter Char.isDigit = if id = 0 then [] else Nat.toDigits 10 id := by
  obtain ⟨stem, plain, rfl⟩ := named
  have bare : stem.toList.filter Char.isDigit = [] := by
    rw [filter_eq_nil_iff]
    intro c mem
    rw [plain c mem]
    exact Bool.false_ne_true
  split
  · exact bare
  rw [String.toList_append, filter_append, bare, nil_append, toString_eq_repr,
    toList_repr, filter_eq_self]
  exact fun c mem => isDigit_of_mem_toDigits (by decide) (by decide) mem

theorem NameOf.injective {id id' : Nat} {name : String} (named : NameOf id name)
    (named' : NameOf id' name) : id = id' := by
  have same := named.digits.symm.trans named'.digits
  split at same
  · split at same
    · omega
    · exact absurd same.symm toDigits_ne_nil
  split at same
  · exact absurd same toDigits_ne_nil
  · rw [← ofDigitChars_ten_toDigits (n := id), same, ofDigitChars_ten_toDigits]

namespace Function

/-- Blocks have their place as number, different names and an end, and control goes from block to
block without ever coming back to the entry. -/
structure ControlFlow (f : Function) : Prop where
  numbered : ∀ (i : Nat) (b : Block), f.blocks[i]? = some b → b.id = i
  named : (f.blocks.map Block.name).Nodup
  ended : ∀ b ∈ f.blocks, ∃ t, b.terminator = some t
  targets : ∀ b ∈ f.blocks, ∀ t ∈ b.successors, t ≠ 0 ∧ ∃ target, f.blocks[t]? = some target

theorem Finished.controlFlow {Γ : Context} {f : Function} (finished : f.Finished Γ) :
    f.ControlFlow := by
  obtain ⟨⟨_, _, _, draft⟩, ended⟩ := finished
  refine ⟨fun i b got => (draft.fits i b got).number, ?_, ?_, ?_⟩
  · rw [nodup_iff_getElem?_ne_getElem?]
    intro i j before lies same
    rw [length_map] at lies
    have fst := getElem?_eq_getElem (Nat.lt_trans before lies)
    have snd := getElem?_eq_getElem lies
    rw [getElem?_map, getElem?_map, fst, snd] at same
    have name := (draft.fits i _ fst).name
    rw [Option.some.inj same] at name
    exact Nat.ne_of_lt before (name.injective (draft.fits j _ snd).name)
  · intro b mem
    obtain ⟨i, got⟩ := mem_iff_getElem?.mp mem
    exact Option.isSome_iff_exists.mp (ended i b got)
  intro b mem t target
  obtain ⟨i, got⟩ := mem_iff_getElem?.mp mem
  obtain ⟨positive, lies⟩ := (draft.fits i b got).targets t target
  exact ⟨Nat.ne_of_gt positive, _, getElem?_eq_getElem lies⟩

/-- The ways from the entry of a function to a block, with the instructions that control passes
before that block. -/
inductive Path (f : Function) : List Inst → Nat → Prop
  | entry : Path f [] 0
  | step {passed : List Inst} {i t : Nat} {b : Block} (before : Path f passed i)
      (here : f.blocks[i]? = some b) (next : t ∈ b.successors) : Path f (passed ++ b.insts) t

/-- Temporaries are assigned once, and before their use on every way to it. Parameters exist, and
stack slots are made before anything else. -/
structure Assigned (f : Function) : Prop where
  once : (f.insts.filterMap Inst.dst?).Nodup
  operands : ∀ passed i b before inst after k, f.Path passed i → f.blocks[i]? = some b →
    b.insts = before ++ inst :: after → .temp k ∈ inst.operands → Defines (passed ++ before) k
  ends : ∀ passed i b t k, f.Path passed i → f.blocks[i]? = some b → b.terminator = some t →
    .temp k ∈ t.operands → Defines (passed ++ b.insts) k
  params : ∀ b ∈ f.blocks, (∀ inst ∈ b.insts, ∀ k, .param k ∈ inst.operands → k < f.params.length) ∧
    ∀ t, b.terminator = some t → ∀ k, .param k ∈ t.operands → k < f.params.length
  slots : ∃ slots code others, f.insts = slots ++ code ++ others ∧
    (∃ entry, f.blocks[0]? = some entry ∧ entry.insts = slots ++ code) ∧
    (∀ inst ∈ slots, inst.isAlloca) ∧ ∀ inst ∈ code ++ others, inst.isAlloca = false

variable {Γ : Context} {supply : Supply} {types : Types} {bound : Nat} {f : Function}

theorem Defines.of_code {insts : List Inst} {k : Nat}
    (defined : Defines (insts.filter fun i => !i.isAlloca) k) : Defines insts k := by
  obtain ⟨inst, mem, result⟩ := defined
  exact ⟨inst, (mem_filter.mp mem).1, result⟩

variable {passed : List Inst}

theorem Draft.supplied (draft : f.Draft Γ supply types bound) {i : Nat}
    (path : f.Path passed i) : ∀ k, supply i k → Defines passed k := by
  induction path with
  | entry => exact fun k given => absurd given (draft.entry k)
  | step before here next ih =>
  intro k given
  rcases (draft.fits _ _ here).supplied _ next k given with earlier | defined
  · exact (ih k earlier).append_left
  obtain ⟨inst, mem, result⟩ := Defines.of_code defined
  exact ⟨inst, mem_append_right _ mem, result⟩

theorem Path.entry_passed {i : Nat} (path : f.Path passed i) (inner : i ≠ 0)
    {entry : Block} (fst : f.blocks[0]? = some entry) : ∀ inst ∈ entry.insts, inst ∈ passed := by
  induction path with
  | entry => exact absurd rfl inner
  | @step passed i t b before here next ih =>
  intro inst mem
  by_cases start : i = 0
  · subst start
    cases fst.symm.trans here
    exact mem_append_right _ mem
  · exact mem_append_left _ (ih start inst mem)

/-- Stack slots stand in front of all other instructions of the entry. -/
theorem Draft.entry_slots (draft : f.Draft Γ supply types bound) {entry : Block}
    (fst : f.blocks[0]? = some entry) {before after : List Inst} {inst : Inst}
    (place : entry.insts = before ++ inst :: after) (other : inst.isAlloca = false) :
    ∀ slot ∈ entry.insts, slot.isAlloca → slot ∈ before := by
  obtain ⟨_, _, whole, allocas, code⟩ := (draft.fits 0 entry fst).slots
  intro slot mem isSlot
  rw [place] at mem
  rcases mem_append.mp mem with early | late
  · exact early
  rcases mem_cons.mp late with rfl | late
  · rw [other] at isSlot
    cases isSlot
  -- The instruction is not a slot, so it and all behind it lie in the code of the entry.
  rcases append_eq_append_iff.mp (place.symm.trans whole) with
    ⟨more, lies, behind⟩ | ⟨more, lies, behind⟩
  · cases more with
    | nil =>
      rw [nil_append] at behind
      rw [code slot (behind ▸ .tail _ late)] at isSlot
      cases isSlot
    | cons =>
      obtain ⟨rfl, -⟩ := List.cons.inj behind
      rw [allocas inst (lies ▸ mem_append_right _ (.head _))] at other
      cases other
  rw [code slot (behind ▸ mem_append_right _ (.tail _ late))] at isSlot
  cases isSlot

theorem Draft.defined_before (draft : f.Draft Γ supply types bound) {i : Nat}
    (path : f.Path passed i) {front : List Inst} {before : List Inst} {k : Nat}
    (ready : f.Ready supply i before (.temp k)) (defines : Defines before k → Defines front k)
    (entry : i = 0 → ∀ block, f.blocks[0]? = some block →
      ∀ slot ∈ block.insts, slot.isAlloca → slot ∈ front) :
    Defines (passed ++ front) k := by
  rcases ready with ⟨_, block, fst, slot⟩ | given | early
  · by_cases start : i = 0
    · exact ⟨_, mem_append_right _ (entry start block fst _ slot rfl), rfl⟩
    · exact ⟨_, mem_append_left _ (path.entry_passed start fst _ slot), rfl⟩
  · exact (draft.supplied path k given).append_left
  obtain ⟨inst, mem, result⟩ := defines early
  exact ⟨inst, mem_append_right _ mem, result⟩

theorem code_append {b : Block} {before after : List Inst} {inst : Inst}
    (place : b.insts = before ++ inst :: after) (other : inst.isAlloca = false) :
    b.code = before.filter (fun i => !i.isAlloca) ++ inst :: after.filter (fun i => !i.isAlloca) := by
  rw [Block.code, place, filter_append, filter_cons_of_pos (by rw [other]; rfl)]

theorem Finished.assigned (finished : f.Finished Γ) (body : f.blocks ≠ []) : f.Assigned := by
  obtain ⟨⟨supply, _, _, draft⟩, -⟩ := finished
  have ready : ∀ {i : Nat} {b : Block} {before inst after v}, f.blocks[i]? = some b →
      b.insts = before ++ inst :: after → v ∈ inst.operands →
      f.Ready supply i (before.filter fun i => !i.isAlloca) v := fun here place mem =>
    (draft.fits _ _ here).ready _ _ _ (code_append place (isAlloca_of_operand mem)) _ mem
  refine ⟨draft.distinct, ?_, ?_, ?_, ?_⟩
  · intro passed i b before inst after k path here place mem
    refine draft.defined_before path (ready here place mem) Defines.of_code ?_
    rintro rfl entry fst
    cases here.symm.trans fst
    exact draft.entry_slots here place (isAlloca_of_operand mem)
  · intro passed i b t k path here ends mem
    refine draft.defined_before path ((draft.fits i b here).closed t ends _ mem) Defines.of_code ?_
    rintro rfl entry fst _ has -
    cases here.symm.trans fst
    exact has
  · intro b has
    obtain ⟨i, here⟩ := mem_iff_getElem?.mp has
    constructor
    · intro inst mem k arg
      obtain ⟨before, after, place⟩ := append_of_mem mem
      exact ready here place arg
    · exact fun t ends k arg => (draft.fits i b here).closed t ends _ arg
  obtain ⟨entry, others, blocks⟩ := exists_cons_of_ne_nil body
  have fst : f.blocks[0]? = some entry := by rw [blocks]; rfl
  obtain ⟨slots, code, whole, allocas, plain⟩ := (draft.fits 0 entry fst).slots
  refine ⟨slots, code, others.flatMap Block.insts, ?_, ⟨entry, fst, whole⟩, allocas, ?_⟩
  · rw [Function.insts, blocks, flatMap_cons, whole]
  intro inst mem
  rcases mem_append.mp mem with early | late
  · exact plain inst early
  obtain ⟨b, other, lies⟩ := mem_flatMap.mp late
  obtain ⟨i, got⟩ := mem_iff_getElem?.mp other
  have here : f.blocks[i + 1]? = some b := by rw [blocks, getElem?_cons_succ, got]
  exact (draft.fits (i + 1) b here).noSlots (succ_pos i) inst lies

end Function

end Stencil.Ir
