import Stencil.Proofs.Ir.Continues

namespace Stencil.Ir.Builder

open List Option

variable {b : Builder} {f f' : Function} {c : Nat}

def replace (b : Builder) (code : Nat) (f : Function) : Builder :=
  { b with module.functions := b.functions.set code f }

theorem modifyFunction_eq {code : Nat} (has : b.functions[code]? = some f)
    (g : Function → Function) : b.modifyFunction code g = b.replace code (g f) := by
  have changed : b.functions.modify code g = b.functions.set code (g f) := by
    rw [modify_eq_set_getElem?, has]
    rfl
  rw [modifyFunction, replace, changed]

theorem replace_here {code : Nat} (has : b.functions[code]? = some f) (g : Function) :
    (b.replace code g).functions[code]? = some g :=
  getElem?_set_self (List.getElem?_eq_some_iff.mp has).1

def Linked (b : Builder) (f : Function) (c : Nat) : Prop :=
  (∃ code, b.function = some code ∧ b.functions[code]? = some f ∧ b.block = some c) ∨
    b.function = none

def withCurrent (b : Builder) (f : Function) : Builder :=
  { b with
    module.functions := match b.function with
      | some code => b.functions.set code f
      | none => b.functions }

theorem withCurrent_attached {code : Nat} (attached : b.function = some code) :
    b.withCurrent f = b.replace code f := by
  simp only [withCurrent, replace, attached]

theorem withCurrent_detached (detached : b.function = none) : b.withCurrent f = b := by
  obtain ⟨_, _, _, _, _, _⟩ := b
  cases detached
  rfl

variable {i : Nat}

theorem withCurrent_other (other : b.function ≠ some i) :
    (b.withCurrent f).functions[i]? = b.functions[i]? := by
  unfold withCurrent
  cases attached : b.function with
  | some code =>
    have apart : code ≠ i := by
      rintro rfl
      exact other attached
    exact getElem?_set_ne apart
  | none => rfl

variable {code : Nat}

theorem withCurrent_here (attached : b.function = some code) (lies : code < b.functions.length) :
    (b.withCurrent f).functions[code]? = some f := by
  rw [withCurrent_attached attached]
  exact getElem?_set_self lies

section

variable (linked : b.Linked f c)
include linked

theorem Linked.here (attached : b.function = some i) :
    b.functions[i]? = some f ∧ b.block = some c := by
  rcases linked with ⟨_, function, has, block⟩ | detached
  · cases function.symm.trans attached
    exact ⟨has, block⟩
  rw [detached] at attached
  cases attached

theorem Linked.withCurrent (f' : Function) : (b.withCurrent f').Linked f' c := by
  rcases linked with ⟨code, attached, has, block⟩ | detached
  · exact .inl ⟨code, attached,
      withCurrent_here attached (List.getElem?_eq_some_iff.mp has).1, block⟩
  · exact .inr detached

theorem Linked.withCurrent_self : b.withCurrent f = b := by
  rcases linked with ⟨code, attached, has, -⟩ | detached
  · obtain ⟨_, same⟩ := List.getElem?_eq_some_iff.mp has
    have unchanged : b.functions.set code f = b.functions := by
      rw [← same, set_getElem_self]
    obtain ⟨module, _, block, nextTemp, nextString, late⟩ := b
    cases attached
    exact congrArg (fun functions => (⟨{ module with functions }, some code, block, nextTemp,
      nextString, late⟩ : Builder)) unchanged
  · exact withCurrent_detached detached

theorem Linked.heads
    (same : f'.name = f.name ∧ f'.params = f.params ∧ f'.result = f.result) {g : Function}
    (has : b.functions[i]? = some g) :
    ∃ g', (b.withCurrent f').functions[i]? = some g' ∧ g'.name = g.name ∧
      g'.params = g.params ∧ g'.result = g.result := by
  by_cases attached : b.function = some i
  · cases (linked.here attached).1.symm.trans has
    exact ⟨f', withCurrent_here attached (List.getElem?_eq_some_iff.mp has).1, same⟩
  · exact ⟨g, by rw [withCurrent_other attached, has], rfl, rfl, rfl⟩

theorem Linked.modifyFunction_eq (attached : b.function = some code) (g : Function → Function) :
    b.modifyFunction code g = b.withCurrent (g f) := by
  rw [Builder.modifyFunction_eq (linked.here attached).1, withCurrent_attached attached]

theorem Linked.modifyBlock_eq (id : Nat) (g : Block → Block) :
    b.modifyBlock id g = b.withCurrent (f.change id g) := by
  unfold modifyBlock
  split
  · rename_i code attached
    exact linked.modifyFunction_eq attached _
  rename_i detached
  rw [withCurrent_detached detached]

theorem Linked.block?_eq (attached : b.function = some i) (id : Nat) :
    b.block? id = f.blocks[id]? := by
  simp only [block?, currentFunction?, attached, (linked.here attached).1, bind_eq_bind, bind_some]

end

def counted (b : Builder) : Builder := { b with nextTemp := b.nextTemp + 1 }

theorem Linked.counted (linked : b.Linked f c) : b.counted.Linked f c := linked

variable {block : Block}

theorem Linked.emit_eq (linked : b.Linked f c) (here : f.blocks[c]? = some block)
    (isOpen : block.terminator = none) (inst : Inst) :
    emit inst b = ((), b.withCurrent (f.change c (·.push inst))) := by
  rcases linked with ⟨code, attached, has, current⟩ | detached
  · have linked : b.Linked f c := .inl ⟨code, attached, has, current⟩
    have running : b.isTerminated c = false := by
      rw [isTerminated, linked.block?_eq attached, here]
      simp [Block.isTerminated, isOpen]
    have modified := linked.modifyBlock_eq c (·.push inst)
    change ((), _) = _
    simp only [current, running]
    refine congrArg (Prod.mk ()) ?_
    rw [← modified]
    unfold modifyBlock
    rw [attached]
    rfl
  have running : ∀ id, b.isTerminated id = false := by
    intro _
    simp [isTerminated, block?, currentFunction?, detached]
  rw [withCurrent_detached detached]
  refine congrArg (Prod.mk ()) ?_
  dsimp only
  split
  · rename_i id current
    have unchanged : ∀ g, b.modifyBlock id g = b := fun g => by simp only [modifyBlock, detached]
    simp only [unchanged, running]
    rfl
  · rfl

theorem Linked.emitInto_eq (linked : b.Linked f c) (here : f.blocks[c]? = some block)
    (isOpen : block.terminator = none) (inst : Nat → Inst) :
    emitInto inst b =
      (.temp b.nextTemp, b.counted.withCurrent (f.change c (·.push (inst b.nextTemp)))) := by
  have emitted := linked.counted.emit_eq here isOpen (inst b.nextTemp)
  change ((Value.temp b.nextTemp), (emit (inst b.nextTemp) b.counted).2) = _
  rw [emitted]

theorem Linked.entryAlloca_eq (linked : b.Linked f c) (type : Ty) :
    entryAlloca type b = (.temp b.nextTemp,
      b.counted.withCurrent (f.change 0 (·.reserve (.alloca b.nextTemp type)))) := by
  rw [← linked.counted.modifyBlock_eq]
  rfl

theorem read {α : Type} (next : Builder → Build α) (b : Builder) : (get >>= next) b = next b b := rfl

theorem appendBlock_eq (attached : b.function = some code)
    (has : b.functions[code]? = some f) (name : String) :
    appendBlock name b = (some f.size, b.replace code (f.extend
      (if f.size = 0 then name else name ++ toString f.size))) := by
  have current : b.currentFunction? = some f := by
    simp only [currentFunction?, attached, has, bind_eq_bind, bind_some]
  rw [appendBlock, read, attached, current]
  exact congrArg (Prod.mk _) (modifyFunction_eq has _)

theorem Linked.appendBlock_eq (linked : b.Linked f c) (attached : b.function = some code)
    (name : String) : appendBlock name b = (some f.size, b.withCurrent (f.extend
      (if f.size = 0 then name else name ++ toString f.size))) := by
  rw [Builder.appendBlock_eq attached (linked.here attached).1, withCurrent_attached attached]

theorem appendBlock_missing (missing : b.currentFunction? = none) (name : String) :
    appendBlock name b = (none, b) := by
  rw [appendBlock, read, missing]
  cases b.function <;> rfl

theorem Linked.position (linked : b.Linked f c) (attached : b.function = some code)
    (id : Nat) : ({ b with block := some id } : Builder).Linked f id :=
  .inl ⟨code, attached, (linked.here attached).1, rfl⟩

theorem Linked.terminate_eq (linked : b.Linked f c) (attached : b.function = some code)
    (here : f.blocks[c]? = some block) (isOpen : block.terminator = none)
    (t : Terminator) : terminate t b = .ok (b.withCurrent (f.change c (·.finish t))) := by
  obtain ⟨-, current⟩ := linked.here attached
  rw [← linked.modifyBlock_eq]
  unfold terminate
  simp only [current, linked.block?_eq attached, here, Block.isTerminated, isOpen]
  rfl

theorem terminate_detached (detached : b.function = none) (t : Terminator) :
    terminate t b = .error .noInsertionBlock ∨ terminate t b = .error .missingInsertionBlock := by
  unfold terminate
  split
  · exact .inl rfl
  · simp [block?, currentFunction?, detached]

theorem Linked.isCurrentTerminated_eq (linked : b.Linked f c)
    (attached : b.function = some code) (here : f.blocks[c]? = some block) :
    b.isCurrentTerminated = block.isTerminated := by
  obtain ⟨-, current⟩ := linked.here attached
  rw [isCurrentTerminated, current, any_some, isTerminated, linked.block?_eq attached, here,
    any_some]

def opening (f : Function) : Function := { f with blocks := [{ id := 0, name := "entry" }] }

def declared (f : Function) : Function := { f with blocks := [] }

theorem replace_other {code i : Nat} (other : i ≠ code) (g : Function) :
    (b.replace code g).functions[i]? = b.functions[i]? :=
  getElem?_set_ne (.symm other)

theorem beginBody_eq (has : b.functions[code]? = some f) :
    beginBody code b = (some 0, { b.replace code (opening f) with
      function := some code, block := some 0, nextTemp := 0 }) := by
  let cleared : Builder :=
    { b.modifyFunction code declared with function := some code, nextTemp := 0 }
  have here : cleared.functions[code]? = some (declared f) := by
    change (b.modifyFunction code declared).functions[code]? = _
    rw [modifyFunction_eq has]
    exact replace_here has _
  have run : appendBlock "entry" cleared = (some 0, cleared.replace code (opening f)) :=
    appendBlock_eq rfl here "entry"
  have whole : beginBody code b = ((appendBlock "entry" cleared).1,
      { (appendBlock "entry" cleared).2 with block := (appendBlock "entry" cleared).1 }) := rfl
  rw [whole, run]
  refine congrArg (Prod.mk (some 0)) ?_
  have cleared_eq : cleared =
      { b.replace code (declared f) with function := some code, nextTemp := 0 } := by
    change { b.modifyFunction code declared with function := some code, nextTemp := 0 } = _
    rw [modifyFunction_eq has]
  rw [cleared_eq]
  simp [replace, functions]

theorem discardBody_eq (has : b.functions[code]? = some f) :
    discardBody code b = ((), { b.replace code (declared f) with
      function := none, block := none }) := by
  have run : discardBody code b = ((), { b.modifyFunction code declared with
      function := none, block := none }) := rfl
  rw [run, modifyFunction_eq has]

end Stencil.Ir.Builder
