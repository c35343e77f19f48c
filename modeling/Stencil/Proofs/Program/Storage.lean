import Stencil.Proofs.Program.Code

/-!
Storage of nothing. Whatever code loads or stores has gone through an address; if no address is for
`void` or for arrays of it, then no load and no store is.
-/

namespace Stencil

open List

namespace Ir

namespace Ty

def isHollow : Ty → Bool
  | void => true
  | array elem _ => elem.isHollow
  | int _ | float _ | pointer _ | struct _ | function .. => false

/-- Nothing hollow is behind a pointer, in an array or behind the result of a function. -/
def isSolid : Ty → Bool
  | pointer target => !target.isHollow && target.isSolid
  | array elem _ => !elem.isHollow && elem.isSolid
  | function _ result => result.isSolid
  | void | int _ | float _ | struct _ => true

theorem isSolid_pointer {target : Ty} (solid : (pointer target).isSolid) :
    target.isHollow = false ∧ target.isSolid := by
  simpa [isSolid] using solid

theorem isSolid_element {elem : Ty} {count : Nat} (solid : (pointer (array elem count)).isSolid) :
    (pointer elem).isSolid := by
  simpa [isSolid] using (isSolid_pointer solid).2

end Ty

/-- The type of the storage that an instruction makes, reads or writes. -/
def Inst.accessed? : Inst → Option Ty
  | alloca _ type | load _ type _ | store type _ _ => some type
  | binary .. | compare .. | unary .. | cast .. | fieldAddr .. | elemAddr .. | call .. => none

def Inst.introduced? : Inst → Option Ty
  | alloca _ type => some (.pointer type)
  | cast _ _ _ target _ => some target
  | load .. | store .. | binary .. | compare .. | unary .. | fieldAddr .. | elemAddr .. | call .. => none

structure Context.Solid (Γ : Context) : Prop where
  function : ∀ name params result, Γ.function name params result → result.isSolid
  global : ∀ name type, Γ.global name type → (Ty.pointer type).isSolid
  field : ∀ struct index type, Γ.field struct index type → (Ty.pointer type).isSolid

section

variable {Γ : Context} {params : List Ty} {types : Types}

theorem Value.Has.isSolid {v : Value} {type : Ty} (has : v.Has Γ params types type)
    (names : Γ.Solid) (given : ∀ type ∈ params, type.isSolid)
    (temps : ∀ k, v = .temp k → ∀ type, types k = some type → type.isSolid) :
    type.isSolid := by
  cases v with
  | temp k => exact temps k rfl type has
  | int =>
    obtain ⟨_, rfl, -⟩ := has
    rfl
  | float =>
    obtain ⟨_, rfl⟩ := has
    rfl
  | param => exact given type (mem_of_getElem? has)
  | global name =>
    obtain ⟨content, present, rfl⟩ := has
    exact names.global name content present
  | function name =>
    obtain ⟨arguments, result, present, rfl⟩ := has
    simpa [Ty.isSolid, Ty.isHollow] using names.function name arguments result present
  | undef =>
    obtain rfl : type = .void := has
    rfl

theorem Inst.Gives.isSolid {inst : Inst} {given : Ty} (gives : inst.Gives Γ params types given)
    (names : Γ.Solid) (introduced : inst.introduced?.all Ty.isSolid)
    (operands : ∀ v ∈ inst.operands, ∀ type, v.Has Γ params types type → type.isSolid) :
    given.isSolid := by
  cases inst with
  | alloca =>
    obtain rfl : given = _ := gives
    exact introduced
  | load dst type addr =>
    obtain ⟨address, rfl⟩ := gives
    exact (Ty.isSolid_pointer (operands addr (by simp [Inst.operands]) _ address)).2
  | store type addr src | compare dst op type signed left right =>
    obtain ⟨-, -, rfl⟩ := gives
    rfl
  | binary dst op type signed left =>
    obtain ⟨fst, -, rfl⟩ := gives
    exact operands left (by simp [Inst.operands]) _ fst
  | unary dst op type src =>
    obtain ⟨arg, rfl⟩ := gives
    exact operands src (by simp [Inst.operands]) _ arg
  | cast =>
    obtain ⟨-, rfl⟩ := gives
    exact introduced
  | fieldAddr dst struct base index =>
    obtain ⟨-, type, has, rfl⟩ := gives
    exact names.field struct index type has
  | elemAddr dst elem base =>
    obtain ⟨⟨_, address⟩, rfl⟩ := gives
    exact Ty.isSolid_element (operands base (by simp [Inst.operands]) _ address)
  | call dst callee =>
    obtain ⟨⟨_, target, -⟩, rfl⟩ := gives
    exact (Ty.isSolid_pointer (operands callee (by simp [Inst.operands]) _ target)).2

end

namespace Function

/-- The signature of a function, its slots and its casts are solid. -/
structure Solid (f : Function) : Prop where
  params : ∀ type ∈ f.params, type.isSolid
  result : f.result.isSolid
  insts : ∀ inst ∈ f.insts, inst.introduced?.all Ty.isSolid

instance (f : Function) : Decidable f.Solid :=
  decidable_of_iff (_ ∧ _ ∧ _)
    ⟨fun h => ⟨h.1, h.2.1, h.2.2⟩, fun solid => ⟨solid.params, solid.result, solid.insts⟩⟩

variable {Γ : Context} {supply : Supply} {types : Types} {bound : Nat} {f : Function}

theorem Draft.operand_defined (draft : f.Draft Γ supply types bound) {i : Nat} {b : Block}
    (here : f.blocks[i]? = some b) {inst : Inst} (mem : inst ∈ b.insts) {k : Nat}
    (arg : .temp k ∈ inst.operands) : k ∈ f.defined := by
  obtain ⟨_, _, place⟩ := append_of_mem mem
  have ready := (draft.fits i b here).ready _ _ _
    (code_append place (isAlloca_of_operand arg)) _ arg
  refine draft.mem_defined here (fun x lies => ?_) ready
  rw [place]
  exact mem_append_left _ (mem_of_mem_filter lies)

theorem Draft.temps_solid (draft : f.Draft Γ supply types bound) (names : Γ.Solid)
    (solid : f.Solid) (k : Nat) : k ∈ f.defined → ∀ type, types k = some type → type.isSolid := by
  induction k using Nat.strongRecOn with
  | ind k ih =>
  intro defined type known
  obtain ⟨inst, mem, result⟩ := mem_filterMap.mp defined
  obtain ⟨b, lies, mem'⟩ := mem_flatMap.mp mem
  obtain ⟨i, here⟩ := mem_iff_getElem?.mp lies
  obtain ⟨given, gives, typed⟩ := (draft.fits i b here).typed inst mem'
  obtain rfl : given = type := Option.some.inj ((typed k result).symm.trans known)
  refine Inst.Gives.isSolid gives names (solid.insts inst mem) fun v arg _ has => ?_
  refine has.isSolid names solid.params ?_
  rintro j rfl
  exact ih j ((draft.fits i b here).ordered inst mem' k result j arg)
    (draft.operand_defined here mem' arg)

theorem Finished.accesses_solid (finished : f.Finished Γ) (names : Γ.Solid) (solid : f.Solid) :
    ∀ inst ∈ f.insts, ∀ type, inst.accessed? = some type → type.isHollow = false := by
  obtain ⟨⟨_, types, _, draft⟩, -⟩ := finished
  intro inst mem type accessed
  obtain ⟨b, lies, mem'⟩ := mem_flatMap.mp mem
  obtain ⟨i, here⟩ := mem_iff_getElem?.mp lies
  obtain ⟨_, gives, -⟩ := (draft.fits i b here).typed inst mem'
  have address : ∀ addr ∈ inst.operands, addr.Has Γ f.params types (.pointer type) →
      type.isHollow = false := by
    intro _ arg has
    refine (Ty.isSolid_pointer (has.isSolid names solid.params ?_)).1
    rintro k rfl
    exact draft.temps_solid names solid k (draft.operand_defined here mem' arg)
  cases inst with
  | alloca =>
    cases accessed
    exact (Ty.isSolid_pointer (solid.insts _ mem)).1
  | load dst loaded addr | store stored addr src =>
    cases accessed
    exact address addr (by simp [Inst.operands]) gives.1
  | _ => cases accessed

end Function

end Ir

namespace Session

/-- Nothing in the code or in the templates of a session is declared to be hollow. -/
structure Solid (s : Session) : Prop where
  functions : ∀ f ∈ s.builder.functions, f.Solid
  fields : ∀ id < s.tree.size, (s.tree.kind id).template?.isSome →
    ∀ field ∈ s.tree.fields id, (Ir.Ty.pointer field.2.type.ir).isSolid

instance (s : Session) : Decidable s.Solid :=
  decidable_of_iff (_ ∧ _) ⟨fun h => ⟨h.1, h.2⟩, fun solid => ⟨solid.functions, solid.fields⟩⟩

theorem Solid.context {s : Session} (solid : s.Solid) (orderly : s.builder.Orderly) :
    s.context.Solid where
  function := by
    rintro _ _ _ ⟨f, mem, -, -, rfl⟩
    exact (solid.functions f mem).result
  global := by
    rintro _ _ ⟨g, mem, -, rfl⟩
    cases orderly.typed g mem <;> rfl
  field := by
    rintro _ _ _ ⟨id, e, field, kind, -, got, rfl⟩
    exact solid.fields id (ScopeTree.lt_of_template kind) (by rw [kind]; rfl) field
      (mem_of_getElem? got)

end Session

/-- No variable, parameter, field or constant is `void` or a spec; and unless something is declared
to be hollow, nothing hollow is stored or loaded. -/
theorem analyze_storage (moduleName : String) (m : Module) (limits : Limits) :
    (∀ id e, (analyze moduleName m limits).tree.kind id = .var e → e.type.isStorable = true) ∧
      ((analyze moduleName m limits).Solid →
        ∀ f ∈ (analyze moduleName m limits).builder.functions, ∀ inst ∈ f.insts, ∀ type,
          inst.accessed? = some type → type.isHollow = false) := by
  have analyzed := analyze_analyzed moduleName m limits
  constructor
  · intro id e kind
    have accounts := analyzed.valid.accounts id
    rw [kind] at accounts
    exact accounts.1.2
  · intro solid f mem inst lies
    have body : f.blocks ≠ [] := by
      intro none
      rw [Ir.Function.insts, none] at lies
      cases lies
    exact (analyzed.finished mem body).accesses_solid (solid.context analyzed.orderly)
      (solid.functions f mem) inst lies

def solidStorage : Module :=
  Module.ofText ("template T { x: [int; 2] } const one: int8 = 1 func v(t: &T) { t.x[0] = one } " ++
    "func f(p: & &T) => int { let t: T v(&t) let a = [t, **p] return a[1].x[0] }")

theorem analyze_storage_solidStorage : (analyze "m" solidStorage).report.entries = [] ∧
    (∃ f ∈ (analyze "m" solidStorage).builder.functions, 10 < f.insts.length) ∧
    ∀ f ∈ (analyze "m" solidStorage).builder.functions, ∀ inst ∈ f.insts, ∀ type,
      inst.accessed? = some type → type.isHollow = false := by
  obtain ⟨clean, long, solid⟩ : (analyze "m" solidStorage).report.entries = [] ∧
      (∃ f ∈ (analyze "m" solidStorage).builder.functions, 10 < f.insts.length) ∧
      (analyze "m" solidStorage).Solid := by
    decide +kernel
  exact ⟨clean, long, (analyze_storage "m" solidStorage {}).2 solid⟩

def voidArray : Module :=
  Module.ofText "func v() {} func main() { let a = [v()] }"

theorem analyze_voidArray : (analyze "m" voidArray).report.entries = [] ∧
    ∃ f ∈ (analyze "m" voidArray).builder.functions,
      .alloca 0 (.array .void 1) ∈ f.insts ∧
        ∃ inst ∈ f.insts, inst.isAlloca = false ∧ inst.accessed? = some .void := by
  decide +kernel

end Stencil
