import Mathlib.Data.List.Forall2
import Stencil.Ir.Module

namespace Stencil.Ir

/-- What the names in code stand for. -/
structure Context where
  function : String → List Ty → Ty → Prop
  global : String → Ty → Prop
  field : String → Nat → Ty → Prop
  constant : Int → Nat → Prop

namespace Context

/-- A context in which everything of another one has kept its meaning. -/
structure Within (Γ Δ : Context) : Prop where
  function : ∀ name params result, Γ.function name params result → Δ.function name params result
  global : ∀ name type, Γ.global name type → Δ.global name type
  field : ∀ struct index type, Γ.field struct index type → Δ.field struct index type
  constant : ∀ n bits, Γ.constant n bits → Δ.constant n bits

theorem Within.refl (Γ : Context) : Γ.Within Γ :=
  ⟨fun _ _ _ h => h, fun _ _ h => h, fun _ _ _ h => h, fun _ _ h => h⟩

end Context

abbrev Types := Nat → Option Ty

def Types.Within (types types' : Types) : Prop :=
  ∀ k type, types k = some type → types' k = some type

/-- The types of a value. Integers have the widths that the context allows, and floats have every
one. -/
def Value.Has (Γ : Context) (params : List Ty) (types : Types) : Value → Ty → Prop
  | temp k, type => types k = some type
  | int n, type => ∃ bits, type = .int bits ∧ Γ.constant n bits
  | float _, type => ∃ bits, type = .float bits
  | param k, type => params[k]? = some type
  | global name, type => ∃ content, Γ.global name content ∧ type = .pointer content
  | function name, type =>
    ∃ arguments result, Γ.function name arguments result ∧ type = .pointer (.function arguments result)
  | undef, type => type = .void

/-- The operands of an instruction have the types that it states, and its result has type `given`.
An instruction without a result gives `void`. -/
def Inst.Gives (Γ : Context) (params : List Ty) (types : Types) (given : Ty) : Inst → Prop
  | alloca _ type => given = .pointer type
  | load _ type addr => addr.Has Γ params types (.pointer type) ∧ given = type
  | store type addr src =>
    addr.Has Γ params types (.pointer type) ∧ src.Has Γ params types type ∧ given = .void
  | binary _ _ type _ left right =>
    left.Has Γ params types type ∧ right.Has Γ params types type ∧ given = type
  | compare _ _ type _ left right =>
    left.Has Γ params types type ∧ right.Has Γ params types type ∧ given = .bool
  | unary _ _ type src => src.Has Γ params types type ∧ given = type
  | cast _ _ source target src => src.Has Γ params types source ∧ given = target
  | fieldAddr _ struct base index =>
    base.Has Γ params types (.pointer (.struct struct)) ∧
      ∃ type, Γ.field struct index type ∧ given = .pointer type
  | elemAddr _ elem base _ =>
    (∃ count, base.Has Γ params types (.pointer (.array elem count))) ∧ given = .pointer elem
  | call _ callee args result =>
    (∃ arguments, callee.Has Γ params types (.pointer (.function arguments result)) ∧
      List.Forall₂ (fun v type => v.Has Γ params types type) args arguments) ∧ given = result

/-- An instruction that keeps the rules and whose result has the type known for its temporary. -/
def Inst.Typed (Γ : Context) (params : List Ty) (types : Types) (i : Inst) : Prop :=
  ∃ given, i.Gives Γ params types given ∧ ∀ k, i.dst? = some k → types k = some given

def Terminator.Typed (Γ : Context) (params : List Ty) (types : Types) (result : Ty) :
    Terminator → Prop
  | ret (some v) => v.Has Γ params types result
  | ret none => result = .void
  | branch cond _ _ => cond.Has Γ params types .bool
  | jump _ | unreachable => True

variable {Γ Δ : Context} {params : List Ty} {types types' : Types}

theorem Value.Has.mono {v : Value} {type : Ty} (before : v.Has Γ params types type)
    (names : Γ.Within Δ) (temps : types.Within types') : v.Has Δ params types' type := by
  cases v with
  | temp k => exact temps k type before
  | int n =>
    obtain ⟨bits, same, allowed⟩ := before
    exact ⟨bits, same, names.constant n bits allowed⟩
  | float x | param k | undef => exact before
  | global name =>
    obtain ⟨content, has, same⟩ := before
    exact ⟨content, names.global name content has, same⟩
  | function name =>
    obtain ⟨arguments, result, has, same⟩ := before
    exact ⟨arguments, result, names.function name arguments result has, same⟩

theorem Inst.Gives.mono {i : Inst} {given : Ty} (before : i.Gives Γ params types given)
    (names : Γ.Within Δ) (temps : types.Within types') : i.Gives Δ params types' given := by
  cases i with
  | alloca => exact before
  | load dst type addr | unary dst op type src | cast dst kind source target src =>
    exact ⟨before.1.mono names temps, before.2⟩
  | store | binary | compare =>
    exact ⟨before.1.mono names temps, before.2.1.mono names temps, before.2.2⟩
  | fieldAddr dst struct base index =>
    obtain ⟨address, type, known, same⟩ := before
    exact ⟨address.mono names temps, type, names.field struct index type known, same⟩
  | elemAddr =>
    obtain ⟨⟨count, address⟩, same⟩ := before
    exact ⟨⟨count, address.mono names temps⟩, same⟩
  | call =>
    obtain ⟨⟨arguments, target, matching⟩, same⟩ := before
    exact ⟨⟨arguments, target.mono names temps, matching.imp fun _ _ h => h.mono names temps⟩, same⟩

theorem Inst.Typed.mono {i : Inst} (before : i.Typed Γ params types)
    (names : Γ.Within Δ) (temps : types.Within types') : i.Typed Δ params types' := by
  obtain ⟨given, gives, result⟩ := before
  exact ⟨given, gives.mono names temps, fun k defined => temps k given (result k defined)⟩

theorem Terminator.Typed.mono {t : Terminator} {result : Ty}
    (before : t.Typed Γ params types result) (names : Γ.Within Δ) (temps : types.Within types') :
    t.Typed Δ params types' result := by
  cases t with
  | ret value =>
    cases value with
    | none => exact before
    | some => exact Value.Has.mono before names temps
  | jump target | unreachable => trivial
  | branch => exact Value.Has.mono before names temps

end Stencil.Ir
