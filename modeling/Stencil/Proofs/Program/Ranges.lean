import Stencil.Proofs.Program.Typed

namespace Stencil

open List

namespace Ir

def Inst.typedOperands : Inst → List (Value × Ty)
  | store type _ src => [(src, type)]
  | binary _ _ type _ left right => [(left, type), (right, type)]
  | compare _ _ type _ left right => [(left, type), (right, type)]
  | unary _ _ type src => [(src, type)]
  | cast _ _ source _ src => [(src, source)]
  | alloca .. | load .. | fieldAddr .. | elemAddr .. | call .. => []

def Value.Fits (v : Value) (type : Ty) : Prop :=
  ∀ n, v = .int n → ∃ bits, type = .int bits ∧ Fitting n bits

variable {Γ : Context} {params : List Ty} {types : Types}

theorem Value.Has.fits (allowed : ∀ n bits, Γ.constant n bits → Fitting n bits) {v : Value}
    {type : Ty} (has : v.Has Γ params types type) : v.Fits type := by
  rintro n rfl
  obtain ⟨bits, same, constant⟩ := has
  exact ⟨bits, same, allowed n bits constant⟩

theorem Inst.Typed.fits (allowed : ∀ n bits, Γ.constant n bits → Fitting n bits) {i : Inst}
    (typed : i.Typed Γ params types) : ∀ o ∈ i.typedOperands, o.1.Fits o.2 := by
  obtain ⟨_, gives, -⟩ := typed
  intro o mem
  cases i with
  | store =>
    obtain rfl := mem_singleton.mp mem
    exact gives.2.1.fits allowed
  | binary dst op type signed left right | compare dst op type signed left right =>
    rcases mem_pair.mp mem with rfl | rfl
    · exact gives.1.fits allowed
    · exact gives.2.1.fits allowed
  | unary dst op type src | cast dst kind source target src =>
    obtain rfl := mem_singleton.mp mem
    exact gives.1.fits allowed
  | alloca | load | fieldAddr | elemAddr | call => cases mem

end Ir

namespace Session

/-- Constants have types that they fit. -/
structure Ranged (s : Session) : Prop where
  operands : ∀ f ∈ s.builder.functions, ∀ b ∈ f.blocks, ∀ i ∈ b.insts, ∀ o ∈ i.typedOperands,
    o.1.Fits o.2
  calls : ∀ f ∈ s.builder.functions, ∀ b ∈ f.blocks, ∀ dst name args result,
    .call dst (.function name) args result ∈ b.insts →
      ∃ g ∈ s.builder.functions, g.name = name ∧ g.result = result ∧
        List.Forall₂ Ir.Value.Fits args g.params
  results : ∀ f ∈ s.builder.functions, ∀ b ∈ f.blocks, ∀ v,
    b.terminator = some (.ret (some v)) → v.Fits f.result
  globals : ∀ g ∈ s.builder.module.globals, ∀ n, g.init = some (.int n) →
    ∃ bits, g.type = .int bits ∧ Ir.Fitting n bits
  typed : ∀ f ∈ s.builder.functions, f.Typed s.context

end Session

/-- Integer constants are in the range of their types, except for negated literals of 64 bits. -/
theorem analyze_ranges (moduleName : String) (m : Module) (limits : Limits) : (analyze moduleName m limits).Ranged := by
  have analyzed := analyze_analyzed moduleName m limits
  generalize analyze moduleName m limits = s at analyzed
  have typed : ∀ f ∈ s.builder.functions, f.Typed s.context := by
    intro f mem
    by_cases body : f.blocks = []
    · exact ⟨fun _ => none, fun b lies => by rw [body] at lies; cases lies⟩
    · exact (analyzed.finished mem body).typed
  have allowed : ∀ n bits, s.context.constant n bits → Ir.Fitting n bits := fun _ _ h => h
  refine ⟨?_, ?_, ?_, analyzed.orderly.integers, typed⟩
  · intro f mem b lies i here
    obtain ⟨types, code⟩ := typed f mem
    exact ((code b lies).1 i here).fits allowed
  · intro f mem b lies dst name args result here
    obtain ⟨types, code⟩ := typed f mem
    obtain ⟨_, ⟨⟨arguments, callee, matching⟩, -⟩, -⟩ := (code b lies).1 _ here
    obtain ⟨params, result', ⟨g, present, named, rfl, rfl⟩, same⟩ := callee
    obtain ⟨rfl, rfl⟩ := Ir.Ty.function.inj (Ir.Ty.pointer.inj same)
    exact ⟨g, present, named, rfl, matching.imp fun _ _ has => has.fits allowed⟩
  · intro f mem b lies v ends
    obtain ⟨types, code⟩ := typed f mem
    have returned : v.Has s.context f.params types f.result := (code b lies).2 _ ends
    exact returned.fits allowed

def negatedLiteral : Module :=
  Module.ofText "const k: int64 = -18446744073709551615"

theorem analyze_negatedLiteral : (analyze "m" negatedLiteral).report.entries = [] ∧
    (analyze "m" negatedLiteral).builder.module.globals =
      [⟨"k", .int 64, some (.int (-18446744073709551615)), true⟩] ∧
    ¬Ir.InRange (-18446744073709551615) 64 := by
  decide +kernel

end Stencil
