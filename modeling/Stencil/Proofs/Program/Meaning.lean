import Stencil.Proofs.Meaning.Function
import Stencil.Proofs.Program.Code

namespace Stencil

/-- A function that has been analyzed without problems, with parameters, variables and a result that
are integers or truth values: its code gives back a value in finitely many steps exactly if its
declaration does, and never comes to an `unreachable`. -/
theorem analyze_meaning (moduleName : String) (m : Module) (limits : Limits) {id : ScopeId} {e : FunctionEntry}
    {code : Nat} {params : List ScalarType} {result : ScalarType}
    (clean : (analyze moduleName m limits).report.entries = [])
    (complete : (analyze moduleName m limits).exhausted = false)
    (kind : (analyze moduleName m limits).tree.kind id = .function e)
    (alive : (analyze moduleName m limits).tree.isAlive id = true) (coded : e.code = some code)
    (signature : e.signature =
      { params := params.map ScalarType.ty, result := result.ty, member := false })
    (fragment : e.decl.isScalar params result = true) :
    ∃ f, (analyze moduleName m limits).builder.functions[code]? = some f ∧
      ∀ args : List Scalar, args.map Scalar.type = params → f.Computes e.decl result args := by
  have analyzed := analyze_analyzed moduleName m limits
  have body : e.decl.body.isSome := by
    obtain ⟨-, lies⟩ := Bool.and_eq_true_iff.mp fragment
    cases has : e.decl.body with
    | none =>
      rw [has] at lies
      cases lies
    | some _ => rfl
  rcases analyzed.settled clean id e kind (by rw [coded]; rfl) body alive with queued | lowered
  · rcases analyzed.done with done | exhausted
    · rw [done] at queued
      cases queued
    · rw [complete] at exhausted
      cases exhausted
  · obtain ⟨s₀, s₁, e', code', body, f, receiver, ready, run, extended, same⟩ := lowered
    have later := extended.tree.kind id (ScopeTree.lt_of_alive ready.alive)
    rw [ready.kind] at later
    obtain rfl : e' = e := ScopeKind.function.inj (later.function_eq.symm.trans kind)
    obtain rfl : code' = code := Option.some.inj (ready.coded.symm.trans coded)
    obtain ⟨g, got, computes⟩ := ready.computes signature fragment run
    exact ⟨g, same.trans got, computes⟩

def sumBelow : Module :=
  Module.ofText ("func sum(n: int) => int \x7b let s: int = 0 let i: int = 0 let one: int = 1 " ++
    "while i < n \x7b let t: int = s i = i + one " ++
    "if i == n { let s: bool = true if s || i < n { break } } s = t + i \x7d return s \x7d")

theorem analyze_meaning_sumBelow : ∃ f ∈ (analyze "m" sumBelow).builder.functions, ∃ n,
    f.after [.word 5] n = .returned (some (.word 10)) := by
  obtain ⟨clean, complete, alive, function⟩ : (analyze "m" sumBelow).report.entries = [] ∧
      (analyze "m" sumBelow).exhausted = false ∧ (analyze "m" sumBelow).tree.isAlive 1 ∧
      (((analyze "m" sumBelow).tree.kind 1).function?.any fun e => e.code = some 0 ∧
        e.signature = { params := [ScalarType.int].map ScalarType.ty, result := ScalarType.int.ty,
                        member := false } ∧
        e.decl.isScalar [.int] .int ∧ e.decl.call 10 [.int 5] = some (.int 10)) := by
    decide +kernel
  cases kind : (analyze "m" sumBelow).tree.kind 1 with
  | function e =>
    rw [kind] at function
    obtain ⟨coded, sig, fragment, called⟩ := of_decide_eq_true function
    obtain ⟨f, has, computes⟩ := analyze_meaning "m" sumBelow {} clean complete kind alive coded
      sig fragment
    exact ⟨f, List.mem_of_getElem? has,
      ((computes [.int 5] rfl).gives (.int 10) rfl).mpr ⟨10, called⟩⟩
  | _ =>
    rw [kind] at function
    cases function

end Stencil
