import Stencil.Proofs.Program.Code

/-!
Instances of generic templates. A constraint is checked after the memory of instances was asked,
and the check can make the very instance that is asked for.
-/

namespace Stencil

theorem Session.Analyzed.remembered {plainly : Prop} {s : Session} (analyzed : s.Analyzed plainly)
    {generic id : ScopeId} {e : TemplateEntry} {args : List Ty}
    (kind : s.tree.kind generic = .template e) (unconstrained : e.decl.isUnconstrained)
    (isInstance : s.tree.isInstance generic args id) :
    ∃ name, s.instances.lookup (generic, args) = some (.struct name id) := by
  obtain ⟨alive, entry⟩ := Bool.and_eq_true_iff.mp isInstance
  cases present : s.tree.kind id with
  | template e' =>
    rw [present] at entry
    obtain ⟨ofGeneric, same⟩ := Bool.and_eq_true_iff.mp entry
    obtain ⟨args', _, has, kind', remembered⟩ := analyzed.registered id e' generic present alive
      (of_decide_eq_true ofGeneric)
    obtain rfl := ScopeKind.template.inj (kind.symm.trans kind')
    have arguments := (has.arguments analyzed.valid.shaped).symm.trans (of_decide_eq_true same)
    obtain rfl : args' = args :=
      (List.map_inj_right fun _ _ same => Option.some.inj same).mp arguments
    exact ⟨e'.structName, remembered unconstrained⟩
  | _ =>
    rw [present] at entry
    cases entry

/-- Whatever has been analyzed, there is at most one instance of a template without constraints for
a tuple of arguments. -/
theorem analyze_singleInstance (moduleName : String) (m : Module) (limits : Limits) {generic id id' : ScopeId}
    {e : TemplateEntry} {args : List Ty}
    (kind : (analyze moduleName m limits).tree.kind generic = .template e)
    (unconstrained : e.decl.isUnconstrained = true)
    (first : (analyze moduleName m limits).tree.isInstance generic args id = true)
    (second : (analyze moduleName m limits).tree.isInstance generic args id' = true) : id = id' := by
  have analyzed := analyze_analyzed moduleName m limits
  obtain ⟨name, got⟩ := analyzed.remembered kind unconstrained first
  obtain ⟨name', found'⟩ := analyzed.remembered kind unconstrained second
  exact (Ty.struct.inj (Option.some.inj (got.symm.trans found'))).2

def boxes : Module :=
  Module.ofText ("template Box<T> { v: T } " ++
    "func f(a: &Box<int>, b: &Box<Box<int>>) { let c: Box<int> }")

theorem analyze_singleInstance_boxes :
    (analyze "m" boxes).tree.isInstance 1 [.int 32 true] 2 = true ∧
      ∀ id, (analyze "m" boxes).tree.isInstance 1 [.int 32 true] id = true → id = 2 := by
  obtain ⟨generic, made⟩ : ((analyze "m" boxes).tree.kind 1).template?.any
        (·.decl.isUnconstrained) ∧
      (analyze "m" boxes).tree.isInstance 1 [.int 32 true] 2 := by
    decide +kernel
  cases kind : (analyze "m" boxes).tree.kind 1 with
  | template e =>
    rw [kind] at generic
    exact ⟨made, fun id other => analyze_singleInstance "m" boxes {} kind generic other made⟩
  | _ =>
    rw [kind] at generic
    cases generic

def instanceInConstraint : Module :=
  Module.ofText ("package p { spec S {} } package q { spec S {} } template T { x: int } " ++
    "template K<P: p.S> { v: P } action p.S in T {} " ++
    "action q.S in T { func g(self, k: &K<T>) {} } func main(t: &T, k: &K<T>) { t.g(k) }")

/-- With a constraint there can be two instances for the same argument. -/
theorem analyze_instanceInConstraint :
    ∃ id id', id ≠ id' ∧
      (analyze "m" instanceInConstraint).tree.isInstance 6 [.struct "T" 5] id = true ∧
      (analyze "m" instanceInConstraint).tree.isInstance 6 [.struct "T" 5] id' = true :=
  ⟨8, 12, by decide +kernel⟩

end Stencil
