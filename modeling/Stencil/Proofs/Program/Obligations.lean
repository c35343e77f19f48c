import Stencil.Proofs.Program.Code

namespace Stencil

open Analysis List Signature ScopeTree

/-- What is to be reported about a required function: it is missing, or it has another type. -/
def ScopeTree.verdict? (t : ScopeTree) (template spec : ScopeId) (action : ActionDecl)
    (required : FuncDecl) : Option DiagnosticKind :=
  if action.methods.any (·.name = required.name) then
    if (t.signature? spec required.name).any fun wanted =>
        (t.signature? template required.name).any
          (wanted.substitute (t.chosen? spec template) ≠ ·) then
      some .argumentMismatch
    else none
  else some .notImplemented

def ScopeTree.verdicts (t : ScopeTree) (template spec : ScopeId) (action : ActionDecl)
    (decl : SpecDecl) : List DiagnosticKind :=
  (decl.aliases.filter fun required => !action.aliases.any (·.name = required.name)).map
      (fun _ => .notImplemented) ++
    decl.methods.filterMap (t.verdict? template spec action)

/-- No function of an action is declared with more parameters than it has there: only so many are
compared. -/
def ScopeTree.Compares (t : ScopeTree) (template : ScopeId) (action : ActionDecl) : Prop :=
  ∀ provided ∈ action.methods, (t.signature? template provided.name).all
    (fun got => got.params.length ≤ provided.params.length)

theorem differingParam_eq_none (function spec : String) (wants givens : List Ty)
    (params : List Param) (same : wants.length = givens.length)
    (enough : givens.length ≤ params.length) :
    differingParam? function spec wants givens params = none ↔ wants = givens := by
  fun_induction differingParam? function spec wants givens params with
  | case1 want wants givens param params ih =>
    rw [ih (by simpa using same) (by simpa using enough), cons_inj_right]
  | case2 want wants given givens param params differs => simp [differs]
  | case3 wants givens params other =>
    -- One of the lists has ended, so the two of the same length have.
    cases wants <;> cases givens <;> cases params <;>
      first | exact (other _ _ _ _ _ _ rfl rfl rfl).elim | simp_all

theorem mismatch_eq_none {provided : FuncDecl} (spec : String) (wanted : Signature)
    {got : Signature} (enough : got.params.length ≤ provided.params.length) :
    mismatch? provided spec wanted got = none ↔ wanted = got := by
  obtain ⟨wants, _, mem⟩ := wanted
  obtain ⟨givens, _, mem'⟩ := got
  simp only [mismatch?, Signature.mk.injEq]
  by_cases receiver : mem = mem'
  · by_cases count : wants.length = givens.length
    · have params := differingParam_eq_none provided.name spec wants givens _ count enough
      cases differs : differingParam? provided.name spec wants givens provided.params with
      | none => simp [receiver, params.mp differs]
      | some =>
        have other : wants ≠ givens := fun same => by simp [params.mpr same] at differs
        simp [receiver, count, other]
    have other : wants ≠ givens := fun same => count (congrArg List.length same)
    simp [receiver, count, other]
  · simp [receiver]

section

variable {t : ScopeTree} {template spec : ScopeId} {action : ActionDecl} {decl : SpecDecl}

theorem functionFailure_verdict (compares : t.Compares template action) (required : FuncDecl) :
    (t.functionFailure? template spec action required).map (·.kind) =
      t.verdict? template spec action required := by
  rw [functionFailure?, verdict?, ← isSome_find?]
  cases has : action.methods.find? (·.name = required.name) with
  | none => rfl
  | some provided =>
  have enough := compares provided (mem_of_find?_eq_some has)
  have same : provided.name = required.name := by simpa using find?_some has
  rw [same] at enough
  cases asked : t.signature? spec required.name with
  | none => rfl
  | some wanted =>
  cases given : t.signature? template required.name with
  | none => simp [same, given]
  | some got =>
  rw [given] at enough
  have exact := mismatch_eq_none (t.qualifiedName spec)
    (wanted.substitute (t.chosen? spec template)) (of_decide_eq_true enough)
  cases differs : mismatch? provided (t.qualifiedName spec)
      (wanted.substitute (t.chosen? spec template)) got with
  | none =>
    have equal := exact.mp differs
    rw [equal] at differs
    simp [same, given, equal, differs]
  | some problem =>
    have other : wanted.substitute (t.chosen? spec template) ≠ got := fun equal => by
      simp [exact.mpr equal] at differs
    simp [same, given, differs, other]
    exact mismatch_kind differs

theorem conformanceFailures_map_kind (compares : t.Compares template action) :
    (t.conformanceFailures template spec action decl).map (·.kind) =
      t.verdicts template spec action decl := by
  rw [conformanceFailures, map_append, map_filterMap, ActionDecl.missingTypes,
    map_map, filterMap_congr fun required _ => functionFailure_verdict compares required]
  rfl

/-- An action is told exactly what its spec lacks, and implements the spec if that is nothing. -/
theorem Resolver.checkAction_exact {r : Resolver} {s u : Session} {e : TemplateEntry}
    (isSpec : s.tree.kind spec = .spec decl) (declared : r.declareSpec spec s = .ok () u)
    (kind : u.tree.kind template = .template e) (compares : u.tree.Compares template action) :
    ∃ ds s', s'.report.entries = u.report.entries ++ ds ∧ (∀ d ∈ ds, d.fatal = false) ∧
      ds.map (·.kind) = u.tree.verdicts template spec action decl ∧
      (ds = [] → r.checkAction template spec action s = .ok () s' ∧
        s'.tree.kind template = .template { e with implemented := e.implemented ++ [spec] }) ∧
      (ds ≠ [] → s'.tree = u.tree ∧ r.checkAction template spec action s =
        .error ((Problem.specNotSatisfied (u.tree.qualifiedName template)
          (u.tree.qualifiedName spec) ds.length).at action.span) s') := by
  have kinds := @conformanceFailures_map_kind u.tree template spec action decl compares
  have recoverable := fun d mem =>
    (@conformanceFailures_kind u.tree template spec action decl d mem).1
  generalize failures : u.tree.conformanceFailures template spec action decl = ds at kinds recoverable
  have tree_run : ∀ s (next : ScopeTree → Analysis Unit), (tree >>= next) s = next s.tree s :=
    fun _ _ => rfl
  generalize run : r.checkAction template spec action s = result
  rw [Resolver.checkAction, tree_run, isSpec] at run
  dsimp only at run
  rw [bind_run declared, tree_run, failures] at run
  cases ds with
  | nil =>
    refine ⟨[], { u with tree := u.tree.setKind template (.template
      { e with implemented := e.implemented ++ [spec] }) }, (List.append_nil _).symm, recoverable,
      kinds, fun _ => ⟨run.symm.trans ?_, ?_⟩, fun some => absurd rfl some⟩
    · change EStateM.Result.ok () { u with tree := _ } = _
      dsimp only
      rw [kind]
    · rw [ScopeTree.kind, ScopeTree.setKind,
        ScopeTree.node_modifyNode_same (ScopeTree.lt_of_template kind)]
  | cons d ds =>
    exact ⟨d :: ds, { u with report := u.report.extend (d :: ds) }, rfl, recoverable, kinds,
      fun none => (List.cons_ne_nil _ _ none).elim, fun _ => ⟨rfl, run.symm⟩⟩

end

def lackingAction : Session :=
  analyze "m" (Module.ofText ("spec S { type A func f(self) => int func g(self) } " ++
    "template T { x: int } action S in T \x7b func f(self) => bool { return true } \x7d"))

theorem Resolver.checkAction_exact_lackingAction : ∃ r action s', Resolver.checkAction r 3 1 action
    lackingAction = .error ((Problem.specNotSatisfied "T" "S" 3).at action.span) s' := by
  let action := (lackingAction.actions.map (·.decl)).headD default
  obtain ⟨has, verdicts, isTemplate, compares, template, spec⟩ :
      1 ∈ lackingAction.declaredSpecs ∧
      (lackingAction.tree.kind 1).spec?.map (lackingAction.tree.verdicts 3 1 action) =
        some [.notImplemented, .argumentMismatch, .notImplemented] ∧
      (lackingAction.tree.kind 3).template?.isSome ∧
      (∀ provided ∈ action.methods, (lackingAction.tree.signature? 3 provided.name).all
        (fun got => got.params.length ≤ provided.params.length)) ∧
      lackingAction.tree.qualifiedName 3 = "T" ∧ lackingAction.tree.qualifiedName 1 = "S" := by
    decide +kernel
  cases isSpec : lackingAction.tree.kind 1 with
  | spec decl =>
    cases kind : lackingAction.tree.kind 3 with
    | template e =>
      have declared : (Resolver.within 0).declareSpec 1 lackingAction = .ok () lackingAction := by
        rw [Resolver.declareSpec, get_bind, isSpec]
        simp only [has]
        rfl
      obtain ⟨ds, s', -, -, kinds, -, fails⟩ := Resolver.checkAction_exact isSpec declared kind compares
      rw [isSpec] at verdicts
      have length := congrArg List.length (kinds.trans (Option.some.inj verdicts))
      rw [List.length_map] at length
      have run := (fails (by rintro rfl; cases length)).2
      rw [template, spec, length] at run
      exact ⟨_, action, s', run⟩
    | _ =>
      rw [kind] at isTemplate
      cases isTemplate
  | _ =>
    rw [isSpec] at verdicts
    cases verdicts

def hiddenParameter : Session :=
  analyze "m" (Module.ofText ("spec S { func f(a: int, b: float) } template T \x7b x: int " ++
    "func f(a: int, b: int) {} \x7d action S in T { func f(a: int) {} }"))

/-- Types that differ in a parameter that is not compared make no failure. -/
theorem hiddenParameter_isBound : hiddenParameter.tree.isBound 2 1 = true ∧
    (hiddenParameter.actions.map fun p => (hiddenParameter.tree.kind 1).spec?.map
      (hiddenParameter.tree.verdicts 2 1 p.decl)) = [some [.argumentMismatch]] := by
  decide +kernel

end Stencil
