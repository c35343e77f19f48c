import Stencil.Proofs.Analysis.Declare

namespace Stencil

open Analysis Tracked List ScopeTree ScopeKind

theorem differingParam_kind {function spec : String} {problem : Problem} (wants givens : List Ty)
    (params : List Param)
    (got : differingParam? function spec wants givens params = some problem) :
    problem.kind = .argumentMismatch := by
  fun_induction differingParam? function spec wants givens params with
  | case1 _ _ _ _ _ ih => exact ih got
  | case2 => rw [← Option.some.inj got, Problem.kind]
  | case3 => cases got

theorem mismatch_kind {provided : FuncDecl} {spec : String} {required got : Signature}
    {problem : Problem} (differs : Signature.mismatch? provided spec required got = some problem) :
    problem.kind = .argumentMismatch := by
  unfold Signature.mismatch? at differs
  split at differs
  · rw [← Option.some.inj differs, Problem.kind]
  split at differs
  · rw [← Option.some.inj differs, Problem.kind]
  split at differs
  · rename_i param
    exact Option.some.inj differs ▸ differingParam_kind _ _ _ param
  split at differs
  · cases differs
  · rw [← Option.some.inj differs, Problem.kind]

section

variable {t : ScopeTree} {template spec : ScopeId} {action : ActionDecl} {decl : SpecDecl}
  {d : Diagnostic}

theorem conformanceFailures_kind (mem : d ∈ t.conformanceFailures template spec action decl) :
    d.fatal = false ∧ (d.kind = .notImplemented ∨ d.kind = .argumentMismatch) := by
  rcases mem_append.mp mem with missing | failure
  · obtain ⟨_, -, rfl⟩ := mem_map.mp missing
    exact ⟨rfl, .inl rfl⟩
  obtain ⟨_, -, failure⟩ := mem_filterMap.mp failure
  unfold functionFailure? at failure
  split at failure
  · rw [← Option.some.inj failure]
    exact ⟨rfl, .inl rfl⟩
  simp only [Option.bind_eq_bind, Option.bind_eq_some_iff] at failure
  obtain ⟨_, -, _, -, _, differs, same⟩ := failure
  rw [← Option.some.inj same]
  exact ⟨rfl, .inr (mismatch_kind differs)⟩

theorem conformanceFailures_regular :
    ∀ d ∈ t.conformanceFailures template spec action decl, d.Regular := by
  intro d mem _ same
  rcases (conformanceFailures_kind mem).2 with is | is <;>
    rw [Diagnostic.kind, same] at is <;> cases is

end

variable {id : ScopeId}

namespace Analysis

theorem Keeps.extendReport {x : Stage []} {failures : List Diagnostic}
    (regular : ∀ d ∈ failures, d.Regular) :
    Keeps (modify fun s => { s with report := s.report.extend failures }) x := by
  have valid : ({ x.session with report := x.session.report.extend failures } : Session).Valid := by
    refine x.valid.congr rfl rfl (.refl _) x.valid.instances ?_
    intro d mem
    rcases mem_append.mp mem with old | new
    · exact x.valid.regular d old
    · exact regular d new
  exact .change valid (.congr rfl rfl rfl rfl (prefix_append _ _) (.of_eq rfl) rfl) trivial

theorem Keeps.setTemplate {x : Stage []} {change : TemplateEntry → TemplateEntry}
    (isTemplate : (x.tree.kind id).template?.isSome)
    (same : ∀ e, (change e).decl = e.decl ∧ (change e).structName = e.structName ∧
      (change e).instanceOf = e.instanceOf) :
    Keeps (modifyTemplate id change) x := by
  cases kind : x.tree.kind id with
  | template e =>
    obtain ⟨decl, struct, instanceOf⟩ := same e
    have adjusts : x.tree.Adjusts id fun n => { n with kind := .template (change e) } :=
      adjusts_kind (by rw [kind]; exact .template decl struct instanceOf)
    have accounts := x.valid.accounts id
    rw [kind] at accounts
    obtain ⟨valid, grows⟩ := x.valid.adjusted [] adjusts (by
      intro p up
      rw [struct, decl]
      exact accounts p up)
    refine .changeTree ?_ ?_ trivial
    · simp only [kind]
      exact valid
    simp only [kind]
    exact grows
  | _ =>
    rw [kind] at isTemplate
    cases isTemplate

end Analysis

theorem Stage.template {spared : List ScopeId} {x y : Stage spared} (way : later x y)
    (isTemplate : (x.tree.kind id).template?.isSome) :
    (y.tree.kind id).template?.isSome :=
  way.tree.template (lt_of_outer (isOuter_of_template isTemplate)) isTemplate

namespace Resolver

variable {r : Resolver} {template spec scope : ScopeId} {x : Stage []}

theorem specOrType_keeps (sound : r.Sound) (written : TypeSyntax) :
    Keeps (r.specOrType scope written) x := by
  refine .bind (type_keeps sound scope written x) ?_
  intro _ y _ _
  split
  · exact .tree_bind (.pure trivial)
  · exact .pure trivial

theorem isGenericTemplate_template {t : ScopeTree}
    (generic : t.isGenericTemplate id) : (t.kind id).template?.isSome := by
  unfold isGenericTemplate at generic
  cases got : (t.kind id).template? with
  | none =>
    rw [got] at generic
    cases generic
  | some => rfl

variable {action : ActionDecl}

theorem actionTarget_keeps (sound : r.Sound) : Keeps (r.actionTarget action scope) x fun id y =>
      (y.tree.kind id).template?.isSome := by
  have typed : ∀ (y : Stage []) {next : Ty → Analysis ScopeId},
      (∀ type (z : Stage []), type.Known z.tree →
        Keeps (next type) z fun id w => (w.tree.kind id).template?.isSome) →
      Keeps (r.type scope action.target >>= next) y fun id z =>
        (z.tree.kind id).template?.isSome := fun y _ continues =>
    Keeps.bind (type_keeps sound scope action.target y) fun type z _ known => continues type z known
  unfold actionTarget
  split
  · refine .bind (lookupPath_keeps sound _) ?_
    intro id y _ _
    refine .tree_bind ?_
    by_cases generic : (session y).tree.isGenericTemplate id
    · simp only [if_pos generic, pure_bind]
      exact .pure (isGenericTemplate_template generic)
    simp only [if_neg generic, pure_bind]
    refine typed y fun type z known => ?_
    split
    · rename_i id got
      exact .pure (known.scope got)
    · exact .fail rfl
  simp only [pure_bind]
  refine typed x fun type z known => ?_
  split
  · rename_i id got
    exact .pure (known.scope got)
  · exact .fail rfl

theorem defineAssociatedType_keeps (sound : r.Sound) {decl : AliasDecl}
    (isTemplate : (x.tree.kind template).template?.isSome) :
    Keeps (r.defineAssociatedType template decl) x := by
  unfold defineAssociatedType
  split
  · exact .fail rfl
  rename_i target _
  refine .bind (type_keeps sound template target x) ?_
  intro _ y way known
  have isTemplate' := Stage.template way isTemplate
  have outer := isOuter_of_template isTemplate'
  refine .bind (Keeps.addChild (isBody_of_isOuter outer) ?_ (by rintro _ ⟨⟩)
    (.inl rfl) (fun _ => ⟨by rintro ⟨⟩, by rintro _ ⟨⟩⟩) ?_ (by rintro ⟨⟩) (by rintro _ ⟨⟩)) ?_
  · change ((_ || _) || _)
    exact Bool.or_eq_true_iff.mpr (.inl outer)
  · rintro - extended _ ⟨⟩
    exact known.mono extended.tree
  · exact fun _ _ _ _ => Keeps.pure trivial

theorem defineAssociatedTypes_keeps (sound : r.Sound) (decls : List AliasDecl) :
    ∀ x : Stage [], (x.tree.kind template).template?.isSome →
      Keeps (r.defineAssociatedTypes template decls) x := by
  induction decls with
  | nil => exact fun x _ => Keeps.pure trivial
  | cons decl decls ih =>
    intro x isTemplate
    refine .bind (defineAssociatedType_keeps sound isTemplate).reporting ?_
    exact fun _ y way _ => ih y (Stage.template way isTemplate)

theorem checkAction_keeps (sound : r.Sound) (isTemplate : (x.tree.kind template).template?.isSome) :
    Keeps (r.checkAction template spec action) x := by
  refine .tree_bind ?_
  split
  · refine .bind (declareSpec_keeps sound) ?_
    intro _ y way _
    refine .tree_bind ?_
    dsimp only
    split
    · exact .setTemplate (Stage.template way isTemplate) fun e => ⟨rfl, rfl, rfl⟩
    refine .bind (.extendReport conformanceFailures_regular) ?_
    exact fun _ _ _ _ => Keeps.fail rfl
  · exact .pure trivial

theorem spec_of_template {k : ScopeKind} (isTemplate : k.template?.isSome) : k.spec? = none := by
  cases k <;> first | rfl | cases isTemplate

/-- An action that has been applied to a template has its functions there. -/
theorem applyAction_keeps (sound : r.Sound) (isTemplate : (x.tree.kind template).template?.isSome) :
    Keeps (r.applyAction template action scope) x fun _ y =>
      y.session.report.entries = [] → ∀ decl ∈ action.methods, y.tree.Declares template decl := by
  have rest : ∀ {finish : Analysis Unit} (y : Stage []), later x y →
      (∀ z : Stage [], (z.tree.kind template).template?.isSome → Keeps finish z) → Keeps (do
        r.defineAssociatedTypes template action.aliases
        r.declareFunctions template ((← tree).node template).exported action.methods
        finish) y fun _ y => y.session.report.entries = [] →
          ∀ decl ∈ action.methods, y.tree.Declares template decl := by
    intro finish y fst finishes
    have here := Stage.template fst isTemplate
    refine .bind (defineAssociatedTypes_keeps sound action.aliases y here) ?_
    intro _ z snd _
    refine .tree_bind ?_
    have there := Stage.template snd here
    refine .bind (declareFunctions_keeps sound action.methods z (isOuter_of_template there)) ?_
    intro _ w third declares
    refine (finishes w (Stage.template third there)).mono ?_
    intro _ v last _ clean decl mem
    exact (declares (spec_of_template there) (last.clean clean) decl mem).mono last.tree
  unfold applyAction
  split
  · refine .bind (m := fun _ _ => True) (Keeps.pure trivial) fun spec y way _ =>
      rest y way fun z there => ?_
    split
    · exact checkAction_keeps sound there
    · exact .pure trivial
  refine .bind (specOrType_keeps sound _) ?_
  intro _ y fst _
  split
  · refine .bind (m := fun _ _ => True) (Keeps.pure trivial) fun spec z snd _ =>
      rest z (trans fst snd) fun w there => ?_
    split
    · exact checkAction_keeps sound there
    · exact .pure trivial
  · exact .fail_bind rfl

theorem applyToEach_keeps (sound : r.Sound) (templates : List ScopeId) :
    ∀ x : Stage [], (∀ id ∈ templates, (x.tree.kind id).template?.isSome) →
      Keeps (r.applyToEach action scope templates) x := by
  induction templates with
  | nil => exact fun x _ => Keeps.pure trivial
  | cons template templates ih =>
  intro x all
  refine .bind (applyAction_keeps sound (all template (.head _))).reporting ?_
  intro _ y way _
  exact ih y fun id mem => Stage.template way (all id (.tail _ mem))

theorem instancesOf_template {t : ScopeTree} {generic : ScopeId} :
    ∀ id ∈ t.instancesOf generic, (t.kind id).template?.isSome := by
  intro id mem
  unfold instancesOf at mem
  split at mem
  · cases mem
  have chosen := (mem_filter.mp mem).2
  cases got : (t.kind id).template? with
  | none =>
    rw [got] at chosen
    cases chosen
  | some => rfl

theorem targets_of_run (sound : r.Sound) {target : ScopeId} {y z : Stage []}
    (run : r.actionTarget action scope x.session = .ok target y.session) (way : later x y)
    (more : later y z) : z.session.Targets action scope target := by
  obtain ⟨depth, rfl⟩ := sound.depth
  exact ⟨depth, x.session, y.session, x.valid.shaped, (trans way more).tree.precedes, run,
    more.tree.precedes⟩

theorem registerAction_keeps (sound : r.Sound) : Keeps (r.registerAction action scope) x fun _ y =>
      y.session.report.entries = [] → y.session.Acted action scope := by
  refine .bind (actionTarget_keeps sound).traced ?_
  rintro target y way ⟨isTemplate, run⟩
  refine .tree_bind ?_
  cases kind : y.tree.kind target with
  | template e =>
    have later_kind : ∀ {z : Stage []}, later y z → ∃ e', z.tree.kind target = .template e' ∧
        e'.isGeneric = e.isGeneric := by
      intro z more
      obtain ⟨e', kind', decl, -, instanceOf⟩ := more.tree.kind_template kind
      exact ⟨e', kind', Session.isGeneric_congr decl instanceOf⟩
    split
    · rename_i generic
      refine .bind (.setTemplate isTemplate fun e => ⟨rfl, rfl, rfl⟩) ?_
      intro _ z more _
      refine .tree_bind ((applyToEach_keeps sound _ z instancesOf_template).mono ?_)
      intro _ w last _ _
      obtain ⟨e', kind', same⟩ := later_kind (trans more last)
      refine ⟨target, e', kind', targets_of_run sound run way (trans more last), ?_⟩
      intro _ concrete
      rw [isGenericTemplate, show (session y).tree.kind target = _ from kind] at generic
      rw [same, show e.isGeneric from generic] at concrete
      cases concrete
    refine (applyAction_keeps sound isTemplate).mono ?_
    intro _ z more declares clean
    obtain ⟨e', kind', -⟩ := later_kind more
    exact ⟨target, e', kind', targets_of_run sound run way more, fun _ _ => declares clean⟩
  | _ =>
    rw [kind] at isTemplate
    cases isTemplate

variable {index : Nat}

theorem marked_grows {s s' : Session} (grows : (s.markApplied index).Grows [] s')
    (meets : s'.report.entries = [] → s'.Meets (.action index)) : s.Grows [] s' := by
  have actions : ∀ (i : Nat) (p : PendingAction), s.actions[i]? = some p →
      ∃ p', (s.markApplied index).actions[i]? = some p' ∧ p'.decl = p.decl ∧ p'.scope = p.scope ∧
        (p.applied → p'.applied) := by
    intro i p has
    by_cases same : i = index
    · subst same
      exact ⟨{ p with applied := true }, by simp [Session.markApplied, has], rfl, rfl, fun _ => rfl⟩
    · exact ⟨p, (getElem?_modify_ne _ _ (.symm same)).trans has, rfl, rfl, id⟩
  refine { grows with
    laid := grows.laid, formed := grows.formed, undefined := grows.undefined
    registered := grows.registered, memory := grows.memory
    actions := ?_, duties := ?_ }
  · intro i p has
    obtain ⟨p', present', decl, scope, applied⟩ := actions i p has
    obtain ⟨p'', present'', decl', scope', applied'⟩ := grows.actions i p' present'
    exact ⟨p'', present'', decl'.trans decl, scope'.trans scope, fun h => applied' (applied h)⟩
  intro clean duty apart before
  cases duty with
  | original id => exact grows.duties clean (.original id) apart before
  | template id => exact grows.duties clean (.template id) apart before
  | action i =>
  by_cases same : i = index
  · exact same ▸ meets clean
  refine grows.duties clean (.action i) trivial ?_
  intro p has applied
  exact before p ((getElem?_modify_ne _ _ (.symm same)).symm.trans has) applied

theorem applyMarked_leads {s : Session} (valid : s.Valid) (sound : r.Sound)
    {pending : PendingAction} (has : s.actions[index]? = some pending) :
    Leads (reporting (r.registerAction pending.decl pending.scope)) (s.markApplied index)
      (fun _ s' => s'.Valid ∧ s.Grows [] s' ∧
        ∀ p, s'.actions[index]? = some p → p.applied) fun _ _ => False := by
  have valid' : (s.markApplied index).Valid :=
    valid.congr rfl rfl (.refl _) valid.instances valid.regular
  have inner : Keeps (r.registerAction pending.decl pending.scope)
      (⟨s.markApplied index, valid'⟩ : Stage []) _ := registerAction_keeps sound
  have marked : (s.markApplied index).actions[index]? = some { pending with applied := true } := by
    simp [Session.markApplied, has]
  have entry : ∀ {s' : Session}, (s.markApplied index).Grows [] s' → ∀ p,
      s'.actions[index]? = some p →
        p.decl = pending.decl ∧ p.scope = pending.scope ∧ p.applied := by
    intro _ grows p got
    obtain ⟨_, found', decl, scope, applied⟩ := grows.actions index _ marked
    cases found'.symm.trans got
    exact ⟨decl, scope, applied rfl⟩
  refine leads_reporting.mpr (.mono inner ?_ ?_)
  · rintro _ _ ⟨y, rfl, grows, acted⟩
    refine ⟨y.valid, marked_grows grows fun clean p got _ => ?_,
      fun p got => (entry grows p got).2.2⟩
    obtain ⟨decl, scope, -⟩ := entry grows p got
    rw [decl, scope]
    exact acted clean
  rintro d _ ⟨ordinary, failed, grows⟩
  obtain ⟨reported, more⟩ := failed.reported [] ordinary.regular
  refine ⟨reported, marked_grows (grows.trans more) fun clean => ?_,
    fun p got => (entry (grows.trans more) p got).2.2⟩
  exact absurd clean (concat_ne_nil _ _)

theorem markAndRegister_keeps (sound : r.Sound) {pending : PendingAction}
    (has : x.session.actions[index]? = some pending) {rest : Analysis Unit}
    (after : ∀ y : Stage [], Keeps rest y) :
    Keeps (do
      modify (·.markApplied index)
      let _ ← reporting (r.registerAction pending.decl pending.scope)
      rest) x := by
  refine leads_bind.mpr (leads_bind.mpr
    (.mono (applyMarked_leads x.valid sound has) ?_ fun _ _ h => h.elim))
  rintro _ s ⟨valid, grows, -⟩
  refine .mono (after ⟨s, valid⟩) ?_ fun _ _ failure => carried grows failure
  rintro _ _ ⟨z, same, more, -⟩
  exact ⟨z, same, grows.trans more, trivial⟩

theorem bindCandidates_keeps (sound : r.Sound) {generic : Option ScopeId} (indices : List Nat) :
    ∀ x : Stage [], Keeps (r.bindCandidates template generic indices) x := by
  induction indices with
  | nil => exact fun x => Keeps.pure trivial
  | cons index rest ih =>
  intro x
  refine .get_bind ?_
  split
  · rename_i pending has
    refine .bind (actionTarget_keeps sound).attempt ?_
    intro _ y way _
    obtain ⟨p, got, decl, scope, -⟩ := way.actions index pending has
    split
    · exact ih y
    split
    · rw [← decl, ← scope]
      exact markAndRegister_keeps sound got ih
    · exact ih y
  · exact ih x

theorem implements_keeps (sound : r.Sound) (type : Ty) : Keeps (r.implements type spec) x := by
  unfold implements
  split
  · exact .pure trivial
  · exact .pure trivial
  · refine .tree_bind ?_
    split
    · exact .pure trivial
    refine .bind (m := fun _ (_ : Stage []) => True) ?_
      fun _ _ _ _ => Keeps.tree_bind (Keeps.pure trivial)
    refine .get_bind ?_
    split
    · exact bindCandidates_keeps sound _ x
    · exact .pure trivial
  · exact .pure trivial

end Resolver

end Stencil
