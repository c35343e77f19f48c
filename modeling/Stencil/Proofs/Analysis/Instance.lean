import Stencil.Proofs.Analysis.Conformance
import Stencil.Proofs.Analysis.Retract

namespace Stencil

open Analysis Tracked List ScopeTree ScopeKind.template Ir.Builder

namespace Resolver

variable {r : Resolver} {scope generic node : ScopeId} {span : Span}

variable {decl : Generic}

section

variable {x : Stage []} {param : String} {arg : Ty} {got : ConstraintFailures}

def Reportable (got : ConstraintFailures) : Prop :=
  ∀ d ∈ got.failures, d.Regular

theorem Reportable.add (reportable : Reportable got) {d : Diagnostic} (regular : d.Regular)
    {fst : Option Span} : Reportable ⟨got.failures ++ [d.recoverable], fst⟩ := by
  exact forall_mem_append.mpr ⟨reportable, forall_mem_singleton.mpr regular⟩

theorem checkConstraint_keeps (sound : r.Sound) {constraint : TypeSyntax}
    (reportable : Reportable got) :
    Keeps (r.checkConstraint scope span param arg constraint got) x
      fun got _ => Reportable got := by
  refine .bind (specOrType_keeps sound constraint).attempt ?_
  rintro (d | spec | type) y _ holds
  · exact .pure (reportable.add (Diagnostic.Ordinary.regular holds))
  · refine .bind (implements_keeps sound arg) ?_
    intro _ z _ _
    split
    · exact .pure reportable
    exact .tree_bind (.pure (reportable.add (d := Diagnostic.withNote
      ((Problem.constraintNotMet _ _ _).at span) _ _) nofun))
  · exact .pure (reportable.add (d := (Problem.notSpec type.text).at constraint.span) nofun)

theorem checkParam_keeps (sound : r.Sound) (constraints : List TypeSyntax) :
    ∀ (got : ConstraintFailures) (x : Stage []), Reportable got →
      Keeps (r.checkParam scope span param arg constraints got) x fun got _ => Reportable got := by
  induction constraints with
  | nil => exact fun got x reportable => Keeps.pure reportable
  | cons constraint constraints ih =>
    intro got x reportable
    refine .bind (checkConstraint_keeps sound reportable) ?_
    exact fun got y _ more => ih got y more

theorem checkParams_keeps (sound : r.Sound) (params : List GenericParam) :
    ∀ (args : List Ty) (got : ConstraintFailures) (x : Stage []), Reportable got →
      Keeps (r.checkParams scope span params args got) x fun got _ => Reportable got := by
  induction params with
  | nil => exact fun args got x reportable => Keeps.pure reportable
  | cons param params ih =>
  intro args got x reportable
  cases args with
  | nil => exact .pure reportable
  | cons arg args =>
    refine .bind (checkParam_keeps sound param.constraints got x reportable) ?_
    exact fun got y _ more => ih args got y more

theorem checkParams_unconstrained (params : List GenericParam) : ∀ args got s,
      params.all (·.constraints.isEmpty) →
      r.checkParams scope span params args got s = .ok got s := by
  induction params with
  | nil =>
    intro _ _ s _
    rfl
  | cons param params ih =>
  intro args got s unconstrained
  obtain ⟨fst, rest⟩ := Bool.and_eq_true_iff.mp unconstrained
  cases args with
  | nil =>
    rfl
  | cons arg args =>
    unfold checkParams
    rw [List.isEmpty_iff.mp fst]
    exact ih args got s rest

theorem checkConstraints_unconstrained {args : List Ty} (s : Session)
    (unconstrained : decl.params.all (·.constraints.isEmpty)) :
    r.checkConstraints decl args scope span s = .ok () s := by
  have run : r.checkConstraints decl args scope span s =
      EStateM.bind (r.checkParams scope span decl.params args {}) _ s := rfl
  rw [run, EStateM.bind, checkParams_unconstrained decl.params args {} s unconstrained]
  rfl

theorem checkConstraints_keeps (sound : r.Sound) {args : List Ty} :
    Keeps (r.checkConstraints decl args scope span) x fun _ y =>
      decl.params.all (·.constraints.isEmpty) → y.session = x.session := by
  by_cases unconstrained : decl.params.all (·.constraints.isEmpty)
  · exact .step (checkConstraints_unconstrained x.session unconstrained) (refl x) fun _ => rfl
  refine .bind (checkParams_keeps sound decl.params args {} x nofun) ?_
  intro _ y _ reportable
  split
  · exact .pure fun none => absurd none unconstrained
  refine .bind (.extendReport reportable) ?_
  intro _ z _ _
  refine .throw ?_
  split <;> rfl

end

variable {t : ScopeTree}

section

theorem numberedName_titled (t : ScopeTree) (parent : ScopeId) (name : String) (more : Nat) :
    ∀ n, ∃ rest, t.numberedName parent name more n = name ++ rest := by
  induction more with
  | zero => exact fun n => ⟨"#" ++ toString n, by rw [numberedName, String.append_assoc]⟩
  | succ more ih =>
  intro n
  rw [numberedName]
  split
  · exact ih (n + 1)
  · exact ⟨"#" ++ toString n, by rw [String.append_assoc]⟩

theorem instanceName_titled (t : ScopeTree) (parent : ScopeId) (base : String) (args : List Ty) :
    Titled base (t.instanceName parent base args) := by
  right
  unfold instanceName
  dsimp only
  split
  · obtain ⟨rest, same⟩ := numberedName_titled t parent
      (base ++ "<" ++ ", ".intercalate (args.map Ty.text) ++ ">") (t.node parent).names.length 2
    exact ⟨", ".intercalate (args.map Ty.text) ++ ">" ++ rest, by
      rw [same]; simp only [String.append_assoc]⟩
  · exact ⟨", ".intercalate (args.map Ty.text) ++ ">", by simp only [String.append_assoc]⟩

theorem generic_cases (got : t.generic? generic = some decl) :
    (∃ e, t.kind generic = .template e ∧ decl = .template e.decl) ∨
      ∃ e d, t.kind generic = .typeAlias e ∧ decl = .typeAlias d := by
  unfold generic? at got
  split at got
  · rename_i e kind
    split at got
    · exact .inl ⟨e, kind, (Option.some.inj got).symm⟩
    · cases got
  · rename_i e kind
    split at got
    · obtain ⟨d, -, same⟩ := Option.map_eq_some_iff.mp got
      exact .inr ⟨e, d, kind, same.symm⟩
    · cases got
  · cases got

variable {structName : String}

theorem admits_instance {outer : ScopeKind} (got : t.generic? generic = some decl) :
    outer.admits (decl.instanceKind generic structName) = outer.admits (t.kind generic) := by
  rcases generic_cases got with ⟨e, kind, rfl⟩ | ⟨e, d, kind, rfl⟩ <;> rw [kind] <;> rfl

theorem isBody_of_admits {outer : ScopeKind}
    (admits : outer.admits (decl.instanceKind generic structName)) :
    outer.isBody = false := by
  cases decl <;> cases outer <;> first | rfl | cases admits

theorem instance_of_refined {k k' : ScopeKind} (refined : k.Refined k')
    (holds : k.alias?.isSome ∨ k.template?.isSome) :
    k'.alias?.isSome ∨ k'.template?.isSome := by
  cases refined with
  | same => exact holds
  | template => exact .inr rfl
  | typeAlias => exact .inl rfl

theorem instanceKind_cases (decl : Generic) (structName : String) :
    ((decl.instanceKind generic structName).alias?.isSome ∨
      (decl.instanceKind generic structName).template?.isSome) := by
  cases decl
  · exact .inr rfl
  · exact .inl rfl

theorem instance_marked {k : ScopeKind}
    (refined : (decl.instanceKind generic structName).Refined k) :
    ∀ e, k = .template e → e.instanceOf ≠ none := by
  rintro e rfl none
  cases decl with
  | template =>
    obtain ⟨_, same, -, -, instanceOf⟩ := refined.template_eq
    obtain rfl := inj same
    rw [instanceOf] at none
    cases none
  | typeAlias => cases refined

theorem instance_declared {k : ScopeKind}
    (refined : (decl.instanceKind generic structName).Refined k) :
    ∀ e, k = .typeAlias e → e.decl ≠ none := by
  rintro e rfl none
  cases decl with
  | template => cases refined
  | typeAlias =>
  obtain ⟨_, same, decl, -⟩ := refined.alias_eq
  obtain rfl := ScopeKind.typeAlias.inj same
  rw [decl] at none
  cases none

end

variable {x : Stage []}

section

variable {args : List Ty} {structName : String}

theorem bindParams_keeps (params : List GenericParam) :
    ∀ (args : List Ty) (x : Stage []), (∀ arg ∈ args, arg.Known x.tree) →
      (x.tree.kind node).alias?.isSome ∨ (x.tree.kind node).template?.isSome →
      Keeps (bindParams node params args) x fun _ y =>
        params.length = args.length → y.tree.HasArguments node params args := by
  induction params with
  | nil =>
    intro _ x _ _
    refine .pure fun count => ?_
    obtain rfl := List.length_eq_zero_iff.mp count.symm
    exact .nil
  | cons param params ih =>
  intro args x known holds
  cases args with
  | nil => exact .pure nofun
  | cons arg args =>
  have outer : (x.tree.kind node).isBody = false := by
    cases kind : x.tree.kind node <;> rw [kind] at holds <;>
      first | rfl | exact holds.elim nofun nofun
  have admits : (x.tree.kind node).admits (.typeAlias ⟨none, some arg, false, none⟩) := by
    cases kind : x.tree.kind node <;> rw [kind] at holds <;>
      first | rfl | exact holds.elim nofun nofun
  refine .bind (.addChild outer admits nofun (.inl rfl) (fun _ => ⟨nofun, nofun⟩) ?_ nofun nofun) ?_
  · rintro - extended _ ⟨⟩
    exact (known arg (.head _)).mono extended.tree
  rintro _ y way ⟨-, grown⟩
  have lies := lt_of_not_body outer
  have bound : y.tree.Binds node param arg := by
    rw [Stage.tree, grown]
    exact ⟨x.tree.size, _, parent_grown_new lies, name_grown_new lies, alive_grown_new lies,
      kind_grown_new lies, rfl, rfl⟩
  refine (ih args y (fun arg mem =>
    Stage.known way (known arg (.tail _ mem)))
    (instance_of_refined (way.tree.kind node lies) holds)).mono ?_
  exact fun _ z more rest count =>
    .cons (bound.mono more.tree) (rest (Nat.succ.inj count))

theorem bindParams_instances (params : List GenericParam) :
    ∀ args s, Leads (bindParams node params args) s
      (fun _ s' => s'.instances = s.instances) fun _ s' => s'.instances = s.instances := by
  induction params with
  | nil => exact fun args s => rfl
  | cons param params ih =>
  intro args s
  cases args with
  | nil => exact rfl
  | cons arg args =>
  exact leads_bind.mpr (addChild_leads (fun _ => ih args _) fun _ _ => rfl)

theorem replayActions_keeps (sound : r.Sound) (actions : List (ActionDecl × ScopeId)) :
    ∀ x : Stage [], (x.tree.kind node).template?.isSome →
      Keeps (r.replayActions node actions) x := by
  induction actions with
  | nil => exact fun x _ => Keeps.pure trivial
  | cons fst actions ih =>
    intro x isTemplate
    refine .bind (applyAction_keeps sound isTemplate) ?_
    exact fun _ y way _ => ih y (Stage.template way isTemplate)

variable {s : Session}

theorem valid_remember (valid : s.Valid) (spared : List ScopeId) {type : Ty}
    (known : type.Known s.tree) (sole : s.Sole generic args type) :
    (s.remember generic args type).Valid ∧ s.Grows spared (s.remember generic args type) := by
  refine ⟨valid.congr rfl rfl (.refl _) ?_ valid.regular,
    .congr rfl rfl rfl rfl prefix_rfl (.remember sole) rfl⟩
  intro entry mem
  rcases mem_cons.mp mem with rfl | old
  · exact known
  · exact valid.instances entry (mem_filter.mp old).1

theorem valid_withStruct (valid : s.Valid) (spared : List ScopeId) (name : String) :
    (s.withBuilder (s.builder.withStruct name)).Valid ∧
      s.Grows spared (s.withBuilder (s.builder.withStruct name)) := by
  have bodies : ∀ other body, (s.builder.withStruct name).module.HasBody other body ↔
      s.builder.module.HasBody other body := fun _ _ => hasBody_withStruct
  refine valid.restructured (orderly_withStruct · name) (fun _ _ _ body _ _ _ => bodies _ body) ?_
    (withStruct_eq ..) fun _ => defines_withStruct
  exact fun _ _ formed e body kind alive has => formed e body kind alive ((bodies _ body).mp has)

theorem declareStruct_keeps {spared : List ScopeId} {x : Stage spared} (name : String) :
    Keeps (build (declareStruct name)) x fun _ y => y.tree = x.tree :=
  Keeps.build (declareStruct_run name _) (valid_withStruct x.valid spared name).1
    (valid_withStruct x.valid spared name).2 rfl

variable {e : TemplateEntry}

theorem layOut_keeps (sound : r.Sound) {x : Stage [node]}
    (kind : x.tree.kind node = .template e) (named : e.structName = structName)
    (ofGeneric : e.instanceOf = some generic) (alive : x.tree.isAlive node)
    (bare : x.tree.fields node = []) :
    Keeps (do
      build (declareStruct structName)
      r.defineTemplate node e.decl ((← tree).node node).exported
      r.replayActions node ((((← tree).kind generic).template?.map (·.actions)).getD [])
      return Ty.struct structName node) x fun type y =>
      type = .struct structName node ∧ type.Known y.tree ∧
        (x.tree.Plain → y.session.Embodied node) ∧
        (y.session.report.entries = [] → y.session.Furnished node) := by
  have isTemplate : (x.tree.kind node).template?.isSome := by
    rw [kind]
    rfl
  have known : (Ty.struct structName node).Known x.tree :=
    Ty.known_struct.mpr ⟨e, kind, named⟩
  refine .bind (declareStruct_keeps structName) ?_
  intro _ w fst same
  refine .tree_bind ?_
  have unformed : w.session.Unformed node := by
    intro _ _ kind' original
    obtain ⟨_, kind'', -, -, instanceOf⟩ := fst.tree.kind_template kind
    obtain rfl := inj (kind''.symm.trans kind')
    cases ofGeneric.symm.trans (instanceOf.symm.trans original)
  refine .bind (defineTemplate_keeps sound (by rw [same]; exact kind)
    (by rw [same]; exact alive) (by rw [same]; exact bare) unformed) ?_
  rintro _ v snd ⟨embodied, furnished⟩
  refine .tree_bind ?_
  have known' := Stage.known (trans fst snd) known
  have isTemplate' := Stage.template (trans fst snd) isTemplate
  refine .bind (replayActions_keeps sound _ ⟨v.session, v.valid⟩ isTemplate').spare ?_
  rintro _ u _ ⟨steady, -⟩
  refine .pure ⟨rfl, known'.mono steady.tree, fun plain => ?_, fun clean => ?_⟩
  · exact (embodied (fst.plain plain)).mono steady.toExtends (snd.plain (fst.plain plain))
      (Nat.lt_of_lt_of_le (lt_of_template kind) (fst.trans snd).tree.length)
  · exact steady.duties clean (.template node) nofun (furnished (steady.clean clean))

def Origin (decl : Generic) (kind : ScopeKind) : Prop :=
  match decl with
  | .template d => ∃ e, kind = .template e ∧ e.decl = d
  | .typeAlias _ => ∃ e, kind = .typeAlias e

theorem Origin.refined {kind kind' : ScopeKind} (origin : Origin decl kind)
    (refined : kind.Refined kind') : Origin decl kind' := by
  cases decl with
  | template =>
    obtain ⟨e, rfl, same⟩ := origin
    obtain ⟨e', has, decl, -⟩ := refined.template_eq
    exact ⟨e', has, decl.trans same⟩
  | typeAlias =>
    obtain ⟨e, rfl⟩ := origin
    obtain ⟨e', has, -⟩ := refined.alias_eq
    exact ⟨e', has⟩

theorem Origin.of_found (got : t.generic? generic = some decl) : Origin decl (t.kind generic) := by
  rcases generic_cases got with ⟨e, kind, rfl⟩ | ⟨e, d, kind, rfl⟩
  · exact ⟨e, kind, rfl⟩
  · exact ⟨e, kind⟩

theorem Origin.lt (origin : Origin decl (t.kind generic)) : generic < t.size := by
  refine lt_of_kind_ne_block fun block => ?_
  rw [block] at origin
  cases decl with
  | template => obtain ⟨e, has, -⟩ := origin; cases has
  | typeAlias => obtain ⟨e, has⟩ := origin; cases has

theorem Origin.unconstrained {kind : ScopeKind} (origin : Origin decl kind)
    (has : kind = .template e) (unconstrained : e.decl.isUnconstrained) :
    decl.params.all (·.constraints.isEmpty) := by
  subst has
  cases decl with
  | template =>
    obtain ⟨_, same, rfl⟩ := origin
    obtain rfl := inj same
    exact unconstrained
  | typeAlias =>
    obtain ⟨_, same⟩ := origin
    cases same

theorem Origin.sole_alias {d : AliasDecl}
    (origin : Origin (.typeAlias d) (s.tree.kind generic)) (type : Ty) :
    s.Sole generic args type := by
  intro e has
  obtain ⟨_, kind⟩ := origin
  cases kind.symm.trans has

theorem remembered_later {d : TemplateDecl} {s s' : Session}
    (origin : Origin (.template d) (s.tree.kind generic)) (kind : s.tree.kind node = .template e)
    (decl : e.decl = d) (named : e.structName = structName) (ofGeneric : e.instanceOf = some generic)
    (has : s.tree.HasArguments node d.generics args)
    (grows : (s.remember generic args (.struct structName node)).Grows [node] s') :
    s'.Sole generic args (.struct structName node) ∧ s'.Registered node := by
  obtain ⟨e0, present, _⟩ := origin
  have remembered : e0.decl.isUnconstrained →
      s'.instances.lookup (generic, args) = some (.struct structName node) := fun unconstrained =>
    grows.memory generic e0 args _ present unconstrained Session.lookup_remember_same
  obtain ⟨e₀', present', decl0, -⟩ := grows.tree.kind_template present
  constructor
  · intro e' kind' unconstrained _ got
    obtain rfl := inj (present'.symm.trans kind')
    rw [decl0] at unconstrained
    exact Option.some.inj (got.symm.trans (remembered unconstrained))
  intro e' _ kind' _ ofGeneric'
  obtain ⟨_, same', decl', struct', instanceOf⟩ :=
    grows.tree.of_kind_template (lt_of_template kind) kind'
  obtain rfl := inj (kind.symm.trans same')
  rw [instanceOf, ofGeneric] at ofGeneric'
  obtain rfl := Option.some.inj ofGeneric'
  refine ⟨args, e₀', ?_, present', fun unconstrained => ?_⟩
  · rw [decl', decl]
    exact has.mono grows.tree
  rw [struct', named]
  rw [decl0] at unconstrained
  exact remembered unconstrained

/-- What is declared in a new instance belongs to it alone. An instance of a template is laid out
as its fields are, and it is the only one that is remembered for its arguments. -/
theorem declareInstance_leads (sound : r.Sound) {x : Stage [node]}
    (known : ∀ arg ∈ args, arg.Known x.tree)
    (kind : x.tree.kind node = decl.instanceKind generic structName)
    (alive : x.tree.isAlive node) (bare : x.tree.fields node = [])
    (origin : Origin decl (x.tree.kind generic)) (lacks : x.session.Lacks generic args)
    (count : decl.params.length = args.length) :
    Leads (r.declareInstance generic decl args node structName span) x.session
      (fun type s => s.Valid ∧ x.session.Grows [node] s ∧ type.Known s.tree ∧
        (x.tree.Plain → s.Embodied node) ∧ (s.report.entries = [] → s.Furnished node) ∧
        s.Registered node ∧ s.Sole generic args type)
      fun d s => d.Ordinary ∧ s.Valid ∧ x.session.Grows [node] s ∧
        s.Sole generic args (.struct structName node) := by
  have holds : (x.tree.kind node).alias?.isSome ∨ (x.tree.kind node).template?.isSome := by
    rw [kind]
    exact instanceKind_cases decl structName
  have lies := lt_of_alive alive
  have bound : Keeps (bindParams node decl.params args) x _ :=
    (bindParams_keeps decl.params args ⟨x.session, x.valid⟩ known holds).spare
  refine leads_bind.mpr (.mono (.and bound (bindParams_instances decl.params args x.session)) ?_ ?_)
  · rintro _ _ ⟨⟨y, rfl, fst, steady, bound⟩, instances⟩
    have refined := steady.tree.kind node lies
    have origin' := origin.refined (fst.tree.kind generic origin.lt)
    have lacks' := lacks.mono fst.tree instances origin.lt
    cases decl with
    | typeAlias =>
      have target : Keeps (r.aliasTarget node span) y _ :=
        (sound.aliasTarget node span ⟨y.session, y.valid⟩).spare
      refine .mono target ?_ ?_
      · rintro type _ ⟨z, rfl, snd, -, known⟩
        have whole := fst.trans snd
        have refined' := whole.tree.kind node lies
        have other : ∀ e, z.session.tree.kind node ≠ .template e := by
          intro e isTemplate
          rw [show x.session.tree.kind node = _ from kind, isTemplate] at refined'
          cases refined'
        exact ⟨z.valid, whole, known, fun _ => ⟨fun e _ isTemplate => absurd isTemplate (other e),
          fun e isTemplate => absurd isTemplate (other e)⟩,
          fun _ e isTemplate => absurd isTemplate (other e),
          fun e _ isTemplate => absurd isTemplate (other e),
          (origin'.refined (snd.tree.kind generic origin'.lt)).sole_alias type⟩
      rintro _ s ⟨ordinary, valid, snd⟩
      exact ⟨ordinary, valid, fst.trans snd,
        (origin'.refined (snd.tree.kind generic origin'.lt)).sole_alias _⟩
    | template d =>
    rw [show (⟨x.session, x.valid⟩ : Stage []).session.tree.kind node = _ from kind] at refined
    obtain ⟨e, has, decl, struct', instanceOf⟩ := refined.template_eq
    have fields : y.tree.fields node = [] :=
      ((steady.tree.fields node lies (by rw [show _ = _ from kind]; rfl)).2 nofun).trans bare
    have alive' : y.tree.isAlive node := (steady.tree.alive node lies).trans alive
    have known' : (Ty.struct structName node).Known y.tree :=
      Ty.known_struct.mpr ⟨e, has, struct'⟩
    obtain ⟨valid, snd⟩ := valid_remember y.valid [node] known' (lacks'.sole _)
    obtain rfl : e.decl = d := decl
    refine .mono
      (layOut_keeps (x := ⟨_, valid⟩) sound has struct' instanceOf alive' fields) ?_ ?_
    · rintro _ _ ⟨w, rfl, third, rfl, known, embodied, furnished⟩
      obtain ⟨sole, registered⟩ := remembered_later origin' has rfl struct'
        instanceOf (bound count) third
      exact ⟨w.valid, fst.trans (snd.trans third), known,
        fun plain => embodied ((fst.trans snd).plain plain), furnished, registered, sole⟩
    rintro _ s ⟨ordinary, valid, third⟩
    exact ⟨ordinary, valid, fst.trans (snd.trans third),
      (remembered_later origin' has rfl struct' instanceOf (bound count) third).1⟩
  rintro _ s ⟨⟨ordinary, valid, fst⟩, instances⟩
  exact ⟨ordinary, valid, fst, (lacks.mono fst.tree instances origin.lt).sole _⟩

theorem declareOrRetract (sound : r.Sound) {y : Stage [node]}
    (way : x.session.Grows [node] y.session) (young : x.tree.size ≤ node)
    (known : ∀ arg ∈ args, arg.Known y.tree)
    (kind : y.tree.kind node = decl.instanceKind generic structName)
    (alive : y.tree.isAlive node) (bare : y.tree.fields node = [])
    (origin : Origin decl (x.tree.kind generic)) (lacks : x.session.Lacks generic args)
    (instances : y.session.instances = x.session.instances)
    (count : decl.params.length = args.length) :
    Leads (do
      match ← attempt (r.declareInstance generic decl args node structName span) with
      | .ok type =>
        modify (·.remember generic args type)
        return type
      | .error d =>
        modify (·.forget generic args)
        modifyTree (·.remove node)
        throw d) y.session
      (fun type s => ∃ z, session z = s ∧ later x z ∧ KnownIn type z) (Tracked.failed x) := by
  have lies := lt_of_alive alive
  have declared : Leads (r.declareInstance generic decl args node structName span) y.session _ _ :=
    declareInstance_leads sound known kind alive bare
    (origin.refined (way.tree.kind generic origin.lt))
    (lacks.mono way.tree instances origin.lt) count
  refine leads_bind.mpr ((leads_attempt _ _).mpr (.mono declared ?_ ?_))
  · rintro _ s ⟨valid, grows, known, embodied, furnished, registered, sole⟩
    have whole : x.session.Grows [] s := (way.trans grows).settle young
      (fun plain => ⟨(embodied (way.plain plain)).1, (embodied (way.plain plain)).laid⟩)
      registered (fun _ _ _ => (grows.tree.alive node lies).trans alive) furnished
    obtain ⟨valid', more⟩ := valid_remember valid [] known sole
    exact ⟨⟨_, valid'⟩, rfl, whole.trans more, known.mono more.tree⟩
  rintro d s ⟨ordinary, valid, grows, sole⟩
  have refined := grows.tree.kind node lies
  rw [show y.session.tree.kind node = _ from kind] at refined
  have forgotten : (s.forget generic args).Valid := by
    refine valid.congr rfl rfl (.refl _) ?_ valid.regular
    exact fun entry mem => valid.instances entry (mem_filter.mp mem).1
  obtain ⟨valid', grows'⟩ := x.valid.retracted forgotten ((way.trans grows).forget lacks sole)
    young ((grows.tree.alive node lies).trans alive)
    (instance_of_refined refined (instanceKind_cases decl structName))
    (instance_declared refined) (instance_marked refined)
  exact ⟨ordinary, valid', grows'⟩

theorem addInstance_keeps {x y : Stage []} {parent : ScopeId} (way : later x y)
    (got : x.tree.generic? generic = some decl) (up : x.tree.parent? generic = some parent) :
    Keeps (addChild parent (y.tree.instanceName parent decl.name args) (decl.instanceKind generic
        (y.tree.qualify parent (y.tree.instanceName parent decl.name args))) span)
      (⟨y.session, y.valid⟩ : Stage [y.tree.size])
      fun id z => id = y.tree.size ∧ z.session = y.session.grown parent
        (y.tree.instanceName parent decl.name args) (decl.instanceKind generic
          (y.tree.qualify parent (y.tree.instanceName parent decl.name args))) span := by
  have outside := x.valid.shaped.parent_lt up
  have admits : (y.tree.kind parent).admits (decl.instanceKind generic
      (y.tree.qualify parent (y.tree.instanceName parent decl.name args))) := by
    rw [(way.tree.kind parent outside).admits (.same _), admits_instance got]
    exact x.valid.shaped.admitted generic parent up
  have outer := isBody_of_admits admits
  refine .addChild outer admits ?_ (.inl ?_) ?_ ?_ ?_ ?_
  · cases decl <;> exact nofun
  · cases decl <;> rfl
  · intro plain
    refine ⟨by cases decl <;> exact nofun, ?_⟩
    rcases generic_cases got with ⟨e, kind, rfl⟩ | ⟨e, d, kind, rfl⟩
    · rintro _ ⟨⟩
      obtain ⟨e', kind', same, -⟩ := way.tree.kind_template kind
      rw [← same]
      exact (plain generic).2 e' kind'
    · exact nofun
  · intro free extended
    cases decl with
    | typeAlias => exact nofun
    | template =>
    intro p up
    have place := lt_of_not_body outer
    cases (parent_grown_new place).symm.trans up
    rw [show Session.tree _ = y.tree.grown _ _ _ _ from rfl, name_grown_new place]
    exact ⟨(extended.tree.qualify place _).symm, instanceName_titled ..⟩
  · cases decl <;> exact nofun
  · exact fun _ _ => mem_singleton_self _

theorem makeInstance_keeps (sound : r.Sound) (known : ∀ arg ∈ args, arg.Known x.tree)
    (unknown : x.session.instances.lookup (generic, args) = none) :
    Keeps (r.makeInstance generic args span) x KnownIn := by
  refine .tree_bind ?_
  cases got : x.tree.generic? generic with
  | none => exact .fail rfl
  | some decl =>
  refine .check rfl fun count => ?_
  have origin : Origin decl (x.tree.kind generic) := .of_found got
  have lies := origin.lt
  have inner : generic ≠ root := by
    rintro rfl
    rcases generic_cases got with ⟨e, kind, -⟩ | ⟨e, d, kind, -⟩ <;>
      · rw [x.valid.shaped.root] at kind
        cases kind
  obtain ⟨parent, up⟩ := x.valid.shaped.parent_of_ne_root lies inner
  rw [show ((session x).tree.parent? generic).getD ScopeTree.root = parent by
    rw [show (session x).tree = x.tree from rfl, up]; rfl]
  refine .bind (checkConstraints_keeps sound) ?_
  intro _ y checked unchanged
  refine .tree_bind ?_
  have origin' := origin.refined (checked.tree.kind generic lies)
  have lacks : y.session.Lacks generic args := by
    intro e kind unconstrained
    rw [unchanged (origin'.unconstrained kind unconstrained)]
    exact unknown
  -- The relation to `y` outlasts a failure; that to the session with the new scope does not.
  refine leads_bind.mpr (.mono (.and (addInstance_keeps checked got up)
    (addChild_fails y.session)) ?_ ?_)
  case refine_2 =>
    rintro d _ ⟨-, ordinary, rfl⟩
    exact stopped y d ordinary
  rintro _ s ⟨⟨z, rfl, added, rfl, grown⟩, -⟩
  obtain ⟨valid, marked⟩ := z.valid.adjusted [y.tree.size] (adjusts_exported
    z.tree y.tree.size (y.tree.node generic).exported) (z.valid.accounts _)
  have place : parent < y.tree.size :=
    Nat.lt_of_lt_of_le (x.valid.shaped.parent_lt up) checked.tree.length
  have fresh : z.tree.node y.tree.size = _ :=
    (congrArg (·.tree.node y.tree.size) grown).trans (node_grown_new place)
  have node : (z.tree.setExported y.tree.size (y.tree.node generic).exported).node y.tree.size =
      { z.tree.node y.tree.size with exported := (y.tree.node generic).exported } := by
    refine node_modifyNode_same (Nat.lt_of_lt_of_eq (Nat.lt_succ_self _) ?_)
    exact ((congrArg (·.tree.size) grown).trans length_grown).symm
  rw [fresh] at node
  have instances : z.session.instances = y.session.instances := by
    rw [grown]
    rfl
  refine declareOrRetract (y := ⟨_, valid⟩) sound (added.trans marked) .refl
    (fun arg mem => ((known arg mem).mono checked.tree).mono (added.trans marked).tree)
    ?_ ?_ ?_ origin' lacks instances (by simpa using count)
  · exact congrArg ScopeNode.kind node
  · exact congrArg ScopeNode.alive node
  rw [fields, children]
  exact congrArg (fun n : ScopeNode => n.order.filterMap _) node

end

theorem exhausted_keeps {α : Type} {post : α → Stage [] → Prop} :
    Keeps (exhausted span) x post := by
  refine .bind (m := fun _ _ => True) ?_ fun _ _ _ _ => Keeps.fail rfl
  exact .change (x.valid.congr rfl rfl (.refl _) x.valid.instances x.valid.regular)
    (.congr rfl rfl rfl rfl prefix_rfl (.of_eq rfl) rfl) trivial

theorem sound_within (depth : Nat) : (within depth).Sound := by
  induction depth with
  | zero =>
    refine ⟨⟨0, rfl⟩, ?_, ?_⟩
    · intro _ _ x
      exact exhausted_keeps
    intro _ _ _ x _ _
    exact exhausted_keeps
  | succ depth sound =>
  refine ⟨⟨depth + 1, rfl⟩, ?_, ?_⟩
  · intro _ _ x
    exact resolveAlias_keeps sound
  intro _ _ _ x known unknown
  exact makeInstance_keeps sound known unknown

end Resolver

end Stencil
