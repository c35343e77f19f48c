import Stencil.Proofs.Program.Constants
import Stencil.Proofs.Program.Walk

namespace Stencil

open Analysis Tracked ScopeTree DeclRecord List Resolver Course

def DeclRecord.layout? (d : DeclRecord) : Option ScopeId :=
  match d.decl, d.node with
  | .template decl, some node => if decl.generics.isEmpty then some node else none
  | _, _ => none

variable {d : DeclRecord}

theorem DeclRecord.node_of_layout {id : ScopeId} (got : d.layout? = some id) :
    d.node = some id := by
  unfold layout? at got
  split at got
  · rename_i has
    split at got
    · exact has.trans got
    · cases got
  · cases got

namespace Session

def Due (s : Session) (declared pending : List ScopeId) : Duty → Prop
  | .template id => id ∉ pending ∧
    (id ∈ declared ∨ ∀ e, s.tree.kind id = .template e → e.instanceOf ≠ none)
  | .original _ | .action _ => True

structure Standing (s : Session) (plainly : Prop) (start : Session) (pending : List ScopeId) :
    Prop where
  valid : s.Valid
  idle : s.Idle
  current : s.tree.current = root
  queued : ∀ id e, s.tree.kind id = .function e → e.code.isSome →
    e.decl.body.isSome → id ∈ s.bodies
  plain : plainly → s.tree.Plain
  laid : plainly → s.report.entries = [] → ∀ id, s.Laid id
  formed : plainly → ∀ id, s.Formed id
  registered : ∀ id, s.Registered id
  orderly : s.builder.Orderly
  recorded : s.decls = start.decls
  records : ∀ d ∈ start.decls, d.Placed s.tree
  since : start.tree.Precedes s.tree
  report : start.report.entries <+: s.report.entries
  enlisted : ∀ (index : Nat) (p : PendingAction), start.actions[index]? = some p →
    ∃ p', s.actions[index]? = some p' ∧ p'.decl = p.decl ∧ p'.scope = p.scope
  met : s.report.entries = [] → ∀ duty,
    s.Due (start.decls.filterMap layout?) pending duty → s.Meets duty
  bare : ∀ id ∈ pending, (s.tree.kind id).template?.isSome ∧
    s.tree.isAlive id ∧ s.tree.fields id = [] ∧ s.Unformed id

variable {plainly : Prop} {pending pending' spared : List ScopeId} {start s s' : Session}

theorem Due.before {declared : List ScopeId} {duty : Duty} (due : s'.Due declared pending' duty)
    (apart : duty.Apart spared) (tree : s.tree.Extends spared s'.tree)
    (rest : ∀ id ∈ pending, id ∈ pending' ∨ id ∈ spared) : s.Due declared pending duty := by
  cases duty with
  | original | action => trivial
  | template id =>
  obtain ⟨done, owed⟩ := due
  refine ⟨fun waiting => (rest id waiting).elim done apart, owed.imp_right fun isInstance => ?_⟩
  intro e kind
  obtain ⟨e', kind', -, -, instanceOf⟩ := tree.kind_template kind
  exact instanceOf ▸ isInstance e' kind'

/-- A step that declares the fields of the `spared` templates and of no others. -/
theorem Standing.advance (standing : s.Standing plainly start pending)
    (extended : s.Extends spared s') (valid : s'.Valid)
    (function : s'.builder.function = s.builder.function)
    (current : s'.tree.current = s.tree.current) (bodies : ∃ new, s'.bodies = s.bodies ++ new)
    (lowered : ∀ id e, s.tree.size ≤ id → s'.tree.kind id = .function e →
      e.code.isSome → e.decl.body.isSome → id ∈ s'.bodies)
    (laid : plainly → s'.report.entries = [] → ∀ id ∈ spared, s'.Laid id)
    (furnished : s'.report.entries = [] → ∀ id ∈ spared, s'.Furnished id)
    (original : ∀ id ∈ spared, s.tree.Original id)
    (rest : ∀ id ∈ pending', id ∈ pending ∧ id ∉ spared)
    (covered : ∀ id ∈ pending, id ∈ pending' ∨ id ∈ spared) :
    s'.Standing plainly start pending' where
  valid := valid
  idle := function.trans standing.idle
  current := current.trans standing.current
  queued id e kind code body := by
    by_cases old : id < s.tree.size
    · obtain ⟨_, same⟩ := bodies
      rw [same]
      exact mem_append_left _ (standing.queued id e
        (function_of_refined (extended.tree.kind id old) kind) code body)
    · exact lowered id e (Nat.le_of_not_lt old) kind code body
  plain given := extended.plain (standing.plain given)
  laid given clean id := by
    by_cases mem : id ∈ spared
    · exact laid given clean id mem
    have before := extended.clean clean
    exact extended.laid (standing.plain given) clean id mem fun _ =>
      standing.laid given before id
  formed given id := extended.formed (standing.plain given) id (original id) fun _ =>
    standing.formed given id
  registered id := by
    by_cases mem : id ∈ spared
    · exact (standing.registered id).mono extended.memory extended.tree (original id mem).lt
    · exact extended.registered id mem fun _ => standing.registered id
  orderly := extended.orderly standing.orderly
  recorded := extended.decls.trans standing.recorded
  records d mem := (standing.records d mem).mono extended.tree
  since := standing.since.trans extended.tree.precedes
  report := standing.report.trans extended.report
  enlisted index p has := by
    obtain ⟨p', present', decl, scope⟩ := standing.enlisted index p has
    obtain ⟨p'', present'', decl', scope', -⟩ := extended.actions index p' present'
    exact ⟨p'', present'', decl'.trans decl, scope'.trans scope⟩
  met clean duty due := by
    have before := extended.clean clean
    have kept : duty.Apart spared → s'.Meets duty := fun apart =>
      extended.duties clean duty apart
        (standing.met before duty (due.before apart extended.tree covered))
    cases duty with
    | original id =>
      by_cases mem : id ∈ spared
      · exact Stays.mono (standing.met before (.original id) trivial) extended.tree (original id mem).lt
      · exact kept mem
    | template id =>
      by_cases mem : id ∈ spared
      · exact furnished clean id mem
      · exact kept mem
    | action => exact kept trivial
  bare id mem := by
    obtain ⟨before, other⟩ := rest id mem
    obtain ⟨template, alive, bare, unformed⟩ := standing.bare id before
    have lies := lt_of_alive alive
    exact ⟨extended.tree.template lies template, (extended.tree.alive id lies).trans alive,
      ((extended.tree.fields id lies template).2 other).trans bare,
      unformed.mono extended.tree lies fun plain e kind =>
        extended.undefined plain id e other kind alive⟩

theorem Standing.proceed (standing : s.Standing plainly start pending) (lowers : s.Lowers s')
    (valid : s'.Valid) (current : s'.tree.current = root) :
    s'.Standing plainly start pending := by
  obtain ⟨new, bodies, -⟩ := lowers.bodies
  exact standing.advance lowers.toExtends valid lowers.function
    (current.trans standing.current.symm) ⟨new, bodies⟩ lowers.lowered
    (fun _ _ _ mem => by cases mem) (fun _ _ mem => by cases mem)
    (fun _ mem => by cases mem) (fun _ mem => ⟨mem, nofun⟩) fun _ => .inl

def Standing.course (standing : s.Standing plainly start pending) : Course :=
  ⟨s, standing.valid, standing.idle, standing.current⟩

theorem Standing.reporting {α : Type} {step : Analysis α} {post : α → Course → Prop}
    (standing : s.Standing plainly start pending) (inner : Keeps step standing.course post) :
    Leads (.reporting step) s (fun _ s' => s'.Standing plainly start pending ∧
      s.Extends [] s' ∧ (s'.report.entries = [] → ∃ a y, y.session = s' ∧ post a y))
      fun _ _ => False := by
  refine leads_reporting.mpr (.mono inner ?_ ?_)
  · rintro a _ ⟨y, rfl, way, holds⟩
    exact ⟨standing.proceed way y.valid y.current, way.toExtends, fun _ => ⟨a, y, rfl, holds⟩⟩
  rintro d _ ⟨regular, valid, lowers, current⟩
  obtain ⟨valid', grows⟩ := valid.reported [] regular
  refine ⟨standing.proceed (lowers.trans grows.lowers) valid' current,
    lowers.toExtends.trans grows.toExtends, fun clean => ?_⟩
  exact absurd clean (concat_ne_nil _ _)

end Session

namespace Session

variable {plainly : Prop} {s : Session}

theorem Entered.layouts (entered : s.Entered plainly) : (s.decls.filterMap layout?).Nodup := by
  have distinct := entered.distinct
  rw [nodup_iff_pairwise_ne, pairwise_filterMap] at distinct ⊢
  refine distinct.imp ?_
  intro d _ apart id got id' found'
  exact apart id (node_of_layout got) id' (node_of_layout found')

theorem Entered.standing (entered : s.Entered plainly) :
    s.Standing plainly s (s.decls.filterMap layout?) where
  valid := entered.valid
  idle := entered.idle
  current := entered.current
  queued id e kind := absurd kind (entered.functions id e)
  plain := entered.plain
  laid _ _ id _ _ _ fields := absurd (entered.bare id) fields
  formed _ _ e body _ _ has := absurd ⟨body, has⟩ (entered.blank e.structName)
  registered id e _ kind _ ofGeneric := by
    rw [entered.original id e kind] at ofGeneric
    cases ofGeneric
  orderly := entered.orderly
  recorded := rfl
  records := entered.records
  since := (ScopeTree.Extends.refl [] s.tree).precedes
  report := prefix_rfl
  enlisted _ p present := ⟨p, present, rfl, rfl⟩
  met _ duty due := by
    cases duty with
    | original id =>
      intro e kind _
      exact entered.alive id (lt_of_template kind)
    | template id =>
      intro e kind
      exact due.2.elim (fun declared => absurd declared due.1)
        fun isInstance => absurd (entered.original id e kind) (isInstance e kind)
    | action =>
      intro p present applied
      rw [entered.unapplied p (mem_of_getElem? present)] at applied
      cases applied
  bare id mem := by
    obtain ⟨d, present, got⟩ := mem_filterMap.mp mem
    have has := node_of_layout got
    cases is : d.decl with
    | template decl =>
      obtain ⟨node, e, has', -, houses⟩ := (entered.records d present).template decl is
      obtain rfl := Option.some.inj (has'.symm.trans has)
      exact ⟨by rw [houses.kind]; rfl, houses.alive, entered.bare node,
        fun _ e _ _ => entered.blank e.structName⟩
    | _ => simp [layout?, is] at got

end Session

variable {s : Session}

section

variable {plainly : Prop} {start : Session} {pending : List ScopeId}

theorem forEachDecl_leads {work : DeclRecord → Analysis Unit} {decls : List DeclRecord}
    (holds : List DeclRecord → Session → Prop)
    (step : ∀ d ds s, d :: ds <:+ decls → holds (d :: ds) s →
      Leads (reporting (work d)) s (fun _ s' => holds ds s') fun _ _ => False) :
    ∀ ds s, ds <:+ decls → holds ds s →
      Leads (forEachDecl work ds) s (fun _ s' => holds [] s') fun _ _ => False := by
  intro ds
  induction ds with
  | nil => exact fun s _ before => before
  | cons d ds ih =>
  intro s suffix before
  refine leads_bind.mpr (.mono (step d ds s suffix before) ?_ fun _ _ h => h)
  intro _ s' after
  exact ih s' ((suffix_cons d ds).trans suffix) after

theorem Session.resolver_sound (s : Session) : s.resolver.Sound := by
  exact sound_within _

theorem leads_resolver {α : Type} {next : Resolver → Analysis α}
    {done : α → Session → Prop} {failed : Diagnostic → Session → Prop} :
    Leads (.resolver >>= next) s done failed ↔ Leads (next s.resolver) s done failed := by
  have run : Analysis.resolver s = .ok s.resolver s := rfl
  rw [leads_bind, Leads, run]

theorem resolver_bind_keeps {α σ : Type} [Tracked σ] {x : σ} {next : Resolver → Analysis α}
    {post : α → σ → Prop} (after : ∀ r, r.Sound → Keeps (next r) x post) :
    Keeps (.resolver >>= next) x post :=
  leads_resolver.mpr (after (session x).resolver (session x).resolver_sound)

theorem DeclRecord.resolve_keeps {x : Course} (placed : d.Placed x.session.tree) :
    Keeps d.resolve x := by
  refine resolver_bind_keeps fun r sound => ?_
  split
  · rename_i decl node _ _
    split
    · refine .bind (stage (sound.aliasTarget node d.span ⟨x.session, x.valid⟩)) ?_
      exact fun _ _ _ _ => Keeps.pure trivial
    · exact .pure trivial
  · exact defineConstant_keeps sound placed.parent placed.alive
  · exact .pure trivial

def DeclRecord.Declared (d : DeclRecord) (t : ScopeTree) : Prop :=
  ∀ decl, d.decl = .func decl → t.Declares d.parent decl

theorem DeclRecord.declare_keeps {x : Course} (placed : d.Placed x.session.tree) :
    Keeps d.declare x fun _ y => d.Declared y.session.tree := by
  have plain : (x.session.tree.kind d.parent).spec? = none := by
    have isNamespace := placed.parent
    cases kind : x.session.tree.kind d.parent <;> rw [kind] at isNamespace <;>
      first | rfl | cases isNamespace
  unfold declare
  split
  · rename_i decl node is
    refine resolver_bind_keeps fun r sound => ?_
    refine (stage (declareFunction_keeps sound (x := ⟨x.session, x.valid⟩)
      (ScopeKind.isOuter_of_isNamespace placed.parent))).mono ?_
    rintro _ y _ ⟨-, declares⟩ _ is'
    obtain rfl := Decl.func.inj (is.symm.trans is')
    exact declares plain
  · rename_i decl node is has
    refine resolver_bind_keeps fun r sound => ?_
    refine (stage (declareSpec_keeps sound (x := ⟨x.session, x.valid⟩))).mono ?_
    exact fun _ y _ _ _ is' => nomatch is.symm.trans is'
  rename_i other _
  exact .pure fun decl' is' => absurd is' (other decl')

theorem DeclRecord.declare_leads {ds : List DeclRecord}
    (standing : s.Standing plainly start pending) (mem : d ∈ start.decls)
    (declared : s.report.entries = [] → ∀ d' ∈ start.decls, d' ∈ d :: ds ∨ d'.Declared s.tree) :
    Leads (reporting d.declare) s (fun _ s' => s'.Standing plainly start pending ∧
      (s'.report.entries = [] → ∀ d' ∈ start.decls, d' ∈ ds ∨ d'.Declared s'.tree))
      fun _ _ => False := by
  have inner := declare_keeps (x := standing.course) (standing.records d mem)
  refine .mono (standing.reporting inner) ?_ fun _ _ h => h
  rintro _ _ ⟨standing', extended, holds⟩
  refine ⟨standing', fun clean d' mem' => ?_⟩
  rcases declared (extended.clean clean) d' mem' with left | done
  · refine (mem_cons.mp left).symm.imp_right ?_
    rintro rfl
    obtain ⟨_, y, rfl, done⟩ := holds clean
    exact done
  · exact .inr fun decl is => (done decl is).mono extended.tree

theorem DeclRecord.defineTemplate_leads {ds : List DeclRecord}
    (distinct : ((d :: ds).filterMap layout?).Nodup) (listed : d ∈ start.decls)
    (standing : s.Standing plainly start ((d :: ds).filterMap layout?)) :
    Leads (reporting d.defineTemplate) s
      (fun _ s' => s'.Standing plainly start (ds.filterMap layout?))
      fun _ _ => False := by
  have skip : d.layout? = none → s.Standing plainly start (ds.filterMap layout?) := by
    intro none
    rwa [filterMap_cons_none none] at standing
  unfold DeclRecord.defineTemplate
  split
  · rename_i decl node is has
    split
    · rename_i concrete
      have here : d.layout? = some node := by
        unfold layout?
        rw [is, has]
        exact if_pos concrete
      rw [filterMap_cons_some here] at standing distinct
      obtain ⟨-, alive, bare, unformed⟩ := standing.bare node (.head _)
      obtain ⟨node', e, has', rfl, houses⟩ := (standing.records d listed).template decl is
      cases has.symm.trans has'
      have rest : ∀ id ∈ ds.filterMap layout?, id ∈ node :: ds.filterMap layout? ∧ id ∉ [node] := by
        intro id mem
        refine ⟨.tail _ mem, fun same => ?_⟩
        rw [mem_singleton.mp same] at mem
        exact (nodup_cons.mp distinct).1 mem
      have inner : Keeps (s.resolver.defineTemplate node e.decl d.exported)
          (⟨s, standing.valid⟩ : Stage [node]) _ :=
        defineTemplate_keeps s.resolver_sound houses.kind alive bare unformed
      have advance : ∀ {s' : Session}, s'.Valid → s.Grows [node] s' →
          (s.tree.Plain → s'.report.entries = [] → s'.Laid node) →
          (s'.report.entries = [] → s'.Furnished node) →
          s'.Standing plainly start (ds.filterMap layout?) := by
        intro s' valid grows laid furnished
        obtain ⟨new, bodies, -⟩ := grows.bodies
        refine standing.advance grows.toExtends valid grows.frame.1 grows.current ⟨new, bodies⟩
          grows.lowered (fun given clean id mem => ?_) (fun clean id mem => ?_)
          (fun id mem => ?_) rest fun id mem => ?_
        · rw [mem_singleton.mp mem]
          exact laid (standing.plain given) clean
        · rw [mem_singleton.mp mem]
          exact furnished clean
        · rw [mem_singleton.mp mem]
          exact ⟨e, houses.kind, houses.original⟩
        · exact (mem_cons.mp mem).symm.imp_right mem_singleton.mpr
      refine leads_reporting.mpr (leads_resolver.mpr (.mono inner ?_ ?_))
      · rintro _ _ ⟨y, rfl, grows, embodied, furnished⟩
        exact advance y.valid grows (fun plain _ => (embodied plain).laid) furnished
      rintro problem s' ⟨ordinary, valid, grows⟩
      obtain ⟨valid', grows'⟩ := valid.reported [node] ordinary.regular
      have some : (s'.report.push problem).entries ≠ [] := concat_ne_nil _ _
      exact advance valid' (grows.trans grows') (fun _ clean => absurd clean some)
        fun clean => absurd clean some
    rename_i generic
    refine skip ?_
    unfold layout?
    rw [is, has]
    exact if_neg generic
  rename_i other
  refine skip ?_
  unfold layout?
  split
  · rename_i decl node is has
    exact absurd has (other decl node is)
  · rfl

def Session.Applied (s : Session) (index : Nat) : Prop :=
  ∀ p, s.actions[index]? = some p → p.applied

theorem applyActions_leads (indices : List Nat) :
    ∀ s, s.Standing plainly start [] → (∀ index ∈ indices, index < s.actions.length) →
      Leads (applyActions indices) s (fun _ s' => s'.Standing plainly start [] ∧ s.Extends [] s' ∧
        ∀ index ∈ indices, s'.Applied index) fun _ _ => False := by
  induction indices with
  | nil => exact fun s standing _ => ⟨standing, .refl [] s, nofun⟩
  | cons index rest ih =>
  intro s standing known
  obtain ⟨pending, has⟩ : ∃ p, s.actions[index]? = some p :=
    ⟨_, getElem?_eq_getElem (known index (.head _))⟩
  -- Whatever is done about this action, it is applied before the others are looked at.
  have continues : ∀ s', s'.Standing plainly start [] → s.Extends [] s' → s'.Applied index →
      Leads (applyActions rest) s' (fun _ s'' => s''.Standing plainly start [] ∧
        s.Extends [] s'' ∧ ∀ i ∈ index :: rest, s''.Applied i) fun _ _ => False := by
    intro s' standing' extended applied
    have lies : ∀ i, i < s.actions.length → i < s'.actions.length := by
      intro i within
      obtain ⟨_, got, -⟩ := extended.actions i _ (getElem?_eq_getElem within)
      exact (List.getElem?_eq_some_iff.mp got).1
    refine .mono (ih s' standing' fun i mem =>
      lies i (known i (.tail _ mem))) ?_ fun _ _ h => h
    rintro _ _ ⟨standing'', more, others⟩
    refine ⟨standing'', extended.trans more, fun i mem => ?_⟩
    rcases mem_cons.mp mem with rfl | later
    · intro p got
      obtain ⟨p', found', -⟩ := extended.actions i pending has
      obtain ⟨_, found'', -, -, still⟩ := more.actions i p' found'
      cases found''.symm.trans got
      exact still (applied p' found')
    · exact others i later
  refine leads_get.mpr ?_
  rw [has]
  dsimp only
  split
  · rename_i applied
    refine continues s standing (.refl [] s) fun p got => ?_
    cases has.symm.trans got
    exact applied
  refine leads_bind.mpr (leads_bind.mpr (Leads.mono
    (applyMarked_leads standing.valid s.resolver_sound has) ?_ fun _ _ h => h))
  rintro _ s' ⟨valid, grows, applied⟩
  exact continues s' (standing.proceed grows.lowers valid
    (grows.current.trans standing.current)) grows.toExtends applied

theorem passes_leads {α : Type} (entered : s.Entered plainly) {rest : Analysis α}
    {done : α → Session → Prop}
    (after : ∀ s', s'.Standing plainly s [] → (∀ index < s.actions.length, s'.Applied index) →
      (s'.report.entries = [] → ∀ d ∈ s.decls, d.Declared s'.tree) →
        Leads rest s' done fun _ _ => False) :
    Leads (do
      forEachDecl resolve (← get).decls
      forEachDecl DeclRecord.defineTemplate (← get).decls
      forEachDecl declare (← get).decls
      applyActions (.range (← get).actions.length)
      rest) s done fun _ _ => False := by
  have standing := entered.standing
  have distinct := entered.layouts
  have listed : ∀ {d : DeclRecord} {ds : List DeclRecord}, d :: ds <:+ s.decls → d ∈ s.decls :=
    fun suffix => suffix.subset (.head _)
  refine leads_bind.mpr (leads_bind.mpr ?_)
  refine .mono (forEachDecl_leads
    (fun _ s' => s'.Standing plainly s (s.decls.filterMap layout?)) ?_ s.decls s
    suffix_rfl standing) ?_ fun _ _ h => h
  · intro d _ _ suffix standing'
    exact (standing'.reporting (resolve_keeps (x := standing'.course)
      (standing'.records d (listed suffix)))).mono (fun _ _ h => h.1) fun _ _ h => h
  intro _ s1 standing1
  refine leads_bind.mpr (leads_bind.mpr ?_)
  rw [standing1.recorded]
  refine .mono (forEachDecl_leads
    (fun ds s' => s'.Standing plainly s (ds.filterMap layout?)) ?_ s.decls s1
    suffix_rfl standing1) ?_ fun _ _ h => h
  · intro d _ _ suffix standing'
    exact defineTemplate_leads (distinct.sublist (suffix.sublist.filterMap _))
      (listed suffix) standing'
  intro _ s2 standing2
  refine leads_bind.mpr (leads_bind.mpr ?_)
  rw [standing2.recorded]
  refine .mono (forEachDecl_leads (fun ds s' => s'.Standing plainly s [] ∧
    (s'.report.entries = [] → ∀ d ∈ s.decls, d ∈ ds ∨ d.Declared s'.tree)) ?_ s.decls s2
    suffix_rfl ⟨standing2, fun _ _ => .inl⟩) ?_ fun _ _ h => h
  · rintro d _ _ suffix ⟨standing', declared⟩
    exact declare_leads standing' (listed suffix) declared
  rintro _ s3 ⟨standing3, declared⟩
  refine leads_bind.mpr (leads_bind.mpr ?_)
  refine .mono (applyActions_leads _ s3 standing3 fun _ => mem_range.mp) ?_ fun _ _ h => h
  rintro _ s4 ⟨standing4, extended, applied⟩
  refine after s4 standing4 (fun index lies => applied index (mem_range.mpr ?_)) ?_
  · obtain ⟨_, got, -⟩ := standing3.enlisted index _ (getElem?_eq_getElem lies)
    exact (List.getElem?_eq_some_iff.mp got).1
  intro clean d mem decl is
  have before := extended.clean clean
  rcases declared before d mem with left | done
  · cases left
  · exact (done decl is).mono extended.tree

end

namespace ScopeTree

theorem shaped_new (moduleName : String) : (new moduleName).Shaped where
  toIndexed := .new moduleName
  root := rfl
  rooted id lies _ := Nat.lt_one_iff.mp lies
  admitted id p up := by
    rw [parent_new] at up
    cases up
  namespaces id is := by
    rcases kind_new moduleName id with ⟨-, rfl⟩ | block
    · rfl
    rw [block] at is
    cases is

end ScopeTree

namespace Session

theorem kind_of_new {moduleName : String} {limits : Limits} {id : ScopeId} {k : ScopeKind}
    (kind : (new moduleName limits).tree.kind id = k) : k = .module ∨ k = .block := by
  rcases kind_new moduleName id with ⟨other, -⟩ | other
  · exact .inl (kind.symm.trans other)
  · exact .inr (kind.symm.trans other)

theorem valid_new (moduleName : String) (limits : Limits) : (new moduleName limits).Valid where
  shaped := shaped_new moduleName
  current := rfl
  accounts id := by
    have known := kind_of_new (rfl : (new moduleName limits).tree.kind id = _)
    rcases known with kind | kind <;> rw [kind] <;> trivial
  codes id id' e e' c kind := by
    rcases kind_of_new kind with other | other <;> cases other
  instances := nofun
  fields id _ some := absurd (fields_new moduleName id) some
  queue := .nil
  queued := nofun
  finished := nofun
  late := rfl
  regular := nofun

theorem entered_new (plainly : Prop) (moduleName : String) (limits : Limits) :
    (new moduleName limits).Entered plainly where
  valid := valid_new moduleName limits
  idle := rfl
  current := rfl
  functions id e kind := by
    rcases kind_of_new kind with other | other <;> cases other
  bare := fields_new moduleName
  plain _ id := by
    constructor
    · intro kind
      rcases kind_of_new kind with other | other <;> cases other
    intro e kind
    rcases kind_of_new kind with other | other <;> cases other
  records := nofun
  distinct := .nil
  original id e kind := by
    rcases kind_of_new kind with other | other <;> cases other
  alive id lies := by
    obtain rfl := Nat.lt_one_iff.mp lies
    rfl
  enlisted := nofun
  unapplied := nofun
  orderly := ⟨.nil, rfl, nofun⟩
  blank := by
    rintro _ ⟨_, has⟩
    cases has

structure Analyzed (plainly : Prop) (s : Session) : Prop where
  valid : s.Valid
  idle : s.Idle
  settled : s.Settled
  done : s.bodies = [] ∨ s.exhausted
  plain : plainly → s.tree.Plain
  laid : plainly → s.report.entries = [] → ∀ id, s.Laid id
  registered : ∀ id, s.Registered id
  orderly : s.builder.Orderly

def Honours (s : Session) (path : List String) : Decl → Prop
  | .func decl => ∃ parent, s.tree.path parent = path ∧ s.tree.Declares parent decl
  | .template decl => decl.generics = [] → ∃ parent node e, s.tree.path parent = path ∧
    e.decl = decl ∧ s.tree.Houses parent e node ∧ s.Furnished node
  | .action decl => ∃ scope, s.tree.path scope = path ∧ s.tree.isAlive scope ∧
    s.Acted decl scope
  | .typeAlias _ | .spec _ | .const _ => True

structure Fulfils (s : Session) (m : Module) : Prop where
  drained : s.bodies = []
  stays : ∀ id, s.Stays id
  instances : ∀ id e, s.tree.kind id = .template e → e.instanceOf ≠ none → s.Furnished id
  honours : ∀ path decl, m.Has path decl → s.Honours path decl

section

variable {plainly : Prop} {start s' : Session} {path : List String} {decl : Decl}

theorem Standing.honours (standing : s.Standing plainly start []) (entered : start.Entered plainly)
    (applied : ∀ index < start.actions.length, s.Applied index)
    (declared : ∀ d ∈ start.decls, d.Declared s.tree) (clean : s.report.entries = [])
    (records : start.Records path decl) : s.Honours path decl := by
  obtain ⟨d, mem, rfl, place⟩ := records
  have placed := standing.records d mem
  have path : s.tree.path d.parent = path :=
    (standing.since.path (lt_of_alive (entered.records d mem).alive)).trans place
  cases is : d.decl with
  | func decl => exact ⟨d.parent, path, declared d mem decl is⟩
  | template decl =>
    intro concrete
    obtain ⟨node, e, has, same, houses⟩ := placed.template decl is
    have layout : d.layout? = some node := by
      rw [layout?, is, has]
      exact if_pos (List.isEmpty_iff.mpr concrete)
    have mem' := mem_filterMap.mpr ⟨d, mem, layout⟩
    exact ⟨d.parent, node, e, path, same, houses,
      standing.met clean (.template node) ⟨nofun, .inl mem'⟩⟩
  | action decl =>
    obtain ⟨index, present⟩ := getElem?_of_mem (entered.enlisted d mem decl is)
    obtain ⟨p, present', decl', scope⟩ := standing.enlisted index _ present
    have lies := (List.getElem?_eq_some_iff.mp present).1
    have acted := standing.met clean (.action index) trivial p present'
      (applied index lies p present')
    rw [decl', scope] at acted
    exact ⟨d.parent, path, placed.alive, acted⟩
  | _ => trivial

theorem Honours.mono (honours : s.Honours path decl) (before : s.Valid)
    (extended : s.Extends [] s') (clean : s'.report.entries = []) : s'.Honours path decl := by
  cases decl with
  | func =>
    obtain ⟨parent, path, declares⟩ := honours
    have ⟨id, e, up, _⟩ := declares
    exact ⟨parent, (extended.tree.path (before.shaped.parent_lt up)).trans path,
      declares.mono extended.tree⟩
  | template =>
    intro concrete
    obtain ⟨parent, node, e, path, same, houses, furnished⟩ := honours concrete
    obtain ⟨e', decl', houses'⟩ := houses.mono extended.tree
    have place := extended.tree.path (before.shaped.parent_lt houses.around)
    exact ⟨parent, node, e', place.trans path, decl'.trans same, houses',
      extended.duties clean (.template node) nofun furnished⟩
  | action =>
    obtain ⟨scope, path, alive, acted⟩ := honours
    have lies := lt_of_alive alive
    exact ⟨scope, (extended.tree.path lies).trans path,
      (extended.tree.alive scope lies).trans alive,
      acted.mono extended.tree⟩
  | _ => trivial

theorem Standing.fulfils {m : Module} (standing : s.Standing plainly start [])
    (entered : start.Entered plainly) (applied : ∀ index < start.actions.length, s.Applied index)
    (declared : s.report.entries = [] → ∀ d ∈ start.decls, d.Declared s.tree)
    (records : start.report.entries = [] → ∀ path decl, m.Has path decl → start.Records path decl)
    (bodied : s.Bodied s') (drained : s'.Drained) (clean : s'.report.entries = []) :
    s'.Fulfils m := by
  have before := bodied.clean clean
  have fst := prefix_nil.mp (before ▸ standing.report)
  have met : ∀ duty, duty.Apart [] → s.Due _ [] duty → s'.Meets duty := fun duty apart due =>
    bodied.duties clean duty apart (standing.met before duty due)
  refine ⟨drained.resolve_right fun h => h.2 clean, fun id => met (.original id) nofun trivial,
    fun id e kind isInstance => ?_, fun path decl has => ?_⟩
  · refine met (.template id) nofun ⟨nofun, .inr fun _ kind0 => ?_⟩
    obtain ⟨_, kind1, -, -, instanceOf⟩ := bodied.tree.of_kind_template (lt_of_template kind0) kind
    obtain rfl := ScopeKind.template.inj (kind0.symm.trans kind1)
    exact instanceOf ▸ isInstance
  exact (standing.honours entered applied (declared before) before
    (records fst path decl has)).mono standing.valid bodied.toExtends clean

end

theorem Standing.settled {plainly : Prop} {start : Session} {pending : List ScopeId}
    (standing : s.Standing plainly start pending) : s.Settled :=
  fun _ id e kind code body _ => .inl (standing.queued id e kind code body)

end Session

theorem declareModule_leads (moduleName : String) (m : Module) (limits : Limits) :
    Leads (declareModule m) (.new moduleName limits)
      (fun _ s => ∃ start, s.Standing (Item.AllPlain m.items) start [] ∧
        ∀ s', s.Bodied s' → s'.Drained → s'.report.entries = [] → s'.Fulfils m) fun _ _ => False := by
  have entered := registerItems_keeps root m.items
    (x := ⟨_, Session.entered_new (Item.AllPlain m.items) moduleName limits⟩) id rfl rfl
  have succeeds := registerItems_succeeds root m.items (.new moduleName limits)
  refine leads_bind.mpr ((entered.and succeeds).mono ?_ fun _ _ h => h.2)
  rintro _ _ ⟨⟨x, rfl, -, records⟩, -⟩
  refine passes_leads x.entered ?_
  intro s' standing applied declared
  refine leads_get.mpr ⟨_, standing, fun _ => standing.fulfils x.entered applied declared ?_⟩
  intro clean path decl has
  have recorded := records clean path decl has
  rwa [path_root, nil_append] at recorded

theorem analyzeModule_leads (moduleName : String) (m : Module) (limits : Limits) :
    Leads (analyzeModule m) (.new moduleName limits)
      (fun _ s => s.Analyzed (Item.AllPlain m.items) ∧ (s.report.entries = [] → s.Fulfils m))
      fun _ _ => False := by
  refine leads_bind.mpr ((declareModule_leads moduleName m limits).mono ?_ fun _ _ h => h)
  rintro limit s ⟨start, standing, fulfils⟩
  refine Leads.mono (Session.lowerBodies_leads _ standing.valid standing.idle) ?_ fun _ _ h => h
  rintro _ _ ⟨bodied, drained⟩
  refine ⟨⟨bodied.valid, bodied.idle, bodied.settled standing.settled, drained.imp_right And.left,
    fun given => bodied.plain (standing.plain given), fun given clean id => ?_,
    fun id => bodied.registered id nofun fun _ => standing.registered id,
    bodied.orderly standing.orderly⟩, fulfils _ bodied drained⟩
  have before := bodied.clean clean
  exact bodied.laid (standing.plain given) clean id nofun fun _ => standing.laid given before id

theorem analyze_leads {moduleName : String} {m : Module} {limits : Limits} {post : Session → Prop}
    (run : Leads (analyzeModule m) (.new moduleName limits) (fun _ s => post s) fun _ _ => False) :
    post (analyze moduleName m limits) := by
  rw [analyze, Session.run_eq]
  unfold Leads at run
  cases result : analyzeModule m (.new moduleName limits) with
  | ok =>
    rw [result] at run
    exact run
  | error =>
    rw [result] at run
    exact run.elim

theorem analyze_analyzed (moduleName : String) (m : Module) (limits : Limits) :
    (analyze moduleName m limits).Analyzed (Item.AllPlain m.items) :=
  analyze_leads ((analyzeModule_leads moduleName m limits).mono (fun _ _ h => h.1) fun _ _ h => h)

theorem analyze_fulfils (moduleName : String) (m : Module) (limits : Limits) :
    (analyze moduleName m limits).report.entries = [] → (analyze moduleName m limits).Fulfils m :=
  analyze_leads ((analyzeModule_leads moduleName m limits).mono (fun _ _ h => h.2) fun _ _ h => h)

end Stencil
