import Stencil.Proofs.Analysis.Resolve

namespace Stencil

open Analysis Tracked List ScopeTree Ir.Builder ScopeKind ScopeKind.template

variable {r : Resolver} {parent : ScopeId}

namespace Session

variable {s : Session} {e : FunctionEntry}

def declared (s : Session) (parent : ScopeId) (e : FunctionEntry) (exported : Bool) : Session :=
  let added := s.grown parent e.decl.name (.function e) e.decl.span
  let marked := added.withTree (added.tree.setExported s.tree.size exported)
  if e.code.isSome && e.decl.body.isSome then
    { marked with bodies := marked.bodies ++ [s.tree.size] }
  else marked

theorem Valid.enqueue (valid : s.Valid) {id : ScopeId} (kind : s.tree.kind id = .function e)
    (code : e.code.isSome) (body : e.decl.body.isSome) (new : id ∉ s.bodies)
    (childless : ∀ child, s.tree.parent? child ≠ some id) :
    ({ s with bodies := s.bodies ++ [id] } : Session).Valid where
  __ := valid
  queue := by
    refine nodup_append.mpr ⟨valid.queue, by simp, ?_⟩
    rintro a mem b last rfl
    exact new (mem_singleton.mp last ▸ mem)
  queued i mem := by
    rcases mem_append.mp mem with old | last
    · exact valid.queued i old
    rw [mem_singleton.mp last]
    exact ⟨⟨e, kind, code, body⟩, childless⟩

/-- A declared function has its scope, and its body waits to be built. -/
theorem Valid.declared (valid : s.Valid) (exported : Bool)
    (outer : (s.tree.kind parent).isBody = false)
    (admits : (s.tree.kind parent).admits (.function e))
    (free : s.tree.findChild? parent e.decl.name = none)
    (accounts : s.Extends [] (s.grown parent e.decl.name (.function e) e.decl.span) →
      (s.grown parent e.decl.name (.function e) e.decl.span).Accounts s.tree.size
        (.function e))
    (codes : ∀ c, e.code = some c → ∀ id e', s.tree.kind id = .function e' → e'.code ≠ some c) :
    (s.declared parent e exported).Valid ∧ s.Grows [] (s.declared parent e exported) := by
  have lies := lt_of_not_body outer
  have extended : s.Extends [] (s.grown parent e.decl.name (.function e) e.decl.span) :=
    valid.extends_grown lies (.inl rfl) (fun _ => ⟨nofun, nofun⟩) nofun
  have added := valid.grown lies free admits extended.toIncludes (accounts extended)
    (by rintro _ c ⟨⟩; exact codes c) nofun (not_queued valid outer)
  obtain ⟨marked, exports⟩ := added.adjusted []
    (ScopeTree.adjusts_exported _ s.tree.size exported) (added.accounts _)
  have widened := (Session.widens_grown lies extended outer).trans exports.toWidens
  have kind : ∀ id e', s.tree.size ≤ id →
      ((s.tree.grown parent e.decl.name (.function e) e.decl.span).setExported
        s.tree.size exported).kind id = .function e' → id = s.tree.size ∧ e = e' := by
    intro id e' young has
    obtain ⟨same, entry⟩ := Session.kind_grown_young (k := .function e') lies young nofun
      ((ScopeTree.modifyNode_proj ScopeNode.kind (by rfl) _).symm.trans has)
    exact ⟨same, ScopeKind.function.inj entry⟩
  unfold Session.declared
  split
  · rename_i given
    obtain ⟨code, body⟩ := Bool.and_eq_true_iff.mp given
    have new : s.tree.size ∉ s.bodies := by
      intro mem
      obtain ⟨⟨_, has, -⟩, -⟩ := valid.queued _ mem
      rw [ScopeTree.kind, ScopeTree.node_outside .refl] at has
      cases has
    refine ⟨marked.enqueue ?_ code body new ?_, ?_, ?_⟩
    · exact (ScopeTree.modifyNode_proj ScopeNode.kind (by rfl) _).trans
        (ScopeTree.kind_grown_new lies)
    · intro child up
      have younger := marked.shaped.parents child _ up
      have bound := ScopeTree.lt_of_parent up
      simp only [Session.withTree, ScopeTree.length_modifyNode, Session.grown,
        ScopeTree.length_grown] at bound
      exact Nat.lt_irrefl _ (Nat.lt_of_lt_of_le bound younger)
    · exact { widened with
        toExtends := widened.toExtends.trans (.congr rfl rfl rfl rfl List.prefix_rfl (.of_eq rfl))
        bodies := ⟨[s.tree.size], rfl, fun id mem =>
          Nat.le_of_eq (List.mem_singleton.mp mem).symm⟩ }
    intro id e' young has _ _
    obtain ⟨rfl, -⟩ := kind id e' young has
    exact List.mem_append_right _ (List.mem_singleton.mpr rfl)
  rename_i missing
  refine ⟨marked, widened, ?_⟩
  intro id e' young has code body
  obtain ⟨-, rfl⟩ := kind id e' young has
  exact absurd (Bool.and_eq_true_iff.mpr ⟨code, body⟩) missing

theorem declares_declared (lies : parent < s.tree.size) (exported : Bool)
    (code : e.code.isSome) : (s.declared parent e exported).tree.Declares parent e.decl := by
  have tree : (s.declared parent e exported).tree =
      (s.tree.grown parent e.decl.name (.function e) e.decl.span).setExported
        s.tree.size exported := by
    unfold Session.declared
    split <;> rfl
  rw [tree]
  exact ⟨s.tree.size, e,
    (modifyNode_proj ScopeNode.parent (by rfl) _).trans (parent_grown_new lies),
    (modifyNode_proj ScopeNode.alive (by rfl) _).trans (alive_grown_new lies),
    (modifyNode_proj ScopeNode.kind (by rfl) _).trans (kind_grown_new lies),
    rfl, code⟩

end Session

variable {exported : Bool} {x : Stage []}

theorem declareCode_keeps {name : String} {params : List Ir.Ty} {result : Ir.Ty} :
    Keeps (some <$> build (Ir.Builder.declareFunction name params result exported)) x fun code y =>
      code = some x.session.builder.functions.length ∧ y.tree = x.tree ∧
        y.session.builder.functions = x.session.builder.functions ++
          [({ name, params, result, exported } : Ir.Function)] := by
  let declared : Ir.Function := { name, params, result, exported }
  let b : Ir.Builder := { x.session.builder with
    module.functions := x.session.builder.functions ++ [declared] }
  have extended : x.session.Extends [] (x.session.withBuilder b) := by
    refine .recoded ?_ prefix_rfl (fun orderly => orderly.congr rfl rfl rfl) rfl
    intro i f got
    refine ⟨f, ?_, rfl, rfl, rfl⟩
    exact (getElem?_append_left (List.getElem?_eq_some_iff.mp got).1).trans got
  have valid : (x.session.withBuilder b).Valid := by
    refine x.valid.withBuilder extended ?_ x.valid.late
    intro i f got other
    rcases Nat.lt_or_ge i x.session.builder.functions.length with old | new
    · have before := (getElem?_append_left old).symm.trans got
      exact (x.valid.finished i f before other).imp_right fun h => h.mono extended.context
    have last := (getElem?_append_right new).symm.trans got
    have single := mem_singleton.mp (mem_of_getElem? last)
    exact .inl (by rw [single])
  exact .map (.build rfl valid
    (.withBuilder extended ⟨[declared], rfl, by simp [declared]⟩ ⟨rfl, rfl, rfl⟩) ⟨rfl, rfl, rfl⟩)

theorem declareScope_keeps {e : FunctionEntry} (outer : (x.tree.kind parent).isBody = false)
    (admits : (x.tree.kind parent).admits (.function e))
    (accounts : x.tree.findChild? parent e.decl.name = none →
      x.session.Extends [] (x.session.grown parent e.decl.name (.function e) e.decl.span) →
      (x.session.grown parent e.decl.name (.function e) e.decl.span).Accounts x.tree.size
        (.function e))
    (codes : ∀ c, e.code = some c → ∀ id e', x.tree.kind id = .function e' → e'.code ≠ some c) :
    Keeps (do
      let node ← addChild parent e.decl.name (.function e) e.decl.span
      modifyTree (·.setExported node exported)
      if e.code.isSome && e.decl.body.isSome then
        modify fun s => { s with bodies := s.bodies ++ [node] }) x fun _ y =>
      e.code.isSome → y.tree.Declares parent e.decl := by
  by_cases taken : (x.tree.findChild? parent e.decl.name).isSome
  · have run : addChild parent e.decl.name (.function e) e.decl.span x.session =
        .error ((Problem.duplicate e.decl.name).at e.decl.span) x.session := by
      rw [addChild_run, if_pos taken]
    refine .bind (m := fun _ _ => False) ?_ fun _ _ _ h => h.elim
    unfold Keeps Leads
    rw [show session x = x.session from rfl, run]
    exact stopped x _ rfl
  have free := Option.not_isSome_iff_eq_none.mp taken
  obtain ⟨valid, grows⟩ := x.valid.declared exported outer admits free (accounts free) codes
  have run : addChild parent e.decl.name (.function e) e.decl.span x.session =
      .ok x.tree.size (x.session.grown parent e.decl.name (.function e) e.decl.span) := by
    rw [addChild_run, if_neg taken]
  refine .step (a := ()) (y := ⟨_, valid⟩) ?_ grows
    (Session.declares_declared (lt_of_not_body outer) exported)
  change EStateM.bind _ _ x.session = _
  rw [EStateM.bind, run]
  unfold Session.declared
  dsimp only
  split <;> rfl

theorem named_grown {s : Session} {e : FunctionEntry} (outer : (s.tree.kind parent).isOuter)
    (codeName : e.codeName = s.tree.qualify parent e.decl.name)
    (extended : s.Extends [] (s.grown parent e.decl.name (.function e) e.decl.span)) :
    ∀ p, (s.grown parent e.decl.name (.function e) e.decl.span).tree.parent? s.tree.size =
        some p →
      (s.grown parent e.decl.name (.function e) e.decl.span).tree.name s.tree.size =
          e.decl.name ∧
        e.codeName = (s.grown parent e.decl.name (.function e) e.decl.span).tree.qualify p
          e.decl.name := by
  have lies := lt_of_outer outer
  intro p up
  cases (parent_grown_new lies).symm.trans up
  refine ⟨name_grown_new lies, codeName.trans ?_⟩
  exact (extended.tree.qualify lies _).symm

theorem receives_of_refined {t : ScopeTree} {s : Session} {id : ScopeId} {hasSelf : Bool}
    (refined : (t.kind parent).Refined (s.tree.kind parent))
    (up : s.tree.parent? id = some parent)
    (receiving : ¬(hasSelf && (if hasSelf = true then t.receiverType? parent else none).isNone)
     )
    (coded : ¬(s.tree.kind parent).spec?.isSome) :
    s.Receives id hasSelf (Option.map (fun type => Ir.Ty.pointer type.ir)
      (if hasSelf = true then t.receiverType? parent else none)).toList := by
  cases hasSelf with
  | false => rfl
  | true =>
  cases kind : t.kind parent with
  | template =>
    rw [kind] at refined
    obtain ⟨e', kind', -, struct, -⟩ := refined.template_eq
    refine ⟨parent, e', up, kind', ?_⟩
    rw [receiverType?, kind, struct]
    rfl
  | spec =>
    rw [kind] at refined
    cases h : s.tree.kind parent <;> rw [h] at refined coded <;> cases refined
    exact absurd rfl coded
  | _ =>
    rw [receiverType?, kind] at receiving
    exact absurd rfl receiving

namespace Resolver

theorem declareFunction_keeps (sound : r.Sound) {decl : FuncDecl}
    (place : (x.tree.kind parent).isOuter) :
    Keeps (r.declareFunction parent decl exported) x fun _ y =>
      (x.tree.kind parent).spec? = none → y.tree.Declares parent decl := by
  refine .tree_bind (.check rfl fun _ => Keeps.check rfl fun receiving => ?_)
  refine .bind (types_keeps sound parent (decl.params.map Param.type) x) ?_
  intro params y fst known
  refine .bind (resultType_keeps sound parent decl.result y) ?_
  intro result z snd resultKnown
  refine .tree_bind ?_
  have way := trans fst snd
  have lies := lt_of_outer place
  have place' : (z.tree.kind parent).isOuter :=
    (way.tree.kind parent lies).isOuter.trans place
  have known' : ∀ type ∈ params, type.Known z.tree :=
    fun type mem => Stage.known snd (known type mem)
  split
  · rename_i isSpec
    refine .bind (m := fun code y => code = none ∧ y.tree = z.tree) (Keeps.pure ⟨rfl, rfl⟩) ?_
    rintro _ w same ⟨rfl, tree⟩
    have placed : (w.tree.kind parent).isOuter :=
      (same.tree.kind parent (lt_of_outer place')).isOuter.trans place'
    refine (declareScope_keeps (e := {
        decl, signature := ⟨params, result, decl.hasSelf⟩, code := none
        codeName := z.tree.qualify parent decl.name })
      (isBody_of_isOuter placed) placed ?_ (fun c code => by cases code)).mono ?_
    · intro _ extended
      exact ⟨fun type mem => (Stage.known same (known' type mem)).mono extended.tree,
        (Stage.known same resultKnown).mono extended.tree, rfl,
        named_grown placed (congrArg (fun t : ScopeTree => t.qualify parent decl.name) tree.symm)
          extended, fun c code => by cases code⟩
    intro _ _ _ _ plain
    have none : (z.tree.kind parent).spec? = none :=
      (way.tree.kind parent lies).spec.trans plain
    rw [show (session z).tree = z.tree from rfl, none] at isSpec
    cases isSpec
  rename_i coded
  refine .bind declareCode_keeps ?_
  rintro _ w declared ⟨rfl, tree, functions⟩
  have placed : (w.tree.kind parent).isOuter := by rw [tree]; exact place'
  have inside' := lt_of_outer placed
  refine (declareScope_keeps (e := {
      decl, signature := ⟨params, result, decl.hasSelf⟩
      code := some z.session.builder.functions.length
      codeName := z.tree.qualify parent decl.name })
    (isBody_of_isOuter placed) placed ?_ ?_).mono fun _ _ _ declares _ => declares rfl
  · intro _ extended
    refine ⟨fun type mem => (Stage.known declared (known' type mem)).mono extended.tree,
      (Stage.known declared resultKnown).mono extended.tree, rfl,
      named_grown placed (congrArg (fun t : ScopeTree => t.qualify parent decl.name) tree.symm)
        extended, fun c code => ?_⟩
    cases code
    refine ⟨_, _, (congrArg (·[_]?) functions).trans getElem?_concat_length, rfl, rfl, rfl,
      receives_of_refined ?_ (parent_grown_new inside') receiving ?_⟩
    · exact (trans way declared).tree.kind parent lies |>.trans (extended.tree.kind parent inside')
    rw [show (w.session.grown _ _ _ _).tree.kind parent = w.tree.kind parent from
      kind_grown_old inside', tree]
    exact coded
  intro c code id e' kind code'
  have accounts := z.valid.accounts id
  rw [tree] at kind
  rw [kind] at accounts
  obtain ⟨f, receiver, got, -⟩ := accounts.2.2.2.2 c code'
  have bound := (List.getElem?_eq_some_iff.mp got).1
  cases code
  exact absurd bound (Nat.lt_irrefl _)

theorem declareFunctions_keeps (sound : r.Sound) (decls : List FuncDecl) :
    ∀ x : Stage [], (x.tree.kind parent).isOuter →
      Keeps (r.declareFunctions parent exported decls) x fun _ y =>
        (x.tree.kind parent).spec? = none → y.session.report.entries = [] →
          ∀ decl ∈ decls, y.tree.Declares parent decl := by
  induction decls with
  | nil => exact fun x _ => Keeps.pure nofun
  | cons decl decls ih =>
  intro x place
  refine .bind (declareFunction_keeps sound place).reporting ?_
  intro _ y way fst
  have lies := lt_of_outer place
  refine (ih y ((way.tree.kind parent lies).isOuter.trans place)).mono ?_
  intro _ z more rest plain clean decl' mem
  rcases mem_cons.mp mem with rfl | later
  · obtain ⟨_, -, declares⟩ := fst (more.clean clean)
    exact (declares plain).mono more.tree
  · exact rest ((way.tree.kind parent lies).spec.trans plain) clean decl' later

theorem declareSpec_keeps (sound : r.Sound) {spec : ScopeId} : Keeps (r.declareSpec spec) x := by
  refine .get_bind ?_
  split
  · rename_i decl kind
    split
    · exact .pure trivial
    have valid : ({ x.session with
        declaredSpecs := spec :: x.session.declaredSpecs } : Session).Valid :=
      x.valid.congr rfl rfl (.refl _) x.valid.instances x.valid.regular
    refine .bind (m := fun _ y => y.session.tree = x.session.tree) ?_ ?_
    · exact .step (a := ()) (y := ⟨_, valid⟩) rfl
        (.congr rfl rfl rfl rfl prefix_rfl (.of_eq rfl) rfl) rfl
    intro _ y _ tree
    refine (declareFunctions_keeps sound decl.methods y ?_).mono fun _ _ _ _ => trivial
    rw [Stage.tree, tree]
    exact (congrArg isOuter kind).trans rfl
  · exact .pure trivial

variable {template : ScopeId}

theorem declareFields_keeps (sound : r.Sound) (fields : List FieldDecl) :
    ∀ x : Stage [template], (x.tree.kind template).template?.isSome →
      x.tree.isAlive template → x.session.Unformed template →
      Keeps (r.declareFields template fields) x fun layout y => ∃ added,
        y.tree.fields template = x.tree.fields template ++ added ∧
          layout = added.map (·.2.type.ir) := by
  induction fields with
  | nil => exact fun x _ _ _ => Keeps.pure ⟨[], by simp, rfl⟩
  | cons field fields ih =>
  intro x isTemplate alive unformed
  refine .bind (type_keeps sound template field.type ⟨x.session, x.valid⟩).spare ?_
  rintro type y _ ⟨steady, known⟩
  have lies := lt_of_outer (isOuter_of_template isTemplate)
  have isTemplate' := steady.tree.template lies isTemplate
  have alive' := (steady.tree.alive template lies).trans alive
  have same := (steady.tree.fields template lies isTemplate).2 nofun
  have unformed' := unformed.mono steady.tree lies fun plain e kind =>
    steady.undefined plain template e nofun kind alive
  refine .bind (requireStorable_keeps type y) ?_
  rintro _ _ _ ⟨rfl, storable⟩
  refine .bind (.addChild (isBody_of_isOuter (isOuter_of_template isTemplate')) isTemplate' nofun
    (.inr (.inr ⟨by simp, unformed'⟩))
    (fun _ => ⟨nofun, nofun⟩) (fun _ extended => ⟨⟨known.mono extended.tree, storable⟩, nofun⟩)
    (fun _ => alive') nofun) ?_
  rintro _ w further ⟨rfl, added⟩
  have inside' := Nat.lt_of_lt_of_le lies steady.tree.length
  have isTemplate'' : (w.tree.kind template).template?.isSome := by
    rw [Stage.tree, added]
    exact (congrArg (·.template?.isSome) (kind_grown_old inside')).trans isTemplate'
  have alive'' : w.tree.isAlive template := by
    rw [Stage.tree, added]
    exact (alive_grown_old inside').trans alive'
  have unformed'' : w.session.Unformed template :=
    unformed'.mono further.tree inside' fun _ _ _ defined => by rwa [added] at defined
  refine .bind (ih w isTemplate'' alive'' unformed'') ?_
  rintro _ v _ ⟨more, whole, rfl⟩
  refine .pure ⟨(y.tree.size, ⟨type, .field, false⟩) :: more, ?_, rfl⟩
  have grown : w.tree.fields template =
      x.tree.fields template ++ [(y.tree.size, ⟨type, .field, false⟩)] := by
    rw [Stage.tree, added]
    refine (fields_grown_parent y.valid.shaped inside').trans ?_
    exact congrArg (· ++ _) same
  rw [whole, grown, append_assoc, singleton_append]

theorem defineStruct_keeps {x : Stage [template]} {e : TemplateEntry}
    {layout : List Ir.Ty} (kind : x.tree.kind template = .template e)
    (alive : x.tree.isAlive template)
    (fields : layout = (x.tree.fields template).map (·.2.type.ir)) :
    Keeps (build (defineStruct e.structName layout)) x fun _ y =>
      y.tree = x.tree ∧ y.session.Embodied template := by
  have others : x.tree.Plain → ∀ id e' body, id ∉ [template] → x.tree.kind id = .template e' →
      x.tree.isAlive id →
        ((x.session.builder.withFields e.structName layout).module.HasBody e'.structName body ↔
          x.session.builder.module.HasBody e'.structName body) := by
    intro plain id e' body other kind' alive'
    refine hasBody_withFields_other fun same => other (mem_singleton.mpr ?_)
    exact x.valid.structName_injective plain kind' kind alive' alive same
  have has := hasBody_withFields_same x.session.builder e.structName layout
  have here : (x.session.withBuilder (x.session.builder.withFields e.structName layout)).Embodied
      template := by
    constructor
    · intro e' body kind' _ has'
      obtain rfl := inj (kind.symm.trans kind')
      exact (has'.unique has).trans fields
    intro e' kind'
    obtain rfl := inj (kind.symm.trans kind')
    exact ⟨layout, has⟩
  obtain ⟨valid, grows⟩ := x.valid.restructured (orderly_withFields · e.structName layout)
    others (fun _ mem _ => mem_singleton.mp mem ▸ here.1) (withFields_eq ..)
    fun _ => defines_withFields
  exact .build (a := ()) (defineStruct_run ..) valid grows ⟨rfl, here⟩

theorem defineTemplate_keeps (sound : r.Sound)
    {x : Stage [template]} {e0 : TemplateEntry} (kind0 : x.tree.kind template = .template e0)
    (alive : x.tree.isAlive template) (bare : x.tree.fields template = [])
    (unformed : x.session.Unformed template) :
    Keeps (r.defineTemplate template e0.decl exported) x fun _ y =>
      (x.tree.Plain → y.session.Embodied template) ∧
        (y.session.report.entries = [] → y.session.Furnished template) := by
  have isTemplate : (x.tree.kind template).template?.isSome := by
    rw [kind0]
    rfl
  refine .bind (declareFields_keeps sound e0.decl.fields x isTemplate alive unformed) ?_
  rintro _ y fst ⟨_, whole, rfl⟩
  refine .tree_bind ?_
  have lies := lt_of_outer (isOuter_of_template isTemplate)
  have alive' := (fst.tree.alive template lies).trans alive
  have isTemplate' := fst.tree.template lies isTemplate
  cases kind : y.tree.kind template with
  | template e =>
    dsimp only
    split
    · exact .fail_bind rfl
    refine .bind (defineStruct_keeps kind alive' ?_) ?_
    · rw [whole, bare, nil_append]
    rintro _ z snd ⟨tree, embodied⟩
    have kind' : z.tree.kind template = .template e := by rw [tree, kind]
    have place : (z.tree.kind template).isOuter := by rw [kind']; rfl
    refine (declareFunctions_keeps sound e0.decl.methods ⟨z.session, z.valid⟩ place).spare.mono ?_
    rintro _ w _ ⟨steady, declares⟩
    refine ⟨fun plain => ?_, fun clean => ?_⟩
    · exact embodied.mono steady.toExtends (snd.plain (fst.plain plain)) (lt_of_template kind')
    intro _ kind'' _ _
    obtain ⟨_, entry, decl, -⟩ :=
      (fst.trans (snd.trans (steady.spare nofun))).tree.of_kind_template lies kind''
    obtain rfl := inj (kind0.symm.trans entry)
    obtain ⟨_, entry', -, struct, -⟩ :=
      steady.tree.of_kind_template (lt_of_template kind') kind''
    obtain rfl := inj (kind'.symm.trans entry')
    refine ⟨struct ▸ steady.structs _ (embodied.2 e kind'), fun method mem => ?_⟩
    exact declares (congrArg spec? kind') clean method (decl ▸ mem)
  | _ =>
    rw [kind] at isTemplate'
    cases isTemplate'

end Resolver

end Stencil
