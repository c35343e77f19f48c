import Stencil.Proofs.Program.Bodies

namespace Stencil

open Analysis Tracked ScopeTree List ScopeKind

mutual

def Item.Plain : Item → Prop
  | .decl (.template d) _ _ => PlainName d.name
  | .decl _ _ _ => True
  | .package name items _ _ _ => PlainName name ∧ Item.AllPlain items

def Item.AllPlain : List Item → Prop
  | [] => True
  | item :: items => item.Plain ∧ Item.AllPlain items

end

mutual

instance Item.decidablePlain : (item : Item) → Decidable item.Plain
  | .decl (.template d) _ _ => inferInstanceAs (Decidable (PlainName d.name))
  | .decl (.func _) _ _ | .decl (.typeAlias _) _ _ | .decl (.spec _) _ _ | .decl (.action _) _ _
  | .decl (.const _) _ _ => inferInstanceAs (Decidable True)
  | .package name items _ _ _ =>
    have := Item.decidableAllPlain items
    inferInstanceAs (Decidable (PlainName name ∧ Item.AllPlain items))

instance Item.decidableAllPlain : (items : List Item) → Decidable (Item.AllPlain items)
  | [] => inferInstanceAs (Decidable True)
  | item :: items =>
    have := item.decidablePlain
    have := Item.decidableAllPlain items
    inferInstanceAs (Decidable (item.Plain ∧ Item.AllPlain items))

end

/-- A declaration of an item, and the names of the packages around it. -/
inductive Item.Has : Item → List String → Decl → Prop where
  | here {decl : Decl} {exported : Bool} {span : Span} : (Item.decl decl exported span).Has [] decl
  | inside {name : String} {items : List Item} {declSpan : Span} {exported : Bool} {span : Span}
      {item : Item} {path : List String} {decl : Decl} (mem : item ∈ items)
      (has : item.Has path decl) :
      (Item.package name items declSpan exported span).Has (name :: path) decl

def Module.Has (m : Module) (path : List String) (decl : Decl) : Prop :=
  ∃ item ∈ m.items, item.Has path decl

structure ScopeTree.Houses (t : ScopeTree) (parent : ScopeId) (e : TemplateEntry) (node : ScopeId) :
    Prop where
  around : t.parent? node = some parent
  name : t.name node = e.decl.name
  kind : t.kind node = .template e
  original : e.instanceOf = none
  alive : t.isAlive node

theorem ScopeTree.Houses.mono {t t' : ScopeTree} {spared : List ScopeId} {parent node : ScopeId}
    {e : TemplateEntry} (houses : t.Houses parent e node) (h : t.Extends spared t') :
    ∃ e', e'.decl = e.decl ∧ t'.Houses parent e' node := by
  have lies := lt_of_alive houses.alive
  obtain ⟨e', kind, decl, -, instanceOf⟩ := h.kind_template houses.kind
  exact ⟨e', decl, (h.parent node lies).trans houses.around,
    (h.name node lies).trans (decl ▸ houses.name), kind, instanceOf.trans houses.original,
    (h.alive node lies).trans houses.alive⟩

structure DeclRecord.Placed (d : DeclRecord) (t : ScopeTree) : Prop where
  parent : (t.kind d.parent).isNamespace
  alive : t.isAlive d.parent
  inside : ∀ node, d.node = some node → node < t.size
  template : ∀ decl, d.decl = .template decl →
    ∃ node e, d.node = some node ∧ e.decl = decl ∧ t.Houses d.parent e node

variable {d : DeclRecord}

theorem DeclRecord.Placed.mono {t t' : ScopeTree} {spared : List ScopeId}
    (placed : d.Placed t) (h : t.Extends spared t') : d.Placed t' where
  parent := (h.kind d.parent (lt_of_alive placed.alive)).isNamespace.trans placed.parent
  alive := (h.alive d.parent (lt_of_alive placed.alive)).trans placed.alive
  inside node has := Nat.lt_of_lt_of_le (placed.inside node has) h.length
  template decl is := by
    obtain ⟨node, e, has, same, houses⟩ := placed.template decl is
    obtain ⟨e', decl, houses'⟩ := houses.mono h
    exact ⟨node, e', has, decl.trans same, houses'⟩

variable {plainly : Prop}

namespace Session

structure Entered (plainly : Prop) (s : Session) : Prop where
  valid : s.Valid
  idle : s.Idle
  current : s.tree.current = root
  functions : ∀ id e, s.tree.kind id ≠ .function e
  bare : ∀ id, s.tree.fields id = []
  plain : plainly → s.tree.Plain
  records : ∀ d ∈ s.decls, d.Placed s.tree
  distinct : (s.decls.filterMap (·.node)).Nodup
  original : ∀ id e, s.tree.kind id = .template e → e.instanceOf = none
  alive : ∀ id, id < s.tree.size → s.tree.isAlive id
  enlisted : ∀ d ∈ s.decls, ∀ a, d.decl = .action a → ⟨a, d.parent, false⟩ ∈ s.actions
  unapplied : ∀ p ∈ s.actions, p.applied = false
  orderly : s.builder.Orderly
  blank : ∀ name, ¬s.builder.module.Defines name

structure Enters (s s' : Session) : Prop where
  tree : s.tree.Extends [] s'.tree
  records : ∀ d ∈ s'.decls, d ∈ s.decls ∨ ∀ node, d.node = some node → s.tree.size ≤ node
  decls : s.decls ⊆ s'.decls
  actions : s.actions ⊆ s'.actions
  report : s.report.entries <+: s'.report.entries

theorem Enters.refl (s : Session) : s.Enters s :=
  ⟨.refl [] s.tree, fun _ mem => .inl mem, List.Subset.refl _, List.Subset.refl _, prefix_rfl⟩

theorem Enters.trans {s s' s'' : Session} (fst : s.Enters s') (snd : s'.Enters s'') :
    s.Enters s'' where
  tree := fst.tree.trans snd.tree
  records d mem := by
    rcases snd.records d mem with old | young
    · exact fst.records d old
    · exact .inr fun node has => Nat.le_trans fst.tree.length (young node has)
  decls := List.Subset.trans fst.decls snd.decls
  actions := List.Subset.trans fst.actions snd.actions
  report := fst.report.trans snd.report

def Records (s : Session) (path : List String) (decl : Decl) : Prop :=
  ∃ d ∈ s.decls, d.decl = decl ∧ s.tree.path d.parent = path

theorem Records.mono {s s' : Session} {path : List String} {decl : Decl}
    (records : s.Records path decl) (before : s.Entered plainly) (enters : s.Enters s') :
    s'.Records path decl := by
  obtain ⟨d, mem, is, place⟩ := records
  have lies := lt_of_alive (before.records d mem).alive
  exact ⟨d, enters.decls mem, is, (enters.tree.path lies).trans place⟩

end Session

structure Listing (plainly : Prop) where
  session : Session
  entered : session.Entered plainly

abbrev Listing.tree {plainly : Prop} (x : Listing plainly) : ScopeTree := x.session.tree

instance {plainly : Prop} : Tracked (Listing plainly) where
  session x := x.session
  later x y := x.session.Enters y.session
  failed x d s := d.Regular ∧ s.Entered plainly ∧ x.session.Enters s
  refl x := .refl x.session
  trans fst snd := fst.trans snd
  carried := by
    rintro x y d s way ⟨regular, entered, more⟩
    exact ⟨regular, entered, way.trans more⟩
  stopped x _ ordinary := ⟨ordinary.regular, x.entered, .refl x.session⟩

namespace Session

variable {s s' : Session} {parent : ScopeId} {name : String} {kind : ScopeKind} {span : Span}

variable (entered : s.Entered plainly)
include entered

theorem Entered.congr (valid : s'.Valid) (tree : s'.tree = s.tree) (decls : s'.decls = s.decls)
    (function : s'.builder.function = s.builder.function) (actions : s.actions ⊆ s'.actions)
    (unapplied : ∀ p ∈ s'.actions, p.applied = false) (orderly : s'.builder.Orderly)
    (blank : ∀ name, ¬s'.builder.module.Defines name)
    (report : s.report.entries <+: s'.report.entries) :
    s'.Entered plainly ∧ s.Enters s' := by
  obtain ⟨t, b, _, _, _, ds, _⟩ := s'
  obtain rfl : t = s.tree := tree
  obtain rfl : ds = s.decls := decls
  exact ⟨{ entered with
    valid := valid, idle := function.trans entered.idle, unapplied := unapplied
    enlisted := fun d mem a is => actions (entered.enlisted d mem a is)
    orderly := orderly, blank := blank },
    { Enters.refl s with actions := actions, report := report }⟩

theorem Entered.reported {d : Diagnostic} (regular : d.Regular) :
    ({ s with report := s.report.push d } : Session).Entered plainly ∧
      s.Enters { s with report := s.report.push d } :=
  entered.congr (entered.valid.reported [] regular).1 rfl rfl rfl (.refl _)
    entered.unapplied entered.orderly entered.blank (prefix_append _ _)

theorem Entered.exported (id : ScopeId) (exported : Bool) :
    (s.withTree (s.tree.setExported id exported)).Entered plainly ∧
      s.Enters (s.withTree (s.tree.setExported id exported)) := by
  have adjusts := adjusts_exported s.tree id exported
  obtain ⟨valid, grows⟩ := entered.valid.adjusted [] adjusts (entered.valid.accounts id)
  refine ⟨⟨valid, entered.idle, grows.current.trans entered.current, ?_, ?_,
    fun named => grows.plain (entered.plain named), ?_, entered.distinct, ?_, ?_, entered.enlisted,
    entered.unapplied, entered.orderly, entered.blank⟩, grows.tree, fun _ mem => .inl mem,
    List.Subset.refl _, List.Subset.refl _, prefix_rfl⟩
  · intro i e has
    exact entered.functions i e (function_of_refined (adjusts.refined i) has)
  · intro i
    rw [← entered.bare i]
    exact fields_congr (modifyNode_proj ScopeNode.order adjusts.order i)
      fun child _ => (adjusts.refined child).var
  · exact fun d mem => (entered.records d mem).mono grows.tree
  · intro i e has
    have refined := adjusts.refined i
    rw [show (s.tree.modifyNode id _).kind i = _ from has] at refined
    obtain ⟨e0, before, -, -, instanceOf⟩ := refined.of_template
    exact instanceOf.trans (entered.original i e0 before)
  intro i lies
  have inside' := Nat.lt_of_lt_of_eq lies (length_modify ..)
  exact (grows.tree.alive i inside').trans (entered.alive i inside')

theorem Entered.grown (span : Span) (outer : (s.tree.kind parent).isBody = false)
    (free : s.tree.findChild? parent name = none)
    (admits : (s.tree.kind parent).admits kind) (noVar : kind.var? = none)
    (noFunction : ∀ e, kind ≠ .function e)
    (named : plainly → (kind = .package → PlainName name) ∧
      ∀ e, kind = .template e → PlainName e.decl.name)
    (original : ∀ e, kind = .template e → e.instanceOf = none)
    (accounts : (s.grown parent name kind span).Accounts s.tree.size kind) :
    (s.grown parent name kind span).Entered plainly ∧ s.Enters (s.grown parent name kind span) := by
  have lies := lt_of_not_body outer
  have tree : s.tree.Extends [] (s.tree.grown parent name kind span) :=
    entered.valid.shaped.extends_grown lies (.inl noVar)
  have included : s.Includes [] (s.grown parent name kind span) :=
    ⟨tree, fun _ f got => ⟨f, got, rfl, rfl, rfl⟩, prefix_rfl⟩
  have valid := entered.valid.grown lies free admits included accounts
    (fun e _ function => absurd function (noFunction e)) (by rw [noVar]; nofun)
    (not_queued entered.valid outer)
  refine ⟨⟨valid, entered.idle, entered.current, ?_, ?_, ?_, ?_, entered.distinct, ?_, ?_,
    entered.enlisted, entered.unapplied, entered.orderly, entered.blank⟩, tree,
    fun _ mem => .inl mem, List.Subset.refl _, List.Subset.refl _, prefix_rfl⟩
  · intro id e has
    rcases kind_grown_cases lies has nofun with ⟨-, old⟩ | ⟨-, new⟩
    · exact entered.functions id e old
    · exact noFunction e new
  · intro id
    by_cases old : id < s.tree.size
    · by_cases same : id = parent
      · subst same
        change (s.tree.grown id name kind span).fields id = []
        rw [fields_grown_parent entered.valid.shaped lies, noVar, entered.bare id]
        rfl
      · exact (fields_grown_other entered.valid.shaped old same).trans (entered.bare id)
    · exact fields_grown_young lies (Nat.le_of_not_lt old)
  · exact fun given => plain_grown (entered.plain given) lies (named given)
  · exact fun d mem => (entered.records d mem).mono tree
  · intro id e has
    rcases kind_grown_cases lies has nofun with ⟨-, old⟩ | ⟨-, new⟩
    · exact entered.original id e old
    · exact original e new
  intro id within
  by_cases old : id < s.tree.size
  · exact (tree.alive id old).trans (entered.alive id old)
  have last : id = s.tree.size := Nat.le_antisymm (Nat.le_of_lt_succ
    (Nat.lt_of_lt_of_eq within length_grown)) (Nat.le_of_not_lt old)
  rw [last]
  exact alive_grown_new lies

theorem Entered.recorded (placed : d.Placed s.tree)
    (fresh : ∀ node, d.node = some node → ∀ d' ∈ s.decls, d'.node ≠ some node)
    (enlisted : ∀ a, d.decl = .action a → ⟨a, d.parent, false⟩ ∈ s.actions) :
    ({ s with decls := s.decls ++ [d] } : Session).Entered plainly := by
  refine ⟨entered.valid.congr rfl rfl (.refl _) entered.valid.instances entered.valid.regular,
    entered.idle, entered.current, entered.functions, entered.bare, entered.plain, ?_, ?_,
    entered.original, entered.alive, ?_, entered.unapplied, entered.orderly, entered.blank⟩
  · exact forall_mem_append.mpr ⟨entered.records, forall_mem_singleton.mpr placed⟩
  · change ((s.decls ++ [d]).filterMap (·.node)).Nodup
    rw [filterMap_append, nodup_append]
    refine ⟨entered.distinct, ?_, ?_⟩
    · cases has : d.node <;> simp [has]
    intro _ old node' new same
    obtain ⟨d', mem, has⟩ := mem_filterMap.mp old
    obtain ⟨_, new, has'⟩ := mem_filterMap.mp new
    rw [mem_singleton.mp new] at has'
    exact fresh node' has' d' mem (same ▸ has)
  exact forall_mem_append.mpr ⟨entered.enlisted, forall_mem_singleton.mpr enlisted⟩

end Session

section

variable {x : Listing plainly} {parent : ScopeId} {name : String} {kind : ScopeKind} {span : Span}

theorem Listing.reporting {α : Type} {step : Analysis α} {post : α → Listing plainly → Prop}
    (inner : Keeps step x post) :
    Keeps (.reporting step) x fun result y =>
      (result = none → y.session.report.entries ≠ []) ∧ ∀ a, result = some a → post a y := by
  refine leads_reporting.mpr (.mono inner ?_ ?_)
  · rintro a s ⟨y, same, way, holds⟩
    exact ⟨y, same, way, nofun, fun _ got => Option.some.inj got ▸ holds⟩
  rintro d s ⟨regular, entered, enters⟩
  obtain ⟨reported, more⟩ := entered.reported regular
  exact ⟨⟨_, reported⟩, rfl, enters.trans more, fun _ => concat_ne_nil _ _, nofun⟩

structure Listing.Adds (x : Listing plainly) (id : ScopeId) (y : Listing plainly) : Prop where
  young : x.tree.size ≤ id
  inside : id < y.tree.size
  alive : y.tree.isAlive id
  fresh : ∀ d ∈ y.session.decls, d.node ≠ some id

theorem Listing.addChild (outer : (x.tree.kind parent).isBody = false)
    (admits : (x.tree.kind parent).admits kind) (noVar : kind.var? = none)
    (noFunction : ∀ e, kind ≠ .function e)
    (named : plainly → (kind = .package → PlainName name) ∧
      ∀ e, kind = .template e → PlainName e.decl.name)
    (original : ∀ e, kind = .template e → e.instanceOf = none)
    (accounts : x.tree.findChild? parent name = none →
      (x.session.grown parent name kind span).Accounts x.tree.size kind) :
    Keeps (.addChild parent name kind span) x fun id y =>
      x.Adds id y ∧ y.tree.kind id = kind ∧ y.tree.parent? id = some parent ∧
        y.tree.name id = name := by
  have lies := lt_of_not_body outer
  refine addChild_leads (fun free => ?_) (stopped x)
  obtain ⟨entered, enters⟩ := x.entered.grown span outer free admits noVar noFunction
    named original (accounts free)
  refine ⟨⟨_, entered⟩, rfl, enters, ⟨.refl, ?_, alive_grown_new lies, ?_⟩,
    kind_grown_new lies, parent_grown_new lies, name_grown_new lies⟩
  · exact Nat.lt_of_lt_of_eq (Nat.lt_succ_self _) length_grown.symm
  intro d mem has
  exact Nat.lt_irrefl _ ((x.entered.records d mem).inside _ has)

theorem Listing.Adds.mono {y z : Listing plainly} {id : ScopeId} (adds : x.Adds id y)
    (way : later y z) : x.Adds id z where
  young := adds.young
  inside := Nat.lt_of_lt_of_le adds.inside way.tree.length
  alive := (way.tree.alive id adds.inside).trans adds.alive
  fresh d mem has := by
    rcases way.records d mem with old | young
    · exact adds.fresh d old has
    · exact Nat.not_lt.mpr (young id has) adds.inside

theorem Listing.addAlias (d : AliasDecl) (outer : (x.tree.kind parent).isBody = false)
    (admits : (x.tree.kind parent).admits d.scopeKind) :
    Keeps (.addChild parent d.name d.scopeKind span) x fun id y => x.Adds id y := by
  exact Keeps.mono (Listing.addChild outer admits rfl nofun (fun _ => ⟨nofun, nofun⟩) nofun nofun)
    fun _ _ _ added => added.1

theorem registerAliases_keeps (ds : List AliasDecl) :
    ∀ {x : Listing plainly} {spec : ScopeId} {d : SpecDecl}, x.tree.kind spec = .spec d →
      Keeps (registerAliases spec ds) x := by
  induction ds with
  | nil => exact fun _ => Keeps.pure trivial
  | cons fst rest ih =>
  intro x spec d kind
  refine .bind (Listing.reporting (Listing.addAlias fst (by rw [kind]; rfl) (by rw [kind]; rfl))) ?_
  intro _ y way _
  have lies : spec < x.tree.size := lt_of_kind_ne_block (by simp [kind])
  have refined : (x.tree.kind spec).Refined _ := way.tree.kind spec lies
  rw [kind] at refined
  exact ih refined.spec_eq

theorem Listing.declareStruct (name : String) :
    Keeps (build (Ir.Builder.declareStruct name)) x fun _ y =>
      y.tree = x.tree := by
  obtain ⟨valid, grows⟩ := Resolver.valid_withStruct x.entered.valid [] name
  have blank : ∀ other, ¬(x.session.builder.withStruct name).module.Defines other := by
    rintro other ⟨body, has⟩
    exact x.entered.blank other ⟨body, Ir.Builder.hasBody_withStruct.mp has⟩
  obtain ⟨entered, enters⟩ := x.entered.congr valid rfl rfl grows.frame.1 (.refl _)
    x.entered.unapplied (grows.orderly x.entered.orderly) blank prefix_rfl
  exact .step (y := ⟨_, entered⟩) rfl enters rfl

/-- A template is named after the scope that it is in. -/
theorem Listing.addTemplate {e : TemplateEntry} (outer : (x.tree.kind parent).isNamespace)
    (qualified : e.structName = x.tree.qualify parent e.decl.name)
    (original : e.instanceOf = none)
    (named : plainly → PlainName e.decl.name) :
    Keeps (Analysis.addChild parent e.decl.name (.template e) span) x fun id y =>
      x.Adds id y ∧ y.tree.Houses parent e id := by
  have body := isBody_of_isOuter (isOuter_of_isNamespace outer)
  refine Keeps.mono (Listing.addChild body outer rfl nofun (fun given => ⟨nofun, ?_⟩) ?_ ?_)
    fun _ y _ ⟨adds, kind, up, name⟩ => ⟨adds, up, name, kind, original, adds.alive⟩
  · rintro _ ⟨⟩
    exact named given
  · rintro _ ⟨⟩
    exact original
  intro free p up
  have lies := lt_of_not_body body
  have tree : x.tree.Extends [] (x.tree.grown parent e.decl.name (.template e) span) :=
    x.entered.valid.shaped.extends_grown lies (.inl rfl)
  cases (parent_grown_new lies).symm.trans up
  rw [show Session.tree _ = x.tree.grown _ _ _ _ from rfl, name_grown_new lies, tree.qualify lies]
  exact ⟨qualified, .inl rfl⟩

structure Listing.Introduces (x : Listing plainly) (parent : ScopeId) (decl : Decl)
    (node : Option ScopeId) (y : Listing plainly) : Prop where
  adds : ∀ id, node = some id → x.Adds id y
  template : ∀ d, decl = .template d →
    ∃ id e, node = some id ∧ e.decl = d ∧ y.tree.Houses parent e id
  action : ∀ a, decl = .action a → ⟨a, parent, false⟩ ∈ y.session.actions

theorem registerDecl_keeps (span : Span) (decl : Decl)
    (outer : (x.tree.kind parent).isNamespace)
    (named : plainly → ∀ d, decl = .template d → PlainName d.name) :
    Keeps (registerDecl parent span decl) x fun node y => x.Introduces parent decl node y := by
  have body := isBody_of_isOuter (isOuter_of_isNamespace outer)
  cases decl with
  | template d =>
    have place : ∀ y, y.tree = x.tree → Keeps (some <$> addChild parent d.name
        (.template ⟨d, x.tree.qualify parent d.name, none, [], []⟩) span) y
          fun node z => x.Introduces parent (.template d) node z := by
      intro y same
      refine .map ((Listing.addTemplate (x := y) (e := ⟨d, _, none, [], []⟩)
        (by rw [same]; exact outer) (by rw [same]) rfl fun given => named given d rfl).mono ?_)
      rintro id z _ ⟨adds, houses⟩
      refine ⟨?_, ?_, nofun⟩
      · rintro _ ⟨⟩
        exact ⟨same ▸ adds.young, adds.inside, adds.alive, adds.fresh⟩
      rintro _ ⟨⟩
      exact ⟨id, _, rfl, rfl, houses⟩
    refine .tree_bind ?_
    split
    · exact .bind (Listing.declareStruct _) fun _ y _ same => place y same
    · exact place x rfl
  | typeAlias d =>
    refine .map ((Listing.addAlias d body ?_).mono ?_)
    · change (_ || _)
      rw [outer]
      rfl
    · exact fun _ y _ adds => ⟨fun _ same => Option.some.inj same ▸ adds, nofun, nofun⟩
  | spec d =>
    refine .bind (Listing.addChild body outer rfl nofun (fun _ => ⟨nofun, nofun⟩) nofun
      fun _ => trivial) ?_
    rintro _ y _ ⟨adds, kind, -⟩
    refine .bind (registerAliases_keeps d.aliases kind) ?_
    intro _ z more _
    exact .pure ⟨fun _ same => Option.some.inj same ▸ adds.mono more, nofun, nofun⟩
  | action d =>
    have valid : ({ x.session with
        actions := x.session.actions ++ [⟨d, parent, false⟩] } : Session).Valid :=
      x.entered.valid.congr rfl rfl (.refl _) x.entered.valid.instances x.entered.valid.regular
    have unapplied : ∀ p ∈ x.session.actions ++ [⟨d, parent, false⟩], p.applied = false := by
      intro p mem
      rcases mem_append.mp mem with old | new
      · exact x.entered.unapplied p old
      · rw [mem_singleton.mp new]
    obtain ⟨entered, enters⟩ := x.entered.congr valid rfl rfl rfl (subset_append_left _ _)
      unapplied x.entered.orderly x.entered.blank prefix_rfl
    refine .bind (m := fun _ y => ⟨d, parent, false⟩ ∈ y.session.actions)
      (Keeps.step (y := ⟨_, entered⟩) rfl enters (mem_append_right _ (mem_singleton_self _))) ?_
    refine fun _ _ _ has => Keeps.pure ⟨nofun, nofun, ?_⟩
    rintro _ ⟨⟩
    exact has
  | func d | const d => exact .pure ⟨nofun, nofun, nofun⟩

theorem Listing.setExported (id : ScopeId) (exported : Bool) :
    Keeps (modifyTree (·.setExported id exported)) x fun _ y =>
      y.session = x.session.withTree (x.tree.setExported id exported) := by
  obtain ⟨entered, enters⟩ := x.entered.exported id exported
  exact .step (y := ⟨_, entered⟩) rfl enters rfl

theorem Listing.record (placed : d.Placed x.tree)
    (fresh : ∀ node, d.node = some node → ∀ d' ∈ x.session.decls, d'.node ≠ some node)
    (enlisted : ∀ a, d.decl = .action a → ⟨a, d.parent, false⟩ ∈ x.session.actions)
    {before : Listing plainly} (way : later before x)
    (young : ∀ node, d.node = some node → before.session.tree.size ≤ node) :
    Leads (modify fun s => { s with decls := s.decls ++ [d] }) x.session
      (fun _ s => ∃ y : Listing plainly, y.session = s ∧ later before y ∧
        y.session.Records (x.tree.path d.parent) d.decl) (failed before) := by
  refine ⟨⟨_, x.entered.recorded placed fresh enlisted⟩, rfl, ⟨way.tree, ?_,
    List.Subset.trans way.decls (subset_append_left _ _), way.actions, way.report⟩,
    d, mem_append_right _ (mem_singleton_self _), rfl, rfl⟩
  exact forall_mem_append.mpr ⟨way.records, forall_mem_singleton.mpr (.inr young)⟩

end

mutual

theorem registerItem_keeps (parent : ScopeId) :
    ∀ item {x : Listing plainly}, (plainly → item.Plain) → (x.tree.kind parent).isNamespace →
      x.tree.isAlive parent → Keeps (registerItem parent item) x fun _ y =>
        y.session.report.entries = [] → ∀ path decl, item.Has path decl →
          y.session.Records (x.tree.path parent ++ path) decl
  | .decl decl exported span, x, named, outer, alive => by
    have lies := lt_of_alive alive
    have entered := registerDecl_keeps (x := x) span decl outer fun given d is => by
        subst is
        exact named given
    -- The record is of a scope that is new after `x`, not after the session with that scope.
    refine leads_bind.mpr (Leads.mono (Listing.reporting entered) ?_ fun _ _ h => h)
    rintro (_ | node) _ ⟨y, rfl, way, reported, added⟩
    · exact ⟨y, rfl, way, fun clean => absurd clean (reported rfl)⟩
    obtain ⟨adds, template, action⟩ := added node rfl
    have recorded : ∀ {z w : Listing plainly}, later x z →
        w.session.Records (z.tree.path parent) decl →
        w.session.report.entries = [] → ∀ path decl', (Item.decl decl exported span).Has path decl' →
          w.session.Records (x.tree.path parent ++ path) decl' := by
      rintro z w more records - _ _ ⟨⟩
      rw [append_nil, ← more.tree.path lies]
      exact records
    have parents : ∀ {z : Listing plainly}, later x z → (z.tree.kind parent).isNamespace ∧
          z.tree.isAlive parent := fun more =>
      ⟨(more.tree.kind parent lies).isNamespace.trans outer,
        (more.tree.alive parent lies).trans alive⟩
    cases node with
    | none =>
      have placed : (⟨decl, exported, span, parent, none⟩ : DeclRecord).Placed y.tree :=
        ⟨(parents way).1, (parents way).2, nofun, template⟩
      refine Leads.mono (Listing.record placed nofun action way nofun) ?_ fun _ _ h => h
      rintro _ s ⟨z, same, more, records⟩
      exact ⟨z, same, more, recorded way records⟩
    | some id =>
    have adds := adds id rfl
    refine leads_bind.mpr (Leads.mono (Listing.setExported id exported) ?_
      fun _ _ h => carried way h)
    rintro _ _ ⟨z, rfl, marked, -⟩
    have adds' := adds.mono marked
    obtain ⟨outer', alive'⟩ := parents (trans way marked)
    refine Leads.mono (Listing.record ⟨outer', alive', ?_, ?_⟩ ?_
      (fun a is => marked.actions (action a is)) (trans way marked) ?_) ?_ fun _ _ h => h
    · rintro _ ⟨⟩
      exact adds'.inside
    · intro d is
      obtain ⟨node, e, has, same, houses⟩ := template d is
      obtain ⟨e', decl', houses'⟩ := houses.mono marked.tree
      exact ⟨node, e', has, decl'.trans same, houses'⟩
    · rintro _ ⟨⟩
      exact adds'.fresh
    · rintro _ ⟨⟩
      exact adds'.young
    rintro _ s ⟨w, same, more, records⟩
    exact ⟨w, same, more, recorded (trans way marked) records⟩
  | .package name items _ exported span, x, named, outer, alive => by
    have body := isBody_of_isOuter (isOuter_of_isNamespace outer)
    refine .bind (Listing.reporting (Listing.addChild body outer rfl nofun
      (fun given => ⟨fun _ => (named given).1, nofun⟩) nofun fun _ => trivial)) ?_
    rintro (_ | node) y way ⟨reported, added⟩
    · exact .pure fun clean => absurd clean (reported rfl)
    obtain ⟨adds, kind, up, title⟩ := added node rfl
    refine .bind (Listing.setExported node exported) ?_
    intro _ z more _
    have isNamespace : (z.tree.kind node).isNamespace := by
      rw [(more.tree.kind node adds.inside).isNamespace]
      exact congrArg isNamespace kind
    have place : z.tree.path node = x.tree.path parent ++ [name] := by
      rw [more.tree.path adds.inside, y.entered.valid.shaped.path_child up, title,
        way.tree.path (lt_of_alive alive)]
    refine (registerItems_keeps node items (fun given => (named given).2) isNamespace
      (adds.mono more).alive).mono ?_
    rintro _ w _ records clean _ decl (_ | ⟨mem, has⟩)
    have recorded := records clean _ decl ⟨_, mem, has⟩
    rwa [place, append_assoc, singleton_append] at recorded

theorem registerItems_keeps (parent : ScopeId) :
    ∀ items {x : Listing plainly}, (plainly → Item.AllPlain items) →
      (x.tree.kind parent).isNamespace →
      x.tree.isAlive parent → Keeps (registerItems parent items) x fun _ y =>
        y.session.report.entries = [] → ∀ path decl, (∃ item ∈ items, item.Has path decl) →
          y.session.Records (x.tree.path parent ++ path) decl
  | [], _, _, _, _ => Keeps.pure fun _ _ _ ⟨_, mem, _⟩ => nomatch mem
  | item :: items, x, named, outer, alive => by
    refine .bind (registerItem_keeps parent item (fun given => (named given).1) outer alive) ?_
    intro _ y way fst
    have lies := lt_of_alive alive
    refine (registerItems_keeps parent items (fun given => (named given).2)
      ((way.tree.kind parent lies).isNamespace.trans outer)
      ((way.tree.alive parent lies).trans alive)).mono ?_
    rintro _ z more rest clean path decl ⟨item', mem, has⟩
    rcases mem_cons.mp mem with rfl | later
    · have before := prefix_nil.mp (clean ▸ more.report)
      exact (fst before path decl has).mono y.entered more
    rw [← way.tree.path lies]
    exact rest clean path decl ⟨item', later, has⟩

end

mutual

theorem registerItem_succeeds (parent : ScopeId) (item : Item) (s : Session) :
    Leads (registerItem parent item) s (fun _ _ => True) fun _ _ => False := by
  cases item with
  | decl =>
    refine leads_bind.mpr ((reporting_succeeds _).mono ?_ fun _ _ h => h)
    intro node _ _
    cases node with
    | none => trivial
    | some node => cases node <;> trivial
  | package name items =>
  refine leads_bind.mpr ((reporting_succeeds _).mono ?_ fun _ _ h => h)
  intro node _ _
  cases node with
  | none => trivial
  | some node => exact registerItems_succeeds node items _

theorem registerItems_succeeds (parent : ScopeId) (items : List Item) (s : Session) :
    Leads (registerItems parent items) s (fun _ _ => True) fun _ _ => False := by
  cases items with
  | nil =>
    trivial
  | cons item items =>
    refine leads_bind.mpr ((registerItem_succeeds parent item s).mono ?_ fun _ _ h => h)
    exact fun _ s' _ => registerItems_succeeds parent items s'

end

end Stencil
