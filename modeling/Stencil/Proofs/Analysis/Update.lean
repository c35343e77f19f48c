import Stencil.Proofs.Analysis.Valid

namespace Stencil.Session

open ScopeTree ScopeNode List Ir Ir.Module

variable {s s' : Session} {spared : List ScopeId} {id : ScopeId}

variable {t : ScopeTree}

def withTree (s : Session) (t : ScopeTree) : Session := { s with tree := t }

/-- New scopes have no fields yet, so nothing has to be laid out for them. -/
theorem Extends.withTree (tree : s.tree.Extends spared t) (plain : s.tree.Plain → t.Plain)
    (bare : ∀ id, s.tree.size ≤ id → t.fields id = [])
    (fresh : ∀ id e, id ∉ spared → t.kind id = .template e → id < s.tree.size)
    (frozen : s.tree.Plain → ∀ id e, s.tree.kind id = .template e → e.instanceOf = none →
      s.builder.module.Defines e.structName → t.fields id = s.tree.fields id) :
    s.Extends spared (s.withTree t) where
  __ := Extends.refl spared s
  tree := tree
  plain := plain
  laid _ _ id unspared laid := by
    intro e kind alive fields
    have lies : id < s.tree.size := by
      by_contra outside
      exact fields (bare id (Nat.le_of_not_lt outside))
    obtain ⟨e0, before, -, struct, -⟩ := tree.of_kind_template lies kind
    have same := (tree.fields id lies (by rw [before]; rfl)).2 unspared
    have laid_before := laid lies e0 before ((tree.alive id lies).symm.trans alive) (same ▸ fields)
    rw [struct]
    exact same ▸ laid_before
  formed plain id excuse before e body kind alive has := by
    have lies : id < s.tree.size := by
      by_cases mem : id ∈ spared
      · exact (excuse mem).lt
      · exact fresh id e mem kind
    obtain ⟨e0, kind0, -, struct, -⟩ := tree.of_kind_template lies kind
    rw [struct] at has
    have same : t.fields id = s.tree.fields id := by
      by_cases mem : id ∈ spared
      · obtain ⟨_, present, original⟩ := excuse mem
        exact frozen plain id _ present original
          (ScopeKind.template.inj (kind0.symm.trans present) ▸ ⟨body, has⟩)
      · exact (tree.fields id lies (by rw [kind0]; rfl)).2 mem
    change body = (t.fields id).map _
    rw [same]
    exact before lies e0 body kind0 ((tree.alive id lies).symm.trans alive) has
  registered id unspared registered := by
    intro e generic kind
    have lies := fresh id e unspared kind
    have later : (s.withTree t).Registered id := (registered lies).mono (.of_eq rfl) tree lies
    exact later e generic kind
  duties _ duty apart meets := meets.mono apart tree (fun _ defined => defined) rfl fresh

theorem Valid.withTree (valid : s.Valid) (extended : s.Includes spared (s.withTree t))
    (shaped : t.Shaped) (current : t.isAlive t.current)
    (accounts : ∀ id, (s.withTree t).Accounts id (t.kind id))
    (codes : ∀ id id' e e' c, t.kind id = .function e → t.kind id' = .function e' →
      e.code = some c → e'.code = some c → id = id')
    (fields : ∀ id, (t.kind id).template?.isSome → t.fields id ≠ [] → t.isAlive id)
    (childless : ∀ id ∈ s.bodies, ∀ child, t.parent? child ≠ some id) : (s.withTree t).Valid where
  __ := valid
  shaped := shaped
  current := current
  accounts := accounts
  codes := codes
  instances entry mem := (valid.instances entry mem).mono extended.tree
  fields := fields
  queued id mem := by
    obtain ⟨⟨e, kind, code, body⟩, -⟩ := valid.queued id mem
    have lies := lt_of_function kind
    have refined := extended.tree.kind id lies
    rw [kind] at refined
    exact ⟨⟨e, refined.function_eq, code, body⟩, childless id mem⟩
  finished i f got other :=
    (valid.finished i f got other).imp_right fun h => h.mono extended.context

theorem Valid.moved (valid : s.Valid) (nodes : t.nodes = s.tree.nodes)
    (current : s.tree.isAlive t.current) : (s.withTree t).Valid ∧
      s.Extends spared (s.withTree t) := by
  -- Nothing but the insertion point is read from anything but the nodes.
  obtain ⟨_, now, generated⟩ := t
  obtain rfl : _ = s.tree.nodes := nodes
  have tree : s.tree.Extends spared (s.withTree ⟨s.tree.nodes, now, generated⟩).tree :=
    { ScopeTree.Extends.refl spared s.tree with }
  have extended : s.Extends spared (s.withTree ⟨s.tree.nodes, now, generated⟩) :=
    { Extends.refl spared s with
      tree := tree
      duties := fun _ _ apart meets => meets.mono apart tree (fun _ defined => defined) rfl
        fun _ _ _ kind => lt_of_template kind }
  have shaped : Shaped ⟨s.tree.nodes, now, generated⟩ := { valid.shaped with }
  exact ⟨{ valid with
    shaped := shaped, current := current
    accounts := valid.accounts_later extended.toIncludes }, extended⟩

theorem Widens.withTree (extended : s.Extends spared (s.withTree t))
    (current : t.current = s.tree.current)
    (names : ∀ a, a < s.tree.size → (s.tree.kind a).isBody →
      (t.node a).names = (s.tree.node a).names)
    (outer : ∀ id p, s.tree.size ≤ id → t.parent? id = some p → (t.kind p).isBody = false) :
    s.Widens spared (s.withTree t) :=
  { Widens.refl spared s with
    toExtends := extended, current := current, names := names, outer := outer }

theorem plain_of_refined {t t' : ScopeTree} (kind : ∀ id, (t.kind id).Refined (t'.kind id))
    (name : ∀ id, t'.name id = t.name id) (plain : t.Plain) : t'.Plain := by
  intro id
  have refined := kind id
  constructor
  · intro has
    rw [has] at refined
    have before : t.kind id = .package := by
      cases h : t.kind id <;> rw [h] at refined <;> cases refined
    rw [name]
    exact (plain id).1 before
  intro e has
  rw [has] at refined
  obtain ⟨e0, before, decl, -, -⟩ := refined.of_template
  rw [decl]
  exact (plain id).2 e0 before

theorem Valid.adjusted (valid : s.Valid) (spared : List ScopeId) {change : ScopeNode → ScopeNode}
    (adjusts : s.tree.Adjusts id change)
    (accounts : s.Accounts id (change (s.tree.node id)).kind) :
    (s.withTree (s.tree.modifyNode id change)).Valid ∧
      s.Grows spared (s.withTree (s.tree.modifyNode id change)) := by
  have shaped := adjusts.shaped valid.shaped
  have parent := modifyNode_proj parent adjusts.parent
  have names := modifyNode_proj names adjusts.names
  have alive := modifyNode_proj alive adjusts.alive
  have fields : ∀ i, (s.tree.modifyNode id change).fields i = s.tree.fields i := fun i =>
    fields_congr (modifyNode_proj order adjusts.order i) fun child _ => (adjusts.refined child).var
  have bare : ∀ i, s.tree.size ≤ i → s.tree.fields i = [] := by
    intro i outside
    rw [ScopeTree.fields, ScopeTree.children, ScopeTree.node_outside outside]
    rfl
  have extended : s.Extends spared (s.withTree (s.tree.modifyNode id change)) :=
    .withTree adjusts.extends
      (plain_of_refined adjusts.refined (modifyNode_proj ScopeNode.name adjusts.name))
      (fun i outside => (fields i).trans (bare i outside)) (fun i e _ has => by
        have refined := adjusts.refined i
        rw [has] at refined
        obtain ⟨_, before, -⟩ := refined.of_template
        exact lt_of_template before) fun _ i _ _ _ _ => fields i
  refine ⟨valid.withTree extended.toIncludes shaped ?_ ?_ ?_ ?_ ?_, .withTree extended rfl ?_ ?_, ?_⟩
  · exact (alive _).trans valid.current
  · intro i
    by_cases lies : i < s.tree.size
    · by_cases same : i = id
      · subst same
        rw [ScopeTree.kind, node_modifyNode_same lies]
        exact accounts.mono extended.toIncludes valid.shaped lies
      rw [ScopeTree.kind, node_modifyNode_other same]
      exact (valid.accounts i).mono extended.toIncludes valid.shaped lies
    rw [ScopeTree.kind, node_outside (by simpa using Nat.le_of_not_lt lies)]
    trivial
  · intro i i' e e' c has present'
    exact valid.codes i i' e e' c (function_of_refined (adjusts.refined i) has)
      (function_of_refined (adjusts.refined i') present')
  · intro i template some
    rw [fields i] at some
    exact (alive i).trans (valid.fields i ((adjusts.refined i).isTemplate ▸ template) some)
  · intro i mem child
    rw [parent?, parent child]
    exact (valid.queued i mem).2 child
  · exact fun a _ _ => names a
  · intro i p young up
    rw [parent?, parent i] at up
    exact absurd (lt_of_parent up) (Nat.not_lt.mpr young)
  intro i e young has
  have lies : i < s.tree.size := by
    refine lt_of_kind_ne_block ?_
    rw [function_of_refined (adjusts.refined i) has]
    simp
  exact absurd lies (Nat.not_lt.mpr young)

section

variable {parent : ScopeId} {name : String} {kind : ScopeKind} {span : Span}

def grown (s : Session) (parent : ScopeId) (name : String) (kind : ScopeKind) (span : Span) :
    Session :=
  s.withTree (s.tree.grown parent name kind span)

theorem plain_grown (plain : t.Plain) (lies : parent < t.size)
    (named : (kind = .package → PlainName name) ∧ ∀ e, kind = .template e → PlainName e.decl.name) :
    (t.grown parent name kind span).Plain := by
  intro id
  rcases Nat.lt_trichotomy id t.size with old | rfl | outside
  · rw [kind_grown_old old, name_grown_old old]
    exact plain id
  · rw [kind_grown_new lies, name_grown_new lies]
    exact named
  rw [ScopeTree.kind, node_grown_outside outside]
  exact ⟨by simp, by simp⟩

theorem fields_grown_young (lies : parent < t.size)
    (young : t.size ≤ id) : (t.grown parent name kind span).fields id = [] := by
  rw [fields, children]
  rcases Nat.lt_or_eq_of_le young with outside | rfl
  · rw [node_grown_outside outside]
    rfl
  rw [node_grown_new lies]
  rfl

theorem Valid.extends_grown (valid : s.Valid) (lies : parent < s.tree.size)
    (spares : kind.var? = none ∨ (s.tree.kind parent).template? = none ∨
      parent ∈ spared ∧ s.Unformed parent)
    (plain : s.tree.Plain → (kind = .package → PlainName name) ∧
      ∀ e, kind = .template e → PlainName e.decl.name)
    (fresh : ∀ e, kind = .template e → s.tree.size ∈ spared) :
    s.Extends spared (s.grown parent name kind span) := by
  refine .withTree (valid.shaped.extends_grown lies (spares.imp_right (.imp_right And.left)))
    (fun before => plain_grown before lies (plain before)) (fun _ => fields_grown_young lies) ?_ ?_
  · intro _ e unspared has
    rcases kind_grown_cases lies has ScopeKind.noConfusion with
      ⟨old, -⟩ | ⟨rfl, new⟩
    · exact old
    · exact absurd (fresh e new) unspared
  intro named id e has original defined
  by_cases same : id = parent
  · subst same
    rcases spares with none | none | ⟨-, unformed⟩
    · exact (fields_grown_parent valid.shaped lies).trans (by simp [none])
    · rw [has] at none
      cases none
    · exact absurd defined (unformed named e has original)
  · exact fields_grown_other valid.shaped (lt_of_template has) same

theorem Valid.grown (valid : s.Valid) (lies : parent < s.tree.size)
    (free : s.tree.findChild? parent name = none)
    (admits : (s.tree.kind parent).admits kind)
    (extended : s.Includes spared (s.grown parent name kind span))
    (accounts : (s.grown parent name kind span).Accounts s.tree.size kind)
    (codes : ∀ e c, kind = .function e → e.code = some c →
      ∀ id e', s.tree.kind id = .function e' → e'.code ≠ some c)
    (alive : kind.var?.isSome → s.tree.isAlive parent)
    (unqueued : parent ∉ s.bodies) : (s.grown parent name kind span).Valid := by
  have shaped : (s.tree.grown parent name kind span).Shaped :=
    valid.shaped.grown lies free admits
  refine valid.withTree extended shaped ?_ ?_ ?_ ?_ ?_
  · rw [current_grown, alive_grown_old (lt_of_alive valid.current)]
    exact valid.current
  · intro id
    rcases Nat.lt_trichotomy id s.tree.size with old | rfl | outside
    · rw [kind_grown_old old]
      exact (valid.accounts id).mono extended valid.shaped old
    · rw [kind_grown_new lies]
      exact accounts
    rw [ScopeTree.kind, node_grown_outside outside]
    trivial
  · intro id id' e e' c has present' code code'
    -- A function of the grown tree is an old one or the new scope.
    rcases kind_grown_cases lies has ScopeKind.noConfusion with
        ⟨-, old⟩ | ⟨rfl, new⟩ <;>
      rcases kind_grown_cases lies present' ScopeKind.noConfusion with
        ⟨-, old'⟩ | ⟨rfl, new'⟩
    · exact valid.codes id id' e e' c old old' code code'
    · exact absurd code (codes e' c new' code' id e old)
    · exact absurd code' (codes e c new code id' e' old')
    · rfl
  · intro id template fields
    rcases Nat.lt_trichotomy id s.tree.size with old | rfl | outside
    · rw [kind_grown_old old] at template
      rw [alive_grown_old old]
      by_cases same : id = parent
      · subst same
        rw [fields_grown_parent valid.shaped lies] at fields
        cases entry : kind.var? with
        | none =>
          simp only [entry, Option.map_none, Option.toList_none, append_nil] at fields
          exact valid.fields id template fields
        | some => exact alive (by rw [entry]; rfl)
      rw [fields_grown_other valid.shaped old same] at fields
      exact valid.fields id template fields
    · exact alive_grown_new lies
    rw [ScopeTree.kind, node_grown_outside outside] at template
    cases template
  intro id mem child up
  rcases parent_grown_cases lies up with ⟨-, rfl⟩ | ⟨-, before⟩
  · exact unqueued mem
  · exact (valid.queued id mem).2 child before

variable (lies : parent < s.tree.size)
include lies

theorem widens_grown (extended : s.Extends spared (s.grown parent name kind span))
    (outer : (s.tree.kind parent).isBody = false) :
    s.Widens spared (s.grown parent name kind span) := by
  refine .withTree extended rfl ?_ ?_
  · intro a old body
    have other : a ≠ parent := by
      rintro rfl
      rw [outer] at body
      cases body
    rw [node_grown_other old other]
  intro _ p young up
  rcases parent_grown_cases lies up with ⟨-, rfl⟩ | ⟨old, -⟩
  · rwa [kind_grown_old lies]
  · exact absurd old (Nat.not_lt.mpr young)

theorem kind_grown_young {k : ScopeKind} (young : s.tree.size ≤ id) (other : k ≠ .block)
    (has : (s.grown parent name kind span).tree.kind id = k) :
    id = s.tree.size ∧ kind = k :=
  (kind_grown_cases lies has other).resolve_left fun old =>
    Nat.not_lt.mpr young old.1

theorem grows_grown (extended : s.Extends spared (s.grown parent name kind span))
    (outer : (s.tree.kind parent).isBody = false) (plain : ∀ e, kind ≠ .function e) :
    s.Grows spared (s.grown parent name kind span) where
  toWidens := widens_grown lies extended outer
  lowered _ e young has :=
    absurd (kind_grown_young (k := .function e) lies young nofun has).2 (plain e)

end

def Embodied (s : Session) (id : ScopeId) : Prop :=
  s.Formed id ∧ ∀ e, s.tree.kind id = .template e → s.builder.module.Defines e.structName

theorem Embodied.laid (embodied : s.Embodied id) : s.Laid id := by
  intro e kind alive _
  obtain ⟨body, has⟩ := embodied.2 e kind
  exact embodied.1 e body kind alive has ▸ has

theorem Embodied.mono (embodied : s.Embodied id) (h : s.Extends [] s')
    (plain : s.tree.Plain) (lies : id < s.tree.size) : s'.Embodied id := by
  refine ⟨h.formed plain id nofun fun _ => embodied.1, fun e kind => ?_⟩
  obtain ⟨e0, kind0, -, struct, -⟩ := h.tree.of_kind_template lies kind
  exact struct ▸ h.structs _ (embodied.2 e0 kind0)

section

variable {b : Builder}

def withBuilder (s : Session) (b : Builder) : Session := { s with builder := b }

section

variable (heads : ∀ (i : Nat) (f : Function), s.builder.functions[i]? = some f →
      ∃ f', b.functions[i]? = some f' ∧ f'.name = f.name ∧ f'.params = f.params ∧
        f'.result = f.result)
    (globals : s.builder.module.globals <+: b.module.globals)
    (orderly : s.builder.Orderly → b.Orderly)
    (bodies : s.tree.Plain → ∀ id e body, id ∉ spared → s.tree.kind id = .template e →
      s.tree.isAlive id →
        (b.module.HasBody e.structName body ↔ s.builder.module.HasBody e.structName body))
    (own : ∀ id ∈ spared, s.Formed id → (s.withBuilder b).Formed id)

include heads globals orderly bodies own in
theorem Extends.withBuilder
    (structs : ∀ name, s.builder.module.Defines name → b.module.Defines name) :
    s.Extends spared (s.withBuilder b) where
  __ := Extends.refl spared s
  heads := heads
  globals := globals
  structs := structs
  orderly := orderly
  laid plain _ id unspared before e kind alive fields :=
    (bodies plain id e _ unspared kind alive).mpr (before (lt_of_template kind) e kind alive fields)
  formed plain id _ before := by
    have formed : s.Formed id := fun e body kind => before (lt_of_template kind) e body kind
    by_cases mem : id ∈ spared
    · exact own id mem formed
    exact fun e body kind alive has =>
      formed e body kind alive ((bodies plain id e body mem kind alive).mp has)
  undefined plain id e unspared kind alive defined := by
    obtain ⟨body, has⟩ := defined
    exact ⟨body, (bodies plain id e body unspared kind alive).mp has⟩
  duties _ duty apart meets := meets.mono apart (.refl spared s.tree) structs rfl fun _ e _ kind =>
    lt_of_template kind

include heads globals orderly in
theorem Extends.recoded (structs : b.module.structs = s.builder.module.structs) :
    s.Extends spared (s.withBuilder b) := by
  have bodies : ∀ name body, b.module.HasBody name body ↔ s.builder.module.HasBody name body := by
    intro _ _
    rw [HasBody, HasBody, struct?, struct?, structs]
  refine .withBuilder heads globals orderly (fun _ _ _ body _ _ _ => bodies _ body) ?_ ?_
  · exact fun _ _ formed e body kind alive has =>
      formed e body kind alive ((bodies _ body).mp has)
  rintro name ⟨body, has⟩
  exact ⟨body, (bodies name body).mpr has⟩

theorem Valid.withBuilder (valid : s.Valid) (extended : s.Extends spared (s.withBuilder b))
    (finished : ∀ i f, b.functions[i]? = some f →
      b.function ≠ some i → f.blocks = [] ∨ f.Finished (s.withBuilder b).context)
    (late : b.late = 0) : (s.withBuilder b).Valid :=
  { valid with
    accounts := valid.accounts_later extended.toIncludes
    finished := finished, late := late }

theorem Grows.withBuilder (extended : s.Extends spared (s.withBuilder b))
    (functions : ∃ new, b.functions = s.builder.functions ++ new ∧ ∀ f ∈ new, f.blocks = [])
    (frame : b.function = s.builder.function ∧ b.block = s.builder.block ∧
      b.nextTemp = s.builder.nextTemp) : s.Grows spared (s.withBuilder b) :=
  { Grows.refl spared s with toExtends := extended, functions := functions, frame := frame }

theorem Valid.remade (valid : s.Valid) (extended : s.Extends spared (s.withBuilder b))
    (functions : b.functions = s.builder.functions) (frame : b.function = s.builder.function ∧
      b.block = s.builder.block ∧ b.nextTemp = s.builder.nextTemp) (late : b.late = s.builder.late) :
    (s.withBuilder b).Valid ∧ s.Grows spared (s.withBuilder b) := by
  refine ⟨valid.withBuilder extended ?_ (late.trans valid.late),
    .withBuilder extended ⟨[], by simp [functions], nofun⟩ frame⟩
  intro i f got other
  rw [functions] at got
  rw [frame.1] at other
  exact (valid.finished i f got other).imp_right fun h => h.mono extended.context

include orderly bodies own in
theorem Valid.restructured (valid : s.Valid) {structs : List Struct}
    (changed : b = { s.builder with module.structs := structs })
    (defines : ∀ name, s.builder.module.Defines name → b.module.Defines name) :
    (s.withBuilder b).Valid ∧ s.Grows spared (s.withBuilder b) := by
  subst changed
  exact valid.remade (.withBuilder (fun _ f got => ⟨f, got, rfl, rfl, rfl⟩) prefix_rfl orderly bodies
    own defines) rfl ⟨rfl, rfl, rfl⟩ rfl

end

theorem Valid.withGlobal (valid : s.Valid) (spared : List ScopeId) {g : Global} {strings : Nat}
    (added : b = { s.builder with
      module.globals := s.builder.module.globals ++ [g], nextString := strings })
    (orderly : s.builder.Orderly → b.Orderly) :
    (s.withBuilder b).Valid ∧ s.Grows spared (s.withBuilder b) := by
  subst added
  exact valid.remade (.recoded (fun _ f got => ⟨f, got, rfl, rfl, rfl⟩) (prefix_append _ _) orderly
    rfl) rfl ⟨rfl, rfl, rfl⟩ rfl

end

theorem Valid.congr (valid : s.Valid) (tree : s'.tree = s.tree) (builder : s'.builder = s.builder)
    (bodies : s'.bodies.Sublist s.bodies)
    (instances : ∀ entry ∈ s'.instances, entry.2.Known s.tree)
    (regular : ∀ d ∈ s'.report.entries, d.Regular) : s'.Valid := by
  obtain ⟨t, b, _⟩ := s'
  obtain rfl : t = s.tree := tree
  obtain rfl : b = s.builder := builder
  exact { valid with
    queue := valid.queue.sublist bodies
    queued := fun id mem => valid.queued id (bodies.subset mem)
    instances := instances, regular := regular }

section

variable (tree : s'.tree = s.tree) (builder : s'.builder = s.builder) (decls : s'.decls = s.decls)
  (actions : s'.actions = s.actions) (report : s.report.entries <+: s'.report.entries)
  (memory : s.Remembers s')
include tree builder decls actions report memory

theorem Extends.congr : s.Extends spared s' := by
  obtain ⟨t, b, _, _, _, ds, as, _⟩ := s'
  obtain rfl : t = s.tree := tree
  obtain rfl : b = s.builder := builder
  obtain rfl : ds = s.decls := decls
  obtain rfl : as = s.actions := actions
  have base := Extends.refl spared s
  exact { base with
    report := report, memory := memory
    laid := fun plain clean => base.laid plain (prefix_nil.mp (clean ▸ report))
    registered := fun _ _ registered e generic kind =>
      have lies := lt_of_template kind
      (registered lies).mono memory base.tree lies e generic kind
    duties := fun _ _ apart meets => meets.mono apart base.tree base.structs rfl
      fun _ _ _ kind => lt_of_template kind }

theorem Grows.congr (bodies : s'.bodies = s.bodies) : s.Grows spared s' := by
  have extended : s.Extends spared s' := .congr tree builder decls actions report memory
  obtain ⟨t, b, _, _, bs, _⟩ := s'
  obtain rfl : t = s.tree := tree
  obtain rfl : b = s.builder := builder
  obtain rfl : bs = s.bodies := bodies
  exact { Grows.refl spared s with toExtends := extended }

end

theorem Valid.reported (valid : s.Valid) (spared : List ScopeId) {d : Diagnostic}
    (regular : d.Regular) : ({ s with report := s.report.push d } : Session).Valid ∧
      s.Grows spared { s with report := s.report.push d } := by
  refine ⟨valid.congr rfl rfl (.refl _) valid.instances fun entry mem => ?_,
    .congr rfl rfl rfl rfl (prefix_append _ _) (.of_eq rfl) rfl⟩
  rcases mem_append.mp mem with old | new
  · exact valid.regular entry old
  rw [mem_singleton.mp new]
  exact regular

end Stencil.Session
