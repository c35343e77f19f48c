import Stencil.Proofs.Scope.Tree

namespace Stencil

open List

namespace ScopeKind

def isNamespace : ScopeKind → Bool
  | module | package => true
  | _ => false

def isType : ScopeKind → Bool
  | template _ | spec _ => true
  | _ => false

def isOuter (k : ScopeKind) : Bool :=
  k.isNamespace || k.isType

def isBody : ScopeKind → Bool
  | function _ | block => true
  | _ => false

/-- Whether a scope can have a scope of a kind in it. -/
def admits (outer inner : ScopeKind) : Bool :=
  match inner with
  | module => false
  | package | template _ | spec _ => outer.isNamespace
  | function _ => outer.isNamespace || outer.isType
  | typeAlias _ => outer.isNamespace || outer.isType || outer.alias?.isSome
  | block => outer.isBody
  | var e => match e.storage with
    | .field => outer.template?.isSome
    | .slot _ => outer.isBody
    | .known _ _ => outer.isNamespace

variable {k : ScopeKind}

theorem isBody_of_isOuter (outer : k.isOuter) : k.isBody = false := by
  cases k <;> first | rfl | cases outer

theorem isOuter_of_isNamespace (outer : k.isNamespace) : k.isOuter := by
  rw [isOuter, outer, Bool.true_or]

theorem isOuter_of_template (template : k.template?.isSome) : k.isOuter := by
  cases k <;> first | rfl | cases template

/-- What may become of a kind: templates gather actions and specs, and aliases find their target. -/
inductive Refined : ScopeKind → ScopeKind → Prop
  | same (k : ScopeKind) : Refined k k
  | template {e e' : TemplateEntry} (decl : e'.decl = e.decl)
      (structName : e'.structName = e.structName) (instanceOf : e'.instanceOf = e.instanceOf) :
      Refined (.template e) (.template e')
  | typeAlias {e e' : AliasEntry} (decl : e'.decl = e.decl) (bound : e.decl = none → e' = e) :
      Refined (.typeAlias e) (.typeAlias e')

namespace Refined

variable {k' k'' : ScopeKind}

theorem trans (fst : Refined k k') (snd : Refined k' k'') : Refined k k'' := by
  cases fst with
  | same => exact snd
  | template decl struct instanceOf =>
    cases snd with
    | same => exact .template decl struct instanceOf
    | template decl' struct' instanceOf' =>
      exact .template (decl'.trans decl) (struct'.trans struct) (instanceOf'.trans instanceOf)
  | typeAlias decl bound =>
  cases snd with
  | same => exact .typeAlias decl bound
  | typeAlias decl' bound' =>
    exact .typeAlias (decl'.trans decl) fun parameter =>
      (bound' (decl.trans parameter)).trans (bound parameter)

theorem var (refined : Refined k k') : k'.var? = k.var? := by
  cases refined <;> rfl

theorem isTemplate (refined : Refined k k') : k'.template?.isSome = k.template?.isSome := by
  cases refined <;> rfl

theorem spec (refined : Refined k k') : k'.spec? = k.spec? := by
  cases refined <;> rfl

theorem function_eq {e : FunctionEntry} (refined : Refined (.function e) k) : k = .function e := by
  cases refined
  rfl

theorem package_eq (refined : Refined .package k) : k = .package := by
  cases refined
  rfl

theorem spec_eq {d : SpecDecl} (refined : Refined (.spec d) k) : k = .spec d := by
  cases refined
  rfl

theorem template_eq {e : TemplateEntry} (refined : Refined (.template e) k) :
    ∃ e', k = .template e' ∧ e'.decl = e.decl ∧ e'.structName = e.structName ∧
      e'.instanceOf = e.instanceOf := by
  cases refined with
  | same => exact ⟨e, rfl, rfl, rfl, rfl⟩
  | template decl struct instanceOf => exact ⟨_, rfl, decl, struct, instanceOf⟩

theorem of_template {e' : TemplateEntry} (refined : Refined k (.template e')) :
    ∃ e, k = .template e ∧ e'.decl = e.decl ∧ e'.structName = e.structName ∧
      e'.instanceOf = e.instanceOf := by
  cases refined with
  | same => exact ⟨e', rfl, rfl, rfl, rfl⟩
  | template decl struct instanceOf => exact ⟨_, rfl, decl, struct, instanceOf⟩

theorem alias_eq {e : AliasEntry} (refined : Refined (.typeAlias e) k) :
    ∃ e', k = .typeAlias e' ∧ e'.decl = e.decl ∧ (e.decl = none → e' = e) := by
  cases refined with
  | same => exact ⟨e, rfl, rfl, fun _ => rfl⟩
  | typeAlias decl bound => exact ⟨_, rfl, decl, bound⟩

theorem isNamespace (refined : Refined k k') : k'.isNamespace = k.isNamespace := by
  cases refined <;> rfl

theorem isOuter (refined : Refined k k') : k'.isOuter = k.isOuter := by
  cases refined <;> rfl

theorem isBody (refined : Refined k k') : k'.isBody = k.isBody := by
  cases refined <;> rfl

theorem admits {outer outer' : ScopeKind} (outside : Refined outer outer')
    (lies : Refined k k') : outer'.admits k' = outer.admits k := by
  cases outside <;> cases lies <;> rfl

end Refined

end ScopeKind

namespace ScopeTree

/-- A tree as the analysis builds it. -/
structure Shaped (t : ScopeTree) : Prop extends t.Indexed where
  root : t.kind root = .module
  rooted : ∀ id, id < t.size → t.parent? id = none → id = ScopeTree.root
  admitted : ∀ id p, t.parent? id = some p → (t.kind p).admits (t.kind id)
  namespaces : ∀ id, (t.kind id).isNamespace → t.isAlive id

def Original (t : ScopeTree) (id : ScopeId) : Prop :=
  ∃ e, t.kind id = .template e ∧ e.instanceOf = none

/-- A tree in which everything of another one is still there. The fields of some templates may
have become more. -/
structure Extends (spared : List ScopeId) (t t' : ScopeTree) : Prop where
  length : t.size ≤ t'.size
  parent : ∀ id, id < t.size → t'.parent? id = t.parent? id
  name : ∀ id, id < t.size → t'.name id = t.name id
  alive : ∀ id, id < t.size → t'.isAlive id = t.isAlive id
  kind : ∀ id, id < t.size → (t.kind id).Refined (t'.kind id)
  fields : ∀ id, id < t.size → (t.kind id).template?.isSome →
    t.fields id <+: t'.fields id ∧ (id ∉ spared → t'.fields id = t.fields id)

namespace Extends

variable {spared : List ScopeId} {t t' t'' : ScopeTree} {id : ScopeId}

theorem refl (spared : List ScopeId) (t : ScopeTree) : t.Extends spared t where
  length := .refl
  parent _ _ := rfl
  name _ _ := rfl
  alive _ _ := rfl
  kind id _ := .same (t.kind id)
  fields _ _ _ := ⟨prefix_rfl, fun _ => rfl⟩

theorem template (h : t.Extends spared t') (lies : id < t.size)
    (has : (t.kind id).template?.isSome) : (t'.kind id).template?.isSome :=
  (h.kind id lies).isTemplate.trans has

theorem kind_template {e : TemplateEntry} (h : t.Extends spared t')
    (kind : t.kind id = .template e) : ∃ e', t'.kind id = .template e' ∧ e'.decl = e.decl ∧
      e'.structName = e.structName ∧ e'.instanceOf = e.instanceOf := by
  have refined := h.kind id (lt_of_template kind)
  rw [kind] at refined
  exact refined.template_eq

theorem of_kind_template {e' : TemplateEntry} (h : t.Extends spared t')
    (lies : id < t.size) (kind : t'.kind id = .template e') :
    ∃ e, t.kind id = .template e ∧ e'.decl = e.decl ∧ e'.structName = e.structName ∧
      e'.instanceOf = e.instanceOf := by
  have refined := h.kind id lies
  rw [kind] at refined
  exact refined.of_template

theorem trans (fst : t.Extends spared t') (snd : t'.Extends spared t'') : t.Extends spared t'' where
  length := Nat.le_trans fst.length snd.length
  parent id lies :=
    (snd.parent id (Nat.lt_of_lt_of_le lies fst.length)).trans (fst.parent id lies)
  name id lies :=
    (snd.name id (Nat.lt_of_lt_of_le lies fst.length)).trans (fst.name id lies)
  alive id lies :=
    (snd.alive id (Nat.lt_of_lt_of_le lies fst.length)).trans (fst.alive id lies)
  kind id lies :=
    (fst.kind id lies).trans (snd.kind id (Nat.lt_of_lt_of_le lies fst.length))
  fields id lies has := by
    obtain ⟨front, same⟩ := fst.fields id lies has
    obtain ⟨front', same'⟩ := snd.fields id (Nat.lt_of_lt_of_le lies fst.length)
      (fst.template lies has)
    exact ⟨front.trans front', fun other => (same' other).trans (same other)⟩

theorem mono {spared' : List ScopeId} (h : t.Extends spared t')
    (more : ∀ id ∈ spared, id ∈ spared') : t.Extends spared' t' where
  __ := h
  fields id lies has :=
    ⟨(h.fields id lies has).1, fun other => (h.fields id lies has).2 fun mem => other (more id mem)⟩

end Extends

section

variable {t t' : ScopeTree} {spared : List ScopeId} {id a scope : ScopeId} {name : String}

theorem Original.lt (original : t.Original id) : id < t.size := by
  obtain ⟨e, kind, -⟩ := original
  exact lt_of_template kind

theorem Original.mono (original : t.Original id) (h : t.Extends spared t') : t'.Original id := by
  obtain ⟨e, kind, none⟩ := original
  obtain ⟨e', kind', -, -, instanceOf⟩ := h.kind_template kind
  exact ⟨e', kind', instanceOf.trans none⟩

theorem Shaped.child (shaped : t.Shaped) (got : t.findChild? a name = some id) :
    t.parent? id = some a ∧ t.name id = name :=
  shaped.named a name id (mem_names_of_findChild got)

theorem findFrom_some (got : t.findFrom? scope name = some id) :
    ∃ a ∈ t.ancestors scope, t.findChild? a name = some id :=
  exists_of_findSome?_eq_some got

theorem Shaped.ancestors_eq (shaped : t.Shaped) (id : ScopeId) :
    t.ancestors id = id :: match t.parent? id with
      | some p => t.ancestors p
      | none => [] := by
  rw [ancestors]
  cases h : t.parent? id with
  | none => rfl
  | some p => simp [shaped.parents id p h]

theorem Extends.ancestors (h : t.Extends spared t') (lies : id < t.size) :
    t'.ancestors id = t.ancestors id :=
  ancestors_congr fun a upTo => h.parent a (Nat.lt_of_le_of_lt upTo lies)

theorem Extends.path (h : t.Extends spared t') (lies : id < t.size) : t'.path id = t.path id :=
  path_congr (fun a upTo => h.parent a (Nat.lt_of_le_of_lt upTo lies))
    fun a upTo => h.name a (Nat.lt_of_le_of_lt upTo lies)

theorem Extends.qualify (h : t.Extends spared t') (lies : id < t.size) (name : String) :
    t'.qualify id name = t.qualify id name :=
  qualify_congr (h.path lies) name

end

variable {t t' : ScopeTree} {spared : List ScopeId} {id parent : ScopeId}

/-- A tree keeps its shape when scopes are refined. -/
theorem Shaped.congr (shaped : t.Shaped) (length : t'.size = t.size)
    (kind : ∀ id, (t.kind id).Refined (t'.kind id)) (parents : ∀ id, t'.parent? id = t.parent? id)
    (name : ∀ id, t'.name id = t.name id) (names : ∀ a, (t'.node a).names = (t.node a).names)
    (order : ∀ a, t'.children a = t.children a) (alive : ∀ id, t'.isAlive id = t.isAlive id) :
    t'.Shaped where
  toIndexed := shaped.toIndexed.congr parents name names order alive
  root := by
    have refined := kind ScopeTree.root
    rw [shaped.root] at refined
    cases h : t'.kind ScopeTree.root <;> rw [h] at refined <;> cases refined
  rooted id := by
    rw [parents id, length]
    exact shaped.rooted id
  admitted id p := by
    rw [parents id, (kind p).admits (kind id)]
    exact shaped.admitted id p
  namespaces id := by
    rw [alive id, (kind id).isNamespace]
    exact shaped.namespaces id

theorem fields_congr {id' : ScopeId} (order : t'.children id' = t.children id)
    (kinds : ∀ child ∈ t.children id, (t'.kind child).var? = (t.kind child).var?) :
    t'.fields id' = t.fields id := by
  rw [fields, fields, order]
  refine filterMap_congr ?_
  intro child mem
  rw [kinds child mem]

theorem Shaped.lt_of_mem_children (shaped : t.Shaped) {child : ScopeId}
    (mem : child ∈ t.children id) : child < t.size :=
  lt_of_parent (shaped.ordered id child mem)

section

variable {name : String} {kind : ScopeKind} {span : Span}

theorem Shaped.grown (shaped : t.Shaped) (lies : parent < t.size)
    (fresh : t.findChild? parent name = none) (admits : (t.kind parent).admits kind) :
    (t.grown parent name kind span).Shaped where
  toIndexed := shaped.toIndexed.grown lies fresh
  root := by
    have positive : ScopeTree.root < t.size := Nat.lt_of_le_of_lt (Nat.zero_le _) lies
    rw [kind_grown_old positive, shaped.root]
  rooted id bound none := by
    rw [length_grown] at bound
    rcases Nat.lt_or_eq_of_le (Nat.le_of_lt_succ bound) with old | rfl
    · exact shaped.rooted id old (by rwa [parent_grown_old old] at none)
    rw [parent_grown_new lies] at none
    cases none
  admitted id p has := by
    rcases parent_grown_cases lies has with ⟨rfl, rfl⟩ | ⟨old, before⟩
    · rw [kind_grown_new lies, kind_grown_old lies]
      exact admits
    have outer := Nat.lt_trans (shaped.parents id p before) old
    rw [kind_grown_old old, kind_grown_old outer]
    exact shaped.admitted id p before
  namespaces id isNamespace := by
    rcases Nat.lt_trichotomy id t.size with old | rfl | outside
    · rw [kind_grown_old old] at isNamespace
      rw [alive_grown_old old]
      exact shaped.namespaces id isNamespace
    · exact alive_grown_new lies
    rw [ScopeTree.kind, node_grown_outside outside] at isNamespace
    cases isNamespace

theorem fields_grown_parent (shaped : t.Shaped) (lies : parent < t.size) :
    (t.grown parent name kind span).fields parent =
      t.fields parent ++ (kind.var?.map (t.size, ·)).toList := by
  have old : ∀ child ∈ t.children parent,
      (((t.grown parent name kind span).kind child).var?.map (child, ·)) =
        (t.kind child).var?.map (child, ·) := by
    intro _ mem
    rw [kind_grown_old (shaped.lt_of_mem_children mem)]
  rw [fields, ScopeTree.children, node_grown_parent lies, filterMap_append]
  refine congr (congrArg _ (filterMap_congr old)) ?_
  simp only [filterMap_cons, filterMap_nil, kind_grown_new lies]
  cases kind.var? <;> rfl

theorem fields_grown_other (shaped : t.Shaped) (lies : id < t.size)
    (other : id ≠ parent) : (t.grown parent name kind span).fields id = t.fields id := by
  refine fields_congr (by rw [ScopeTree.children, node_grown_other lies other]; rfl) ?_
  intro _ mem
  rw [kind_grown_old (shaped.lt_of_mem_children mem)]

theorem Shaped.extends_grown (shaped : t.Shaped) (lies : parent < t.size)
    (spares : kind.var? = none ∨ (t.kind parent).template? = none ∨ parent ∈ spared) :
    t.Extends spared (t.grown parent name kind span) where
  length := by simp
  parent _ old := parent_grown_old old
  name _ old := name_grown_old old
  alive _ old := alive_grown_old old
  kind id old := by
    rw [kind_grown_old old]
    exact .same _
  fields id old template := by
    by_cases same : id = parent
    · subst same
      rw [fields_grown_parent shaped lies]
      refine ⟨prefix_append _ _, fun unspared => ?_⟩
      rcases spares with none | none | spare
      · simp [none]
      · simp [none] at template
      · exact absurd spare unspared
    rw [fields_grown_other shaped old same]
    exact ⟨prefix_rfl, fun _ => rfl⟩

end

structure Adjusts (t : ScopeTree) (id : ScopeId) (change : ScopeNode → ScopeNode) : Prop where
  name : (change (t.node id)).name = (t.node id).name
  kind : (t.node id).kind.Refined (change (t.node id)).kind
  parent : (change (t.node id)).parent = (t.node id).parent
  names : (change (t.node id)).names = (t.node id).names
  order : (change (t.node id)).order = (t.node id).order
  alive : (change (t.node id)).alive = (t.node id).alive

variable {change : ScopeNode → ScopeNode}

theorem Adjusts.refined (adjusts : t.Adjusts id change) (i : ScopeId) :
    (t.kind i).Refined ((t.modifyNode id change).kind i) := by
  by_cases same : i = id
  · subst same
    by_cases lies : i < t.size
    · rw [ScopeTree.kind, ScopeTree.kind, node_modifyNode_same lies]
      exact adjusts.kind
    have outside := Nat.le_of_not_lt lies
    rw [ScopeTree.kind, ScopeTree.kind, node_outside outside, node_outside (by simpa using outside)]
    exact .same _
  rw [ScopeTree.kind, ScopeTree.kind, node_modifyNode_other same]
  exact .same _

theorem Adjusts.shaped (adjusts : t.Adjusts id change) (shaped : t.Shaped) :
    (t.modifyNode id change).Shaped :=
  shaped.congr length_modifyNode adjusts.refined
    (modifyNode_proj ScopeNode.parent adjusts.parent) (modifyNode_proj ScopeNode.name adjusts.name)
    (modifyNode_proj ScopeNode.names adjusts.names) (modifyNode_proj ScopeNode.order adjusts.order)
    (modifyNode_proj ScopeNode.alive adjusts.alive)

theorem Adjusts.extends (adjusts : t.Adjusts id change) :
    t.Extends spared (t.modifyNode id change) where
  length := by simp
  parent i _ := modifyNode_proj ScopeNode.parent adjusts.parent i
  name i _ := modifyNode_proj ScopeNode.name adjusts.name i
  alive i _ := modifyNode_proj ScopeNode.alive adjusts.alive i
  kind i _ := adjusts.refined i
  fields i _ _ := by
    have same : (t.modifyNode id change).fields i = t.fields i :=
      fields_congr (modifyNode_proj ScopeNode.order adjusts.order i)
        fun child _ => (adjusts.refined child).var
    exact ⟨same ▸ prefix_rfl, fun _ => same⟩

theorem adjusts_exported (t : ScopeTree) (id : ScopeId) (exported : Bool) :
    t.Adjusts id fun n => { n with exported } :=
  ⟨rfl, .same _, rfl, rfl, rfl, rfl⟩

theorem adjusts_kind {kind : ScopeKind} (refined : (t.kind id).Refined kind) :
    t.Adjusts id fun n => { n with kind } :=
  ⟨rfl, refined, rfl, rfl, rfl, rfl⟩

end ScopeTree

end Stencil
