import Mathlib.Data.List.Nodup
import Stencil.Scope.Tree

/-!
What the operations on a tree of scopes do to its nodes. The children of a scope are kept twice, by
name and in their order, and each child knows its parent as well.
-/

namespace Stencil.ScopeTree

open List

variable {t : ScopeTree} {id i parent : ScopeId}

theorem node_outside (outside : t.size ≤ id) :
    t.node id = { name := "", kind := .block, parent := none, alive := false } := by
  simp [node, getElem?_eq_none outside]

theorem mem_ancestors {a : ScopeId} (mem : a ∈ t.ancestors id) :
    a = id ∨ ∃ p, t.parent? id = some p ∧ p < id ∧ a ∈ t.ancestors p := by
  rw [ancestors] at mem
  rcases mem_cons.mp mem with same | outer
  · exact .inl same
  cases up : t.parent? id with
  | none =>
    rw [up] at outer
    cases outer
  | some p =>
  rw [up] at outer
  dsimp only at outer
  split at outer
  · rename_i below
    exact .inr ⟨p, rfl, below, outer⟩
  · cases outer

theorem le_of_mem_ancestors {a : ScopeId} (mem : a ∈ t.ancestors id) : a ≤ id := by
  induction id using Nat.strongRecOn with
  | ind id ih =>
  rcases mem_ancestors mem with rfl | ⟨p, -, below, outer⟩
  · exact .refl
  · exact Nat.le_trans (ih p below outer) (Nat.le_of_lt below)

theorem ancestors_congr {t' : ScopeTree} (parents : ∀ a ≤ id, t'.parent? a = t.parent? a) :
    t'.ancestors id = t.ancestors id := by
  induction id using Nat.strongRecOn with
  | ind id ih =>
  rw [ancestors, ancestors, parents id .refl]
  cases t.parent? id with
  | none => rfl
  | some p =>
  dsimp only
  split
  · rename_i below
    rw [ih p below fun a upTo => parents a (Nat.le_trans upTo (Nat.le_of_lt below))]
  · rfl

theorem ancestors_moveTo : (t.moveTo i).ancestors id = t.ancestors id :=
  ancestors_congr fun _ _ => rfl

def path (t : ScopeTree) (id : ScopeId) : List String :=
  (((t.ancestors id).takeWhile (· != root)).map t.name).reverse

theorem path_congr {t' : ScopeTree} (parents : ∀ a ≤ id, t'.parent? a = t.parent? a)
    (names : ∀ a ≤ id, t'.name a = t.name a) : t'.path id = t.path id := by
  rw [path, path, ancestors_congr parents]
  refine congrArg reverse (map_congr_left fun a mem => ?_)
  exact names a (le_of_mem_ancestors (( takeWhile_prefix _).subset mem))

theorem qualify_congr {t' : ScopeTree} (same : t'.path id = t.path id) (name : String) :
    t'.qualify id name = t.qualify id name := by
  rw [qualify, qualify, show t'.qualifiedName id = _ from congrArg (".".intercalate ·) same]
  rfl

theorem lt_of_parent {p : ScopeId} (has : t.parent? id = some p) : id < t.size := by
  by_contra outside
  rw [parent?, node_outside (Nat.le_of_not_lt outside)] at has
  cases has

theorem lt_of_alive (alive : t.isAlive id) : id < t.size := by
  by_contra outside
  rw [isAlive, node_outside (Nat.le_of_not_lt outside)] at alive
  cases alive

theorem lt_of_kind_ne_block (other : t.kind id ≠ .block) : id < t.size := by
  by_contra outside
  exact other (by rw [kind, node_outside (Nat.le_of_not_lt outside)])

theorem lt_of_template {e : TemplateEntry} (has : t.kind id = .template e) : id < t.size :=
  lt_of_kind_ne_block (by rw [has]; nofun)

theorem lt_of_function {e : FunctionEntry} (has : t.kind id = .function e) : id < t.size :=
  lt_of_kind_ne_block (by rw [has]; nofun)

section

variable {change : ScopeNode → ScopeNode}

@[simp] theorem length_modifyNode : (t.modifyNode i change).size = t.size := by
  simp [modifyNode, size]

theorem node_modifyNode_same (lies : i < t.size) :
    (t.modifyNode i change).node i = change (t.node i) := by
  simp [modifyNode, node, lies]

theorem node_modifyNode_other (other : id ≠ i) : (t.modifyNode i change).node id = t.node id := by
  have apart : i ≠ id := fun h => other h.symm
  cases h : t.nodes[id]? <;> simp [modifyNode, node, apart, h]

theorem modifyNode_proj {β : Type} (π : ScopeNode → β) (same : π (change (t.node i)) = π (t.node i))
    (id : ScopeId) : π ((t.modifyNode i change).node id) = π (t.node id) := by
  by_cases other : id = i
  · subst other
    by_cases lies : id < t.size
    · rw [node_modifyNode_same lies, same]
    have outside := Nat.le_of_not_lt lies
    rw [node_outside outside, node_outside (by simpa using outside)]
  · rw [node_modifyNode_other other]

end

def grown (t : ScopeTree) (parent : ScopeId) (name : String) (kind : ScopeKind) (span : Span) :
    ScopeTree :=
  let added : ScopeTree :=
    { t with nodes := t.nodes ++ [{ name, kind, parent := some parent, span }] }
  added.modifyNode parent fun n =>
    { n with
      names := (name, t.size) :: n.names
      order := n.order ++ [t.size] }

theorem addChild_eq (t : ScopeTree) (parent : ScopeId) (name : String) (kind : ScopeKind)
    (span : Span) :
    t.addChild parent name kind span =
      if (t.findChild? parent name).isSome then .error ((Problem.duplicate name).at span)
      else .ok (t.size, t.grown parent name kind span) := rfl

section

variable {name : String} {kind : ScopeKind} {span : Span}

@[simp] theorem length_grown : (t.grown parent name kind span).size = t.size + 1 := by
  simp [grown, size]

@[simp] theorem current_grown : (t.grown parent name kind span).current = t.current := rfl

theorem node_grown_new (lies : parent < t.size) : (t.grown parent name kind span).node t.size =
      { name, kind, parent := some parent, span } := by
  rw [grown, node_modifyNode_other (Nat.ne_of_gt lies)]
  simp [node]

theorem node_grown_other (lies : id < t.size) (other : id ≠ parent) :
    (t.grown parent name kind span).node id = t.node id := by
  rw [grown, node_modifyNode_other other]
  simp [node, getElem?_append_left lies]

theorem node_grown_parent (lies : parent < t.size) :
    (t.grown parent name kind span).node parent = { t.node parent with
        names := (name, t.size) :: (t.node parent).names
        order := (t.node parent).order ++ [t.size] } := by
  rw [grown, node_modifyNode_same (by simpa [size] using Nat.lt_succ_of_lt lies)]
  simp [node, getElem?_append_left lies]

theorem node_grown_outside (outside : t.size < id) : (t.grown parent name kind span).node id =
      { name := "", kind := .block, parent := none, alive := false } :=
  node_outside (by rw [length_grown]; exact outside)

theorem grown_proj {β : Type} (π : ScopeNode → β)
    (same : ∀ n names order, π { n with names, order } = π n) (lies : id < t.size) :
    π ((t.grown parent name kind span).node id) = π (t.node id) := by
  by_cases other : id = parent
  · subst other
    rw [node_grown_parent lies, same]
  · rw [node_grown_other lies other]

theorem kind_grown_new (lies : parent < t.size) :
    (t.grown parent name kind span).kind t.size = kind := by
  rw [ScopeTree.kind, node_grown_new lies]

theorem kind_grown_old (lies : id < t.size) : (t.grown parent name kind span).kind id = t.kind id :=
  grown_proj ScopeNode.kind (fun _ _ _ => rfl) lies

theorem kind_grown_cases (lies : parent < t.size) {k : ScopeKind}
    (has : (t.grown parent name kind span).kind id = k) (other : k ≠ .block) :
    (id < t.size ∧ t.kind id = k) ∨ (id = t.size ∧ kind = k) := by
  rcases Nat.lt_trichotomy id t.size with old | rfl | outside
  · exact .inl ⟨old, (kind_grown_old old).symm.trans has⟩
  · exact .inr ⟨rfl, (kind_grown_new lies).symm.trans has⟩
  rw [ScopeTree.kind, node_grown_outside outside] at has
  exact absurd has.symm other

theorem parent_grown_new (lies : parent < t.size) :
    (t.grown parent name kind span).parent? t.size = some parent := by
  rw [parent?, node_grown_new lies]

theorem parent_grown_old (lies : id < t.size) :
    (t.grown parent name kind span).parent? id = t.parent? id :=
  grown_proj ScopeNode.parent (fun _ _ _ => rfl) lies

theorem parent_grown_cases {p : ScopeId} (lies : parent < t.size)
    (up : (t.grown parent name kind span).parent? id = some p) :
    (id = t.size ∧ p = parent) ∨ (id < t.size ∧ t.parent? id = some p) := by
  have bound := lt_of_parent up
  rw [length_grown] at bound
  rcases Nat.lt_or_eq_of_le (Nat.le_of_lt_succ bound) with old | rfl
  · exact .inr ⟨old, (parent_grown_old old).symm.trans up⟩
  · exact .inl ⟨rfl, Option.some.inj (up.symm.trans (parent_grown_new lies))⟩

theorem parents_grown (parents : ∀ id p, t.parent? id = some p → p < id)
    (lies : parent < t.size) (id p : ScopeId)
    (up : (t.grown parent name kind span).parent? id = some p) : p < id := by
  rcases parent_grown_cases lies up with ⟨rfl, rfl⟩ | ⟨-, before⟩
  · exact lies
  · exact parents id p before

theorem name_grown_new (lies : parent < t.size) :
    (t.grown parent name kind span).name t.size = name := by
  rw [ScopeTree.name, node_grown_new lies]

theorem name_grown_old (lies : id < t.size) : (t.grown parent name kind span).name id = t.name id :=
  grown_proj ScopeNode.name (fun _ _ _ => rfl) lies

theorem alive_grown_new (lies : parent < t.size) :
    (t.grown parent name kind span).isAlive t.size := by
  rw [isAlive, node_grown_new lies]

theorem alive_grown_old (lies : id < t.size) :
    (t.grown parent name kind span).isAlive id = t.isAlive id :=
  grown_proj ScopeNode.alive (fun _ _ _ => rfl) lies

/-- All scopes but the parent keep their lists of children. -/
theorem lists_grown_other (lies : parent < t.size) (other : id ≠ parent) :
    ((t.grown parent name kind span).node id).names = (t.node id).names ∧
      (t.grown parent name kind span).children id = t.children id := by
  rw [children, children]
  rcases Nat.lt_trichotomy id t.size with before | rfl | after
  · rw [node_grown_other before other]
    exact ⟨rfl, rfl⟩
  · rw [node_grown_new lies, node_outside .refl]
    exact ⟨rfl, rfl⟩
  rw [node_grown_outside after, node_outside (Nat.le_of_lt after)]
  exact ⟨rfl, rfl⟩

theorem names_grown_cases {entry : String × ScopeId} (lies : parent < t.size)
    (mem : entry ∈ ((t.grown parent name kind span).node id).names) :
    (id = parent ∧ entry = (name, t.size)) ∨ entry ∈ (t.node id).names := by
  by_cases here : id = parent
  · subst here
    rw [node_grown_parent lies] at mem
    exact (mem_cons.mp mem).imp_left fun new => ⟨rfl, new⟩
  rw [(lists_grown_other lies here).1] at mem
  exact .inr mem

theorem mem_names_grown {entry : String × ScopeId} (lies : parent < t.size)
    (mem : entry ∈ (t.node id).names) :
    entry ∈ ((t.grown parent name kind span).node id).names := by
  by_cases here : id = parent
  · subst here
    rw [node_grown_parent lies]
    exact .tail _ mem
  rw [(lists_grown_other lies here).1]
  exact mem

end

theorem mem_fields {field : ScopeId × VariableEntry} (mem : field ∈ t.fields id) :
    field.1 ∈ t.children id ∧ t.kind field.1 = .var field.2 := by
  obtain ⟨child, lies, entry⟩ := mem_filterMap.mp mem
  obtain ⟨e, var, rfl⟩ := Option.map_eq_some_iff.mp entry
  cases kind : t.kind child <;> rw [kind] at var <;> cases var
  exact ⟨lies, rfl⟩

section

variable (moduleName : String)

theorem node_new (inner : id ≠ root) :
    (new moduleName).node id = { name := "", kind := .block, parent := none, alive := false } :=
  node_outside (Nat.pos_of_ne_zero inner)

theorem forall_new {moduleName : String} (holds : ScopeId → ScopeNode → Prop)
    (module : holds root ((new moduleName).node root))
    (absent : ∀ id, id ≠ root → holds id { name := "", kind := .block, parent := none, alive := false })
    (id : ScopeId) : holds id ((new moduleName).node id) := by
  by_cases inner : id = root
  · subst inner
    exact module
  rw [node_new moduleName inner]
  exact absent id inner

theorem parent_new (id : ScopeId) : (new moduleName).parent? id = none :=
  forall_new (fun _ n => n.parent = none) rfl (fun _ _ => rfl) id

theorem names_new (id : ScopeId) : ((new moduleName).node id).names = [] :=
  forall_new (fun _ n => n.names = []) rfl (fun _ _ => rfl) id

theorem order_new (id : ScopeId) : (new moduleName).children id = [] :=
  forall_new (fun _ n => n.order = []) rfl (fun _ _ => rfl) id

theorem fields_new (id : ScopeId) : (new moduleName).fields id = [] := by
  rw [fields, order_new]
  rfl

theorem kind_new (id : ScopeId) :
    (new moduleName).kind id = .module ∧ id = root ∨ (new moduleName).kind id = .block :=
  forall_new (fun id n => n.kind = .module ∧ id = root ∨ n.kind = .block)
    (.inl ⟨rfl, rfl⟩) (fun _ _ => .inr rfl) id

end

/-- The three ways in which a tree keeps its children agree. -/
structure Indexed (t : ScopeTree) : Prop where
  parents : ∀ id p, t.parent? id = some p → p < id
  named : ∀ a name id, (name, id) ∈ (t.node a).names → t.parent? id = some a ∧ t.name id = name
  same : ∀ a, ((t.node a).names.map Prod.snd).Perm (t.children a)
  distinct : ∀ a, ((t.node a).names.map Prod.fst).Nodup
  present : ∀ id p, t.isAlive id → t.parent? id = some p →
    (t.name id, id) ∈ (t.node p).names

theorem mem_names_of_findChild {a : ScopeId} {name : String}
    (got : t.findChild? a name = some id) : (name, id) ∈ (t.node a).names := by
  obtain ⟨_, _, whole, -⟩ := lookup_eq_some_iff.mp got
  rw [whole]
  simp

namespace Indexed

theorem parent_lt {p : ScopeId} (indexed : t.Indexed) (up : t.parent? id = some p) : p < t.size :=
  Nat.lt_trans (indexed.parents id p up) (lt_of_parent up)

variable {a : ScopeId} {name : String}

theorem mem_children (indexed : t.Indexed) (entry : (name, id) ∈ (t.node a).names) :
    id ∈ t.children a :=
  (indexed.same a).mem_iff.mp (mem_map_of_mem entry)

theorem mem_names (indexed : t.Indexed) (mem : id ∈ t.children a) :
    (t.name id, id) ∈ (t.node a).names := by
  obtain ⟨⟨name, id⟩, entry, rfl⟩ := mem_map.mp ((indexed.same a).mem_iff.mpr mem)
  obtain ⟨-, rfl⟩ := indexed.named a name id entry
  exact entry

theorem ordered (indexed : t.Indexed) (a id : ScopeId) (mem : id ∈ t.children a) :
    t.parent? id = some a :=
  (indexed.named a _ id (indexed.mem_names mem)).1

theorem younger (indexed : t.Indexed) (a id : ScopeId) (mem : id ∈ t.children a) : a < id :=
  indexed.parents id a (indexed.ordered a id mem)

theorem once (indexed : t.Indexed) (a : ScopeId) : (t.children a).Nodup := by
  refine (indexed.same a).nodup_iff.mp (((indexed.distinct a).of_map _).map_on ?_)
  intro x mem y mem' same
  have name := (indexed.named a x.1 x.2 mem).2
  have name' := (indexed.named a y.1 y.2 mem').2
  exact Prod.ext (name.symm.trans (same ▸ name')) same

theorem findChild (indexed : t.Indexed) (entry : (name, id) ∈ (t.node a).names) :
    t.findChild? a name = some id := by
  obtain ⟨front, back, whole⟩ := append_of_mem entry
  have distinct := indexed.distinct a
  rw [whole, map_append, map_cons] at distinct
  refine lookup_eq_some_iff.mpr ⟨front, back, whole, fun other mem => bne_iff_ne.mpr ?_⟩
  have apart := (nodup_append.mp distinct).2.2
  exact (apart other.1 (mem_map_of_mem mem) name (.head _)).symm

theorem registered (indexed : t.Indexed) (id p : ScopeId) (alive : t.isAlive id)
    (up : t.parent? id = some p) : t.findChild? p (t.name id) = some id :=
  indexed.findChild (indexed.present id p alive up)

theorem new (moduleName : String) : (ScopeTree.new moduleName).Indexed where
  parents id p up := by
    rw [parent_new] at up
    cases up
  named a name id mem := by
    rw [names_new] at mem
    cases mem
  same a := by
    rw [names_new, order_new]
    exact .nil
  distinct a := by
    rw [names_new]
    exact nodup_nil
  present id p _ up := by
    rw [parent_new] at up
    cases up

theorem congr {t' : ScopeTree} (indexed : t.Indexed) (parents : ∀ id, t'.parent? id = t.parent? id)
    (name : ∀ id, t'.name id = t.name id) (names : ∀ a, (t'.node a).names = (t.node a).names)
    (order : ∀ a, t'.children a = t.children a) (alive : ∀ id, t'.isAlive id = t.isAlive id) :
    t'.Indexed where
  parents id p := by
    rw [parents id]
    exact indexed.parents id p
  named a n id := by
    rw [parents id, name id, names a]
    exact indexed.named a n id
  same a := by
    rw [names a, order a]
    exact indexed.same a
  distinct a := by
    rw [names a]
    exact indexed.distinct a
  present id p := by
    rw [alive id, parents id, name id, names p]
    exact indexed.present id p

theorem grown {kind : ScopeKind} {span : Span} (indexed : t.Indexed)
    (lies : parent < t.size) (fresh : t.findChild? parent name = none) :
    (t.grown parent name kind span).Indexed := by
  constructor
  case parents => exact parents_grown indexed.parents lies
  case named =>
    intro a n id mem
    rcases names_grown_cases lies mem with ⟨rfl, new⟩ | old
    · obtain ⟨rfl, rfl⟩ := Prod.mk.inj new
      exact ⟨parent_grown_new lies, name_grown_new lies⟩
    obtain ⟨up, named⟩ := indexed.named a n id old
    have before := lt_of_parent up
    exact ⟨(parent_grown_old before).trans up, (name_grown_old before).trans named⟩
  case same =>
    intro a
    by_cases here : a = parent
    · subst here
      rw [children, node_grown_parent lies]
      exact ((indexed.same a).cons _).trans (perm_append_singleton _ _).symm
    obtain ⟨names, order⟩ := lists_grown_other lies here
    rw [names, order]
    exact indexed.same a
  case distinct =>
    intro a
    by_cases here : a = parent
    · subst here
      rw [node_grown_parent lies]
      refine nodup_cons.mpr ⟨fun mem => ?_, indexed.distinct a⟩
      obtain ⟨⟨_, i⟩, entry, rfl⟩ := mem_map.mp mem
      exact absurd (lookup_eq_none_iff.mp fresh _ entry) (by simp)
    rw [(lists_grown_other lies here).1]
    exact indexed.distinct a
  case present =>
    intro id p alive up
    rcases parent_grown_cases lies up with ⟨rfl, rfl⟩ | ⟨old, before⟩
    · rw [name_grown_new lies, node_grown_parent lies]
      exact .head _
    rw [name_grown_old old]
    rw [alive_grown_old old] at alive
    exact mem_names_grown lies (indexed.present id p alive before)

end Indexed

end Stencil.ScopeTree
