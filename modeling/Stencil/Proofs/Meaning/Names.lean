import Stencil.Proofs.Meaning.Scalar
import Stencil.Proofs.Scope.Shape

namespace Stencil

open List

variable {name : String}

namespace ScopeTree

variable {t t' t'' : ScopeTree} {scope id : ScopeId}

theorem findFrom_child (got : t.findChild? scope name = some id) :
    t.findFrom? scope name = some id := by
  rw [findFrom?, ancestors, findSome?_cons, got]

theorem findFrom_parent {p : ScopeId} (absent : t.findChild? scope name = none)
    (up : t.parent? scope = some p) (below : p < scope) :
    t.findFrom? scope name = t.findFrom? p name := by
  rw [findFrom?, ancestors, findSome?_cons, absent, up]
  simp only [if_pos below]
  rfl

theorem findFrom_outermost (absent : t.findChild? scope name = none)
    (up : ∀ p, t.parent? scope = some p → ¬p < scope) : t.findFrom? scope name = none := by
  rw [findFrom?, ancestors, findSome?_cons, absent]
  cases parent : t.parent? scope with
  | none => rfl
  | some p => simp only [if_neg (up p parent), findSome?_nil]

theorem findFrom_step (child : t'.findChild? scope name = t.findChild? scope name)
    (parent : t'.parent? scope = t.parent? scope)
    (outer : ∀ p < scope, t.findChild? scope name = none → t.parent? scope = some p →
      t'.findFrom? p name = t.findFrom? p name) :
    t'.findFrom? scope name = t.findFrom? scope name := by
  cases got : t.findChild? scope name with
  | some => rw [findFrom_child got, findFrom_child (child.trans got)]
  | none =>
  by_cases inner : ∃ p, t.parent? scope = some p ∧ p < scope
  · obtain ⟨p, up, below⟩ := inner
    rw [findFrom_parent got up below, findFrom_parent (child.trans got) (parent.trans up) below]
    exact outer p below got up
  have outermost : ∀ p, t.parent? scope = some p → ¬p < scope :=
    fun p up below => inner ⟨p, up, below⟩
  rw [findFrom_outermost got outermost, findFrom_outermost (child.trans got) (parent ▸ outermost)]

theorem findFrom_congr (same : ∀ a ≤ scope, t'.node a = t.node a) :
    t'.findFrom? scope name = t.findFrom? scope name := by
  induction scope using Nat.strongRecOn with
  | ind scope ih =>
  have here := same scope .refl
  refine findFrom_step ?_ ?_ fun p below _ _ => ?_
  · rw [findChild?, findChild?, here]
  · rw [parent?, parent?, here]
  · exact ih p below fun a upTo => same a (Nat.le_trans upTo (Nat.le_of_lt below))

section

variable {kind : ScopeKind} {span : Span} {other : String}

theorem findChild_grown_same (lies : scope < t.size) :
    (t.grown scope name kind span).findChild? scope name = some t.size := by
  rw [findChild?, node_grown_parent lies, lookup_cons_self]

theorem findChild_grown_other (lies : scope < t.size) (apart : other ≠ name) :
    (t.grown scope name kind span).findChild? scope other = t.findChild? scope other := by
  rw [findChild?, node_grown_parent lies, lookup_cons, beq_false_of_ne apart]
  rfl

theorem findFrom_grown_other (lies : scope < t.size) (apart : other ≠ name) :
    (t.grown scope name kind span).findFrom? scope other = t.findFrom? scope other := by
  refine findFrom_step (findChild_grown_other lies apart) (parent_grown_old lies)
    fun p below _ _ => findFrom_congr fun a upTo => ?_
  have before := Nat.lt_of_le_of_lt upTo below
  exact node_grown_other (Nat.lt_trans before lies) (Nat.ne_of_lt before)

end

structure Around (t t' : ScopeTree) : Prop where
  current : t'.current = t.current
  length : t.size ≤ t'.size
  others : ∀ id, id < t.size → id ≠ t.current → t'.node id = t.node id

theorem Around.refl (t : ScopeTree) : t.Around t := ⟨rfl, .refl, fun _ _ _ => rfl⟩

theorem Around.trans (fst : t.Around t') (snd : t'.Around t'') : t.Around t'' where
  current := snd.current.trans fst.current
  length := Nat.le_trans fst.length snd.length
  others id lies other := by
    rw [snd.others id (Nat.lt_of_lt_of_le lies fst.length) (by rwa [fst.current]),
      fst.others id lies other]

theorem around_grown (name : String) (kind : ScopeKind) (span : Span) :
    t.Around (t.grown t.current name kind span) where
  current := rfl
  length := by
    rw [length_grown]
    exact Nat.le_succ _
  others _ lies other := node_grown_other lies other

section

variable {kind : ScopeKind} {span : Span} (nodes : t'.nodes = t.nodes)
  (inner : ((t'.grown t.current name kind span).moveTo t.size).Around t'')

include nodes inner

theorem Around.entered : t.size ≤ t''.size ∧ ∀ id < t.size,
    t''.node id = (t'.grown t.current name kind span).node id := by
  have length : ((t'.grown t.current name kind span).moveTo t.size).size = t.size + 1 :=
    length_grown.trans (congrArg (·.length + 1) nodes)
  have longer := inner.length
  rw [length] at longer
  refine ⟨Nat.le_of_succ_le longer, fun id lies => ?_⟩
  exact inner.others id (by rw [length]; exact Nat.lt_succ_of_lt lies) (Nat.ne_of_lt lies)

theorem Around.nested : t.Around (t''.moveTo t.current) := by
  obtain ⟨longer, kept⟩ := inner.entered nodes
  refine ⟨rfl, longer, fun id lies other => ?_⟩
  refine (kept id lies).trans ((node_grown_other (by rwa [size, nodes]) other).trans ?_)
  rw [node, node, nodes]

end

end ScopeTree

/-- A variable of a body, with the number of its stack slot. -/
structure Local where
  name : String
  type : ScalarType
  slot : Nat
  deriving DecidableEq, Repr, Inhabited

namespace Local

def entry (v : Local) : VariableEntry :=
  { type := v.type.ty, storage := .slot (.temp v.slot), constant := false }

def typing (vars : List Local) : Typing :=
  vars.map fun v => (v.name, v.type)

def named? (vars : List Local) (name : String) : Option Local :=
  vars.find? (·.name = name)

theorem lookup_typing {vars : List Local} :
    (typing vars).lookup name = (named? vars name).map Local.type := by
  induction vars with
  | nil => rfl
  | cons v vars ih =>
  rw [typing, map_cons, lookup_cons, named?, find?_cons]
  by_cases same : v.name = name
  · simp [same]
  rw [beq_false_of_ne (.symm same), decide_eq_false same]
  exact ih

theorem named_name {vars : List Local} {v : Local}
    (got : named? vars name = some v) : v.name = name := by
  simpa using find?_some got

end Local

namespace ScopeTree

variable {t t' t'' : ScopeTree} {scope : ScopeId} {vars : List Local}

def Sees (t : ScopeTree) (scope : ScopeId) (vars : List Local) : Prop :=
  ∀ name v, isWritten name → Local.named? vars name = some v →
    ∃ id, t.findFrom? scope name = some id ∧ t.kind id = .var v.entry

theorem written_ne {name generated : String} (written : isWritten name)
    (mark : '#' ∈ generated.toList) : name ≠ generated := by
  rintro rfl
  exact of_decide_eq_true written mark

theorem lt_of_var {id : ScopeId} {e : VariableEntry} (kind : t.kind id = .var e) : id < t.size :=
  lt_of_kind_ne_block (by rw [kind]; simp)

section

variable (sees : t.Sees scope vars)
include sees

theorem Sees.bind (lies : scope < t.size) (v : Local)
    (span : Span) : (t.grown scope v.name (.var v.entry) span).Sees scope (v :: vars) := by
  intro name w written got
  rw [Local.named?, find?_cons] at got
  by_cases same : v.name = name
  · subst same
    rw [decide_eq_true rfl] at got
    cases got
    exact ⟨t.size, findFrom_child (findChild_grown_same lies), kind_grown_new lies⟩
  rw [decide_eq_false same] at got
  obtain ⟨id, lookup, kind⟩ := sees name w written got
  refine ⟨id, ?_, (kind_grown_old (lt_of_var kind)).trans kind⟩
  rw [findFrom_grown_other lies (.symm same), lookup]

theorem Sees.congr (nodes : t'.nodes = t.nodes) : t'.Sees scope vars := by
  have node : ∀ id, t'.node id = t.node id := fun id => by rw [ScopeTree.node, ScopeTree.node, nodes]
  intro name v written got
  obtain ⟨id, lookup, kind⟩ := sees name v written got
  refine ⟨id, (findFrom_congr fun a _ => node a).trans lookup, ?_⟩
  rw [ScopeTree.kind, node]
  exact kind

theorem Sees.mark (lies : scope < t.size)
    (mark : '#' ∈ name.toList) (kind : ScopeKind) (span : Span) :
    (t.grown scope name kind span).Sees scope vars := by
  intro other v written got
  obtain ⟨id, lookup, var⟩ := sees other v written got
  refine ⟨id, ?_, (kind_grown_old (lt_of_var var)).trans var⟩
  rw [findFrom_grown_other lies (written_ne written mark), lookup]

theorem Sees.inside (lies : scope < t.size)
    (mark : '#' ∈ name.toList) (kind : ScopeKind) (span : Span) :
    (t.grown scope name kind span).Sees t.size vars := by
  intro other v written got
  obtain ⟨id, lookup, var⟩ := sees.mark lies mark kind span other v written got
  refine ⟨id, ?_, var⟩
  rw [← lookup]
  refine findFrom_parent ?_ (parent_grown_new lies) lies
  rw [findChild?, node_grown_new lies]
  rfl

end

/-- Behind a block everything is seen that was seen in front of it. -/
theorem Sees.behind {span : Span} (sees : t.Sees t.current vars)
    (alive : t.current < t.size) (mark : '#' ∈ name.toList) (nodes : t'.nodes = t.nodes)
    (inner : ((t'.grown t.current name .block span).moveTo t.size).Around t'') :
    (t''.moveTo t.current).Sees t.current vars := by
  have alive' : t.current < t'.size := by rwa [size, nodes]
  have seen := (sees.congr nodes).mark alive' mark .block span
  obtain ⟨-, kept⟩ := inner.entered nodes
  intro other v written got
  obtain ⟨id, lookup, kind⟩ := seen other v written got
  refine ⟨id, ?_, ?_⟩
  · rw [← lookup]
    refine findFrom_congr fun a upTo => ?_
    exact kept a (Nat.lt_of_le_of_lt upTo alive)
  -- The variable is not the new block, so it was there before.
  have bounded := lt_of_var kind
  rw [length_grown, size, nodes] at bounded
  rcases Nat.lt_or_eq_of_le (Nat.le_of_lt_succ bounded) with before | rfl
  · exact (congrArg ScopeNode.kind (kept id before)).trans kind
  rw [← nodes, kind_grown_new alive'] at kind
  cases kind

end ScopeTree

end Stencil
