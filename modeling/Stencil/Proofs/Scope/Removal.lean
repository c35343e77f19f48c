import Stencil.Proofs.Scope.Shape

namespace Stencil

open ScopeKind List

namespace ScopeKind

def isMember : ScopeKind → Bool
  | function _ | typeAlias _ | var _ | block => true
  | _ => false

theorem isMember_of_alias {k : ScopeKind} (isAlias : k.alias?.isSome) :
    k.isMember := by
  cases k <;> first | rfl | cases isAlias

theorem isMember_of_template {k : ScopeKind} (isTemplate : k.template?.isSome) :
    k.isMember = false := by
  cases k <;> first | rfl | cases isTemplate

theorem isMember_of_admits {outer inner : ScopeKind}
    (holds : outer.isMember ∨ outer.template?.isSome)
    (admits : outer.admits inner) : inner.isMember := by
  cases inner <;> first | rfl | skip
  all_goals
    cases outer <;> simp [ScopeKind.admits, isNamespace, isMember, template?] at admits holds

end ScopeKind

namespace ScopeTree

variable {t : ScopeTree} {id : ScopeId}

def cleared (n : ScopeNode) : ScopeNode :=
  { n with alive := false, names := [], order := [] }

def without (name : String) (id : ScopeId) (n : ScopeNode) : ScopeNode :=
  { n with names := n.names.filter (·.1 != name), order := n.order.filter (· != id) }

def detached (t : ScopeTree) (id : ScopeId) : ScopeTree :=
  match t.parent? id with
  | some parent => t.modifyNode parent (without (t.name id) id)
  | none => t

def removed (t : ScopeTree) (id : ScopeId) : List ScopeId :=
  (t.detached id).below t.size id

theorem length_detached : (t.detached id).size = t.size := by
  unfold detached
  split <;> simp

theorem remove_eq (t : ScopeTree) (id : ScopeId) : t.remove id =
      (let gone := (t.removed id).foldl (fun t i => t.modifyNode i cleared) (t.detached id)
       if gone.isAlive gone.current then gone else gone.moveTo root) := by
  rw [removed, ← @length_detached t id]
  rfl

theorem node_clear_all {gone : List ScopeId} {t : ScopeTree} {i : ScopeId} :
    (gone.foldl (fun t i => t.modifyNode i cleared) t).node i =
      if i ∈ gone then cleared (t.node i) else t.node i := by
  induction gone generalizing t with
  | nil => simp
  | cons fst rest ih =>
  rw [foldl_cons, ih]
  by_cases same : i = fst
  · subst same
    have here : (t.modifyNode i cleared).node i = cleared (t.node i) := by
      by_cases lies : i < t.size
      · rw [node_modifyNode_same lies]
      have outside := Nat.le_of_not_lt lies
      rw [node_outside outside, node_outside (by simpa using outside)]
      rfl
    rw [here, if_pos (mem_cons_self ..)]
    exact ite_self (cleared (t.node i))
  rw [node_modifyNode_other same]
  simp [same]

theorem current_clear_all {gone : List ScopeId} {t : ScopeTree} :
    (gone.foldl (fun t i => t.modifyNode i cleared) t).current = t.current := by
  induction gone generalizing t with
  | nil => rfl
  | cons fst rest ih =>
    rw [foldl_cons, ih]
    rfl

theorem length_clear_all (gone : List ScopeId) (t : ScopeTree) :
    (gone.foldl (fun t i => t.modifyNode i cleared) t).size = t.size := by
  induction gone generalizing t with
  | nil => rfl
  | cons fst rest ih =>
    rw [foldl_cons, ih]
    simp

theorem length_remove (t : ScopeTree) (id : ScopeId) : (t.remove id).size = t.size := by
  rw [remove_eq]
  dsimp only
  split
  · rw [length_clear_all, length_detached]
  · rw [moveTo, length_clear_all, length_detached]

theorem node_remove (t : ScopeTree) (id i : ScopeId) : (t.remove id).node i =
      if i ∈ t.removed id then cleared ((t.detached id).node i) else (t.detached id).node i := by
  rw [remove_eq]
  dsimp only
  split
  · exact node_clear_all
  · exact node_clear_all

variable {i : ScopeId}

theorem node_detached_other (other : t.parent? id ≠ some i) :
    (t.detached id).node i = t.node i := by
  unfold detached
  split
  · rename_i parent up
    exact node_modifyNode_other (fun same => other (same ▸ up))
  · rfl

theorem node_detached_parent {p : ScopeId} (up : t.parent? id = some p)
    (lies : p < t.size) : (t.detached id).node p = without (t.name id) id (t.node p) := by
  rw [detached, up]
  exact node_modifyNode_same lies

theorem remove_proj {β : Type} (π : ScopeNode → β)
    (cleared_same : ∀ n, π (cleared n) = π n) (without_same : ∀ name id n, π (without name id n) = π n)
    {t : ScopeTree} {id i : ScopeId} : π ((t.remove id).node i) = π (t.node i) := by
  have before : π ((t.detached id).node i) = π (t.node i) := by
    unfold detached
    split
    · exact modifyNode_proj π (without_same _ _ _) i
    · rfl
  rw [node_remove]
  split
  · rw [cleared_same, before]
  · exact before

theorem kind_remove (t : ScopeTree) (id i : ScopeId) : (t.remove id).kind i = t.kind i :=
  remove_proj ScopeNode.kind (fun _ => rfl) (fun _ _ _ => rfl)

theorem parent_remove (t : ScopeTree) (id i : ScopeId) : (t.remove id).parent? i = t.parent? i :=
  remove_proj ScopeNode.parent (fun _ => rfl) (fun _ _ _ => rfl)

theorem name_remove (t : ScopeTree) (id i : ScopeId) : (t.remove id).name i = t.name i :=
  remove_proj ScopeNode.name (fun _ => rfl) (fun _ _ _ => rfl)

theorem children_detached {t : ScopeTree} {id i : ScopeId} :
    (t.detached id).children i = t.children i ∨
      (t.detached id).children i = (t.children i).filter (· != id) := by
  by_cases up : t.parent? id = some i
  · by_cases lies : i < t.size
    · refine .inr ?_
      rw [children, node_detached_parent up lies]
      rfl
    have outside := Nat.le_of_not_lt lies
    refine .inl ?_
    rw [children, children, node_outside outside,
      node_outside (by rw [length_detached]; exact outside)]
  · exact .inl (by rw [children, node_detached_other up]; rfl)

theorem mem_children_detached {i child : ScopeId} (mem : child ∈ (t.detached id).children i) :
    child ∈ t.children i := by
  rcases children_detached with same | same <;> rw [same] at mem
  · exact mem
  · exact (mem_filter.mp mem).1

theorem Shaped.mem_removed (shaped : t.Shaped)
    (holds : (t.kind id).isMember ∨ (t.kind id).template?.isSome) :
    ∀ i ∈ t.removed id, i = id ∨ (id < i ∧ (t.kind i).isMember) := by
  have descend : ∀ depth y, (t.kind y).isMember ∨ (t.kind y).template?.isSome →
      ∀ x ∈ (t.detached id).below depth y, x = y ∨ (y < x ∧ (t.kind x).isMember) := by
    intro depth
    induction depth with
    | zero =>
      intro y _ x mem
      exact .inl (mem_singleton.mp mem)
    | succ depth ih =>
    intro y holds x mem
    rcases mem_cons.mp mem with rfl | deeper
    · exact .inl rfl
    obtain ⟨child, has, inner⟩ := mem_flatMap.mp deeper
    have up := shaped.ordered y child (mem_children_detached has)
    have younger := shaped.parents child y up
    have isMember := isMember_of_admits holds (shaped.admitted child y up)
    rcases ih child (.inl isMember) x inner with rfl | ⟨below, kind⟩
    · exact .inr ⟨younger, isMember⟩
    · exact .inr ⟨Nat.lt_trans younger below, kind⟩
  exact descend t.size id holds

theorem self_mem_removed {t : ScopeTree} {id : ScopeId} : id ∈ t.removed id := by
  rw [removed]
  cases t.size with
  | zero => exact mem_singleton.mpr rfl
  | succ => exact .head _

theorem alive_remove_self (t : ScopeTree) (id : ScopeId) : (t.remove id).isAlive id = false := by
  rw [isAlive, node_remove, if_pos (self_mem_removed)]
  rfl

theorem alive_of_alive_remove (alive : (t.remove id).isAlive i) : t.isAlive i := by
  rw [isAlive, node_remove] at alive
  split at alive
  · cases alive
  unfold detached at alive
  split at alive
  · rwa [modifyNode_proj ScopeNode.alive (by rfl) i] at alive
  · exact alive

theorem not_mem_removed_of_alive (alive : (t.remove id).isAlive i) : i ∉ t.removed id := by
  intro gone
  rw [isAlive, node_remove, if_pos gone] at alive
  cases alive

theorem lists_remove_gone (gone : i ∈ t.removed id) :
    ((t.remove id).node i).names = [] ∧ (t.remove id).children i = [] := by
  rw [children, node_remove, if_pos gone]
  exact ⟨rfl, rfl⟩

theorem alive_remove_other (kept : i ∉ t.removed id) : (t.remove id).isAlive i = t.isAlive i := by
  rw [isAlive, node_remove, if_neg kept]
  unfold detached
  split
  · exact modifyNode_proj ScopeNode.alive (by rfl) i
  · rfl

theorem fields_remove (kept : i ∉ t.removed id) (plain : (t.kind id).var? = none) :
    (t.remove id).fields i = t.fields i := by
  have order : (t.remove id).children i = (t.detached id).children i := by
    rw [children, node_remove, if_neg kept]
    rfl
  rw [fields, fields, order]
  simp only [kind_remove]
  rcases children_detached with same | same
  · rw [same]
  rw [same, filterMap_filter]
  refine filterMap_congr ?_
  intro child _
  by_cases gone : child = id
  · subst gone
    simp [plain]
  · simp [gone]

theorem fields_remove_self (t : ScopeTree) (id : ScopeId) : (t.remove id).fields id = [] := by
  rw [fields, (lists_remove_gone (self_mem_removed)).2]
  rfl

namespace Indexed

variable {a : ScopeId}

theorem le_of_mem_removed (indexed : t.Indexed) (gone : i ∈ t.removed id) : id ≤ i := by
  have descend : ∀ depth y, ∀ x ∈ (t.detached id).below depth y, y ≤ x := by
    intro depth
    induction depth with
    | zero =>
      intro y x mem
      exact Nat.le_of_eq (mem_singleton.mp mem).symm
    | succ depth ih =>
    intro y x mem
    rcases mem_cons.mp mem with rfl | deeper
    · exact .refl
    obtain ⟨child, has, inner⟩ := mem_flatMap.mp deeper
    have below := indexed.younger y child (mem_children_detached has)
    exact Nat.le_trans (Nat.le_of_lt below) (ih child x inner)
  exact descend t.size id i gone

/-- The children of a removed scope are removed with it. -/
theorem removed_closed (indexed : t.Indexed) (gone : a ∈ t.removed id)
    (has : i ∈ t.children a) : i ∈ t.removed id := by
  have descend : ∀ depth y x, x ∈ (t.detached id).below depth y → x < y + depth →
      ∀ c ∈ (t.detached id).children x, c ∈ (t.detached id).below depth y := by
    intro depth
    induction depth with
    | zero =>
      intro y x mem bound
      rw [mem_singleton.mp mem] at bound
      exact absurd bound (Nat.lt_irrefl y)
    | succ depth ih =>
    intro y x mem _ c inner
    refine .tail y (mem_flatMap.mpr ?_)
    rcases mem_cons.mp mem with rfl | deeper
    · refine ⟨c, inner, ?_⟩
      cases depth with
      | zero => exact mem_singleton.mpr rfl
      | succ => exact .head _
    obtain ⟨middle, step, got⟩ := mem_flatMap.mp deeper
    have below := indexed.younger y middle (mem_children_detached step)
    have bound' : x < middle + depth := by
      simp only [Nat.lt_iff_add_one_le] at *
      omega
    exact ⟨middle, step, ih middle x got bound' c inner⟩
  have outside : t.parent? id ≠ some a := fun up =>
    Nat.not_le_of_lt (indexed.parents id a up) (indexed.le_of_mem_removed gone)
  have same : (t.detached id).children a = t.children a := by
    rw [children, node_detached_other outside]
    rfl
  have lies := Nat.lt_trans (indexed.younger a i has) (lt_of_parent (indexed.ordered a i has))
  exact descend t.size id a gone (Nat.lt_of_lt_of_le lies (Nat.le_add_left _ _)) i (same ▸ has)

theorem parent_mem_removed (indexed : t.Indexed) (gone : i ∈ t.removed id) :
    i = id ∨ ∃ p ∈ t.removed id, t.parent? i = some p := by
  have descend : ∀ depth y, ∀ x ∈ (t.detached id).below depth y,
      x = y ∨ ∃ p ∈ (t.detached id).below depth y, t.parent? x = some p := by
    intro depth
    induction depth with
    | zero => exact fun y x mem => .inl (mem_singleton.mp mem)
    | succ depth ih =>
    intro y x mem
    rcases mem_cons.mp mem with rfl | deeper
    · exact .inl rfl
    obtain ⟨child, has, inner⟩ := mem_flatMap.mp deeper
    refine .inr ?_
    rcases ih child x inner with rfl | ⟨p, lies, up⟩
    · exact ⟨y, .head _, indexed.ordered y x (mem_children_detached has)⟩
    · exact ⟨p, .tail _ (mem_flatMap.mpr ⟨child, has, lies⟩), up⟩
  exact descend t.size id i gone

theorem not_mem_removed (indexed : t.Indexed) (kept : a ∉ t.removed id)
    (up : t.parent? i = some a) (other : i ≠ id) : i ∉ t.removed id := by
  intro gone
  rcases indexed.parent_mem_removed gone with same | ⟨p, outer, around'⟩
  · exact other same
  · exact kept (Option.some.inj (up.symm.trans around') ▸ outer)

theorem lists_remove (indexed : t.Indexed) (live : t.isAlive id) (kept : a ∉ t.removed id) :
    ((t.remove id).node a).names = (t.node a).names.filter (·.2 != id) ∧
      (t.remove id).children a = (t.children a).filter (· != id) := by
  rw [children, node_remove, if_neg kept]
  by_cases up : t.parent? id = some a
  · have lies := indexed.parent_lt up
    rw [node_detached_parent up lies]
    refine ⟨filter_congr fun entry mem => ?_, rfl⟩
    -- The names of a scope and its children lose the same one.
    have own := indexed.present id a live up
    rw [Bool.eq_iff_iff, bne_iff_ne, bne_iff_ne, not_iff_not]
    constructor
    · intro same
      exact congrArg Prod.snd (inj_on_of_nodup_map (indexed.distinct a) mem own same)
    intro same
    rw [← (indexed.named a entry.1 entry.2 mem).2, same]
  have apart : ∀ i, t.parent? i = some a → (i != id) := fun i lies =>
    bne_iff_ne.mpr fun same => up (same ▸ lies)
  rw [node_detached_other up]
  exact ⟨(filter_eq_self.mpr fun entry mem =>
      apart entry.2 (indexed.named a entry.1 entry.2 mem).1).symm,
    (filter_eq_self.mpr fun i mem => apart i (indexed.ordered a i mem)).symm⟩

theorem remove (indexed : t.Indexed) (live : t.isAlive id) : (t.remove id).Indexed := by
  have fewer : ∀ a, ((t.remove id).node a).names.Sublist (t.node a).names := by
    intro a
    by_cases gone : a ∈ t.removed id
    · rw [(lists_remove_gone gone).1]
      exact nil_sublist _
    rw [(indexed.lists_remove live gone).1]
    exact filter_sublist
  constructor
  case parents =>
    intro i p
    rw [parent_remove]
    exact indexed.parents i p
  case named =>
    intro a name i mem
    rw [parent_remove, name_remove]
    exact indexed.named a name i ((fewer a).subset mem)
  case same =>
    intro a
    by_cases gone : a ∈ t.removed id
    · obtain ⟨names, order⟩ := lists_remove_gone gone
      rw [names, order]
      exact .nil
    obtain ⟨names, order⟩ := indexed.lists_remove live gone
    rw [names, order]
    have filtered := (indexed.same a).filter (· != id)
    rwa [filter_map] at filtered
  case distinct => exact fun a => (indexed.distinct a).sublist ((fewer a).map _)
  case present =>
    intro i p alive up
    rw [parent_remove] at up
    have entry := indexed.present i p (alive_of_alive_remove alive) up
    have stays := not_mem_removed_of_alive alive
    -- A scope in a removed one is removed itself.
    have kept : p ∉ t.removed id := fun gone =>
      stays (indexed.removed_closed gone (indexed.mem_children entry))
    rw [name_remove, (indexed.lists_remove live kept).1]
    refine mem_filter.mpr ⟨entry, bne_iff_ne.mpr ?_⟩
    rintro rfl
    exact stays (self_mem_removed)

end Indexed

theorem Shaped.remove (shaped : t.Shaped) (alive : t.isAlive id)
    (holds : (t.kind id).isMember ∨ (t.kind id).template?.isSome) :
    (t.remove id).Shaped where
  toIndexed := shaped.toIndexed.remove alive
  root := by rw [kind_remove, shaped.root]
  rooted i := by
    rw [parent_remove, length_remove]
    exact shaped.rooted i
  admitted i p := by
    rw [parent_remove, kind_remove, kind_remove]
    exact shaped.admitted i p
  namespaces i isNamespace := by
    rw [kind_remove] at isNamespace
    have kept : i ∉ t.removed id := by
      intro gone
      have other : (t.kind i).isMember ∨ (t.kind i).template?.isSome := by
        rcases shaped.mem_removed holds i gone with rfl | ⟨-, mem⟩
        · exact holds
        · exact .inl mem
      cases kind : t.kind i <;> rw [kind] at isNamespace other <;>
        simp [ScopeKind.isNamespace, ScopeKind.isMember, ScopeKind.template?] at isNamespace other
    rw [alive_remove_other kept]
    exact shaped.namespaces i isNamespace

theorem Shaped.extends_remove {t0 : ScopeTree} {spared : List ScopeId} (shaped : t.Shaped)
    (before : t0.Extends spared t) (young : t0.size ≤ id)
    (holds : (t.kind id).alias?.isSome ∨ (t.kind id).template?.isSome) :
    t0.Extends spared (t.remove id) := by
  have mem := holds.imp_left isMember_of_alias
  have plain : (t.kind id).var? = none := by
    cases kind : t.kind id <;> rw [kind] at holds <;> first | rfl | simp [alias?, template?] at holds
  have kept : ∀ i, i < t0.size → i ∉ t.removed id := by
    intro i lies gone
    have older := Nat.lt_of_lt_of_le lies young
    rcases shaped.mem_removed mem i gone with rfl | ⟨younger, -⟩
    · exact Nat.lt_irrefl _ older
    · exact Nat.lt_asymm older younger
  constructor
  case length => rw [length_remove]; exact before.length
  case parent => intro i lies; rw [parent_remove, before.parent i lies]
  case name => intro i lies; rw [name_remove, before.name i lies]
  case alive => intro i lies; rw [alive_remove_other (kept i lies), before.alive i lies]
  case kind => intro i lies; rw [kind_remove]; exact before.kind i lies
  case fields =>
    intro i lies template
    rw [fields_remove (kept i lies) plain]
    exact before.fields i lies template

theorem current_detached : (t.detached id).current = t.current := by
  unfold detached
  split <;> rfl

theorem current_remove_cases (t : ScopeTree) (id : ScopeId) :
    (t.remove id).current = t.current ∨ (t.remove id).current = root := by
  rw [remove_eq]
  dsimp only
  split
  · exact .inl ((current_clear_all).trans current_detached)
  · exact .inr rfl

theorem Shaped.current_remove (shaped : t.Shaped)
    (holds : (t.kind id).isMember ∨ (t.kind id).template?.isSome)
    (older : t.current < id) (alive : t.isAlive t.current) :
    (t.remove id).current = t.current := by
  have kept : t.current ∉ t.removed id := by
    intro gone
    rcases shaped.mem_removed holds _ gone with same | ⟨younger, -⟩
    · exact absurd (same ▸ older) (Nat.lt_irrefl _)
    · exact Nat.lt_asymm older younger
  have live := (alive_remove_other kept).trans alive
  rw [remove_eq] at live ⊢
  dsimp only at live ⊢
  split
  · rw [current_clear_all, current_detached]
  rename_i dead
  refine absurd ?_ dead
  rw [current_clear_all, current_detached]
  rw [if_neg dead] at live
  exact live

theorem Shaped.names_remove (shaped : t.Shaped) {a : ScopeId}
    (holds : (t.kind id).alias?.isSome ∨ (t.kind id).template?.isSome)
    (older : a < id) (body : (t.kind a).isBody) :
    ((t.remove id).node a).names = (t.node a).names := by
  have mem := holds.imp_left ScopeKind.isMember_of_alias
  have kept : a ∉ t.removed id := by
    intro gone
    rcases shaped.mem_removed mem a gone with rfl | ⟨younger, -⟩
    · exact Nat.lt_irrefl _ older
    · exact Nat.lt_asymm older younger
  have outside : t.parent? id ≠ some a := by
    intro up
    have admits := shaped.admitted id a up
    cases outer : t.kind a <;> rw [outer] at body admits <;>
      simp only [ScopeKind.isBody, Bool.false_eq_true] at body
    all_goals
      cases kind : t.kind id <;> rw [kind] at holds admits <;>
        simp [ScopeKind.alias?, ScopeKind.template?, ScopeKind.admits, ScopeKind.isNamespace,
          ScopeKind.isType] at holds admits
  rw [node_remove, if_neg kept, node_detached_other outside]

end ScopeTree

end Stencil
