import Stencil.Proofs.Scope.Removal

namespace Stencil.ScopeTree

open Bool List

/-- The three ways in which a tree keeps its children agree. Scopes that are gone have none. -/
structure Consistent (t : ScopeTree) : Prop where
  root : t.isAlive root
  current : t.isAlive t.current
  parents : ∀ id p, t.parent? id = some p → p < id
  same : ∀ a, t.isAlive a → ((t.node a).names.map Prod.snd).Perm (t.children a)
  once : ∀ a, t.isAlive a → (t.children a).Nodup
  names : ∀ a, t.isAlive a → ((t.node a).names.map Prod.fst).Nodup
  child : ∀ a, t.isAlive a → ∀ name id, (name, id) ∈ (t.node a).names →
    t.isAlive id ∧ t.parent? id = some a ∧ t.name id = name
  parent : ∀ id, t.isAlive id → id ≠ ScopeTree.root →
    ∃ p, t.parent? id = some p ∧ t.isAlive p ∧ id ∈ t.children p
  bare : ∀ a, t.isAlive a = false → (t.node a).names = [] ∧ t.children a = []

namespace Consistent

variable {t : ScopeTree} {a id i : ScopeId} {name : String}

theorem alive_of_mem_names {entry : String × ScopeId} (consistent : t.Consistent)
    (mem : entry ∈ (t.node a).names) : t.isAlive a := by
  by_contra dead
  rw [(consistent.bare a (Bool.eq_false_iff.mpr dead)).1] at mem
  cases mem

theorem indexed (consistent : t.Consistent) : t.Indexed where
  parents := consistent.parents
  named a name id entry :=
    (consistent.child a (consistent.alive_of_mem_names entry) name id entry).2
  same a := by
    cases alive : t.isAlive a with
    | true => exact consistent.same a alive
    | false =>
      obtain ⟨names, order⟩ := consistent.bare a alive
      rw [names, order]
      exact .nil
  distinct a := by
    cases alive : t.isAlive a with
    | true => exact consistent.names a alive
    | false =>
      rw [(consistent.bare a alive).1]
      exact List.nodup_nil
  present id p alive up := by
    have inner : id ≠ ScopeTree.root := by
      rintro rfl
      exact Nat.not_lt_zero p (consistent.parents _ p up)
    obtain ⟨_, around', outer, mem⟩ := consistent.parent id alive inner
    cases up.symm.trans around'
    obtain ⟨⟨name, id⟩, entry, rfl⟩ := mem_map.mp ((consistent.same p outer).mem_iff.mpr mem)
    obtain ⟨-, -, rfl⟩ := consistent.child p outer name id entry
    exact entry

theorem of_indexed (indexed : t.Indexed) (root : t.isAlive ScopeTree.root)
    (current : t.isAlive t.current)
    (child : ∀ a name id, (name, id) ∈ (t.node a).names → t.isAlive a ∧ t.isAlive id)
    (parent : ∀ id, t.isAlive id → id ≠ ScopeTree.root →
      ∃ p, t.parent? id = some p ∧ t.isAlive p) : t.Consistent where
  root := root
  current := current
  parents := indexed.parents
  same a _ := indexed.same a
  once a _ := indexed.once a
  names a _ := indexed.distinct a
  child a _ name id entry := ⟨(child a name id entry).2, indexed.named a name id entry⟩
  parent id alive inner := by
    obtain ⟨p, up, outer⟩ := parent id alive inner
    exact ⟨p, up, outer, indexed.mem_children (indexed.present id p alive up)⟩
  bare a dead := by
    have none : (t.node a).names = [] := by
      refine eq_nil_iff_forall_not_mem.mpr fun entry mem => ?_
      rw [(child a entry.1 entry.2 mem).1] at dead
      cases dead
    have same := indexed.same a
    rw [none] at same
    exact ⟨none, nil_perm.mp same⟩

theorem alive_of_mem_ancestors (consistent : t.Consistent) (alive : t.isAlive i) :
    ∀ a ∈ t.ancestors i, t.isAlive a := by
  induction i using Nat.strongRecOn with
  | ind i ih =>
  intro a mem
  rcases mem_ancestors mem with rfl | ⟨p, up, below, outer⟩
  · exact alive
  have inner : i ≠ ScopeTree.root := by
    rintro rfl
    exact Nat.not_lt_zero p below
  obtain ⟨_, around', live, -⟩ := consistent.parent i alive inner
  cases up.symm.trans around'
  exact ih p below live a outer

theorem alive_of_findChild (consistent : t.Consistent) (alive : t.isAlive a)
    (got : t.findChild? a name = some id) : t.isAlive id :=
  (consistent.child a alive name id (mem_names_of_findChild got)).1

theorem alive_of_findFrom (consistent : t.Consistent) (alive : t.isAlive a)
    (got : t.findFrom? a name = some id) : t.isAlive id := by
  obtain ⟨outer, up, here⟩ := findFrom_some got
  exact consistent.alive_of_findChild (consistent.alive_of_mem_ancestors alive outer up) here

theorem alive_of_find (consistent : t.Consistent) (got : t.find? name = some id) : t.isAlive id :=
  consistent.alive_of_findFrom consistent.current got

theorem new (moduleName : String) : (ScopeTree.new moduleName).Consistent := by
  refine of_indexed (.new moduleName) rfl rfl ?_ ?_
  · intro a _ _ mem
    rw [names_new] at mem
    cases mem
  intro _ alive inner
  rw [isAlive, node_new moduleName inner] at alive
  cases alive

theorem moveTo (consistent : t.Consistent) (alive : t.isAlive id) : (t.moveTo id).Consistent :=
  { consistent with current := alive }

theorem generated (consistent : t.Consistent) (stem : String) :
    (t.generateName stem).2.Consistent :=
  { consistent with }

section

variable {parent : ScopeId} {kind : ScopeKind} {span : Span}

theorem grown (consistent : t.Consistent) (alive : t.isAlive parent)
    (fresh : t.findChild? parent name = none) : (t.grown parent name kind span).Consistent := by
  have lies := lt_of_alive alive
  have old : ∀ {i}, t.isAlive i → (t.grown parent name kind span).isAlive i :=
    fun live => (alive_grown_old (lt_of_alive live)).trans live
  refine of_indexed (consistent.indexed.grown lies fresh) (old consistent.root)
    (old consistent.current) ?_ ?_
  · intro a other i mem
    rcases names_grown_cases lies mem with ⟨rfl, new⟩ | entry
    · obtain ⟨rfl, rfl⟩ := Prod.mk.inj new
      exact ⟨old alive, alive_grown_new lies⟩
    have live := consistent.alive_of_mem_names entry
    exact ⟨old live, old (consistent.child a live other i entry).1⟩
  intro i live inner
  have bound := lt_of_alive live
  rw [length_grown] at bound
  rcases Nat.lt_or_eq_of_le (Nat.le_of_lt_succ bound) with before | rfl
  · rw [alive_grown_old before] at live
    obtain ⟨p, up, outer, -⟩ := consistent.parent i live inner
    exact ⟨p, (parent_grown_old before).trans up, old outer⟩
  · exact ⟨parent, parent_grown_new lies, old alive⟩

end

theorem current_alive_remove (alive : (t.remove id).isAlive ScopeTree.root) :
    (t.remove id).isAlive (t.remove id).current := by
  rw [remove_eq] at alive ⊢
  dsimp only at alive ⊢
  split
  · assumption
  rename_i dead
  rw [if_neg dead] at alive
  exact alive

theorem remove (consistent : t.Consistent) (live : t.isAlive id)
    (inner : id ≠ ScopeTree.root) : (t.remove id).Consistent := by
  have indexed := consistent.indexed
  have after : ∀ {i}, t.isAlive i → i ∉ t.removed id → (t.remove id).isAlive i :=
    fun alive kept => (alive_remove_other kept).trans alive
  have rooted : ScopeTree.root ∉ t.removed id := fun gone =>
    inner (Nat.le_zero.mp (indexed.le_of_mem_removed gone))
  have root := after consistent.root rooted
  refine of_indexed (indexed.remove live) root (current_alive_remove root) ?_ ?_
  · intro a name i mem
    by_cases gone : a ∈ t.removed id
    · rw [(lists_remove_gone gone).1] at mem
      cases mem
    rw [(indexed.lists_remove live gone).1] at mem
    obtain ⟨entry, other⟩ := mem_filter.mp mem
    have outer := consistent.alive_of_mem_names entry
    obtain ⟨alive, up, -⟩ := consistent.child a outer name i entry
    exact ⟨after outer gone, after alive (indexed.not_mem_removed gone up (bne_iff_ne.mp other))⟩
  intro i alive other
  obtain ⟨p, up, outer, mem⟩ := consistent.parent i (alive_of_alive_remove alive) other
  refine ⟨p, (parent_remove t id i).trans up, after outer fun gone => ?_⟩
  exact not_mem_removed_of_alive alive (indexed.removed_closed gone mem)

end Consistent

/-- An operation that changes a tree. -/
inductive Operation where
  | add (name : String) (kind : ScopeKind) (span : Span)
  | addChild (parent : ScopeId) (name : String) (kind : ScopeKind) (span : Span)
  | moveTo (id : ScopeId)
  | generateName (stem : String)
  | remove (id : ScopeId)

def permits (t : ScopeTree) : Operation → Bool
  | .addChild parent _ _ _ => t.isAlive parent
  | .moveTo id => t.isAlive id
  | .remove id => t.isAlive id && id != root
  | .add .. | .generateName _ => true

/-- The tree after an operation. A name that is taken is not added. -/
def apply (t : ScopeTree) : Operation → ScopeTree
  | .add name kind span => ((t.add name kind span).map Prod.snd).toOption.getD t
  | .addChild parent name kind span =>
    ((t.addChild parent name kind span).map Prod.snd).toOption.getD t
  | .moveTo id => t.moveTo id
  | .generateName stem => (t.generateName stem).2
  | .remove id => t.remove id

def permitsAll (t : ScopeTree) : List Operation → Bool
  | [] => true
  | op :: ops => t.permits op && (t.apply op).permitsAll ops

def applyAll (t : ScopeTree) (ops : List Operation) : ScopeTree :=
  ops.foldl apply t

section

variable {t : ScopeTree} {op : Operation} {ops : List Operation} {id i : ScopeId}

theorem apply_addChild_cases (t : ScopeTree) (parent : ScopeId) (name : String) (kind : ScopeKind)
    (span : Span) :
    ((t.addChild parent name kind span).map Prod.snd).toOption.getD t = t ∨
      t.findChild? parent name = none ∧
        ((t.addChild parent name kind span).map Prod.snd).toOption.getD t =
          t.grown parent name kind span := by
  rw [addChild_eq]
  split
  · exact .inl rfl
  rename_i free
  exact .inr ⟨Option.not_isSome_iff_eq_none.mp free, rfl⟩

theorem Consistent.addChild (consistent : t.Consistent) {parent : ScopeId}
    (alive : t.isAlive parent) (name : String) (kind : ScopeKind) (span : Span) :
    (((t.addChild parent name kind span).map Prod.snd).toOption.getD t).Consistent := by
  rcases t.apply_addChild_cases parent name kind span with same | ⟨fresh, grown⟩
  · rw [same]
    exact consistent
  rw [grown]
  exact consistent.grown alive fresh

theorem Consistent.apply (consistent : t.Consistent) (permitted : t.permits op) :
    (t.apply op).Consistent := by
  cases op with
  | add name kind span => exact consistent.addChild consistent.current name kind span
  | addChild parent name kind span => exact consistent.addChild permitted name kind span
  | moveTo => exact consistent.moveTo permitted
  | generateName stem => exact consistent.generated stem
  | remove =>
    obtain ⟨alive, inner⟩ := and_eq_true_iff.mp permitted
    exact consistent.remove alive (bne_iff_ne.mp inner)

theorem Consistent.applyAll (consistent : t.Consistent) (permitted : t.permitsAll ops) :
    (t.applyAll ops).Consistent := by
  induction ops generalizing t with
  | nil => exact consistent
  | cons op ops ih =>
    obtain ⟨fst, rest⟩ := and_eq_true_iff.mp permitted
    exact ih (consistent.apply fst) rest

def Gone (t : ScopeTree) (id : ScopeId) : Prop :=
  id < t.size ∧ t.isAlive id = false

theorem Gone.grown (gone : t.Gone id) (parent : ScopeId) (name : String) (kind : ScopeKind)
    (span : Span) : (t.grown parent name kind span).Gone id :=
  ⟨by rw [length_grown]; exact Nat.lt_succ_of_lt gone.1, (alive_grown_old gone.1).trans gone.2⟩

theorem Gone.addChild (gone : t.Gone id) (parent : ScopeId) (name : String) (kind : ScopeKind)
    (span : Span) : (((t.addChild parent name kind span).map Prod.snd).toOption.getD t).Gone id := by
  rcases t.apply_addChild_cases parent name kind span with same | ⟨-, grown⟩
  · rw [same]
    exact gone
  rw [grown]
  exact gone.grown parent name kind span

theorem Gone.apply (gone : t.Gone id) (op : Operation) : (t.apply op).Gone id := by
  cases op with
  | add name kind span => exact gone.addChild t.current name kind span
  | addChild parent name kind span => exact gone.addChild parent name kind span
  | moveTo other | generateName stem => exact gone
  | remove other =>
  refine ⟨(length_remove t other).symm ▸ gone.1, eq_false_iff.mpr fun alive => ?_⟩
  have before := alive_of_alive_remove alive
  rw [gone.2] at before
  cases before

theorem Gone.applyAll (gone : t.Gone id) (ops : List Operation) : (t.applyAll ops).Gone id := by
  induction ops generalizing t with
  | nil => exact gone
  | cons op ops ih => exact ih (gone.apply op)

theorem gone_applyAll (permitted : t.permitsAll ops) (removed : .remove id ∈ ops) :
    (t.applyAll ops).Gone id := by
  induction ops generalizing t with
  | nil => cases removed
  | cons op ops ih =>
  obtain ⟨fst, rest⟩ := and_eq_true_iff.mp permitted
  rcases mem_cons.mp removed with rfl | later
  · have alive := (and_eq_true_iff.mp fst).1
    have gone : (t.remove id).Gone id :=
      ⟨(length_remove t id).symm ▸ lt_of_alive alive, alive_remove_self t id⟩
    exact gone.applyAll ops
  · exact ih rest later

/-- Lookups that start at live scopes find live scopes only. -/
structure FindsAlive (t : ScopeTree) : Prop where
  child : ∀ a name id, t.isAlive a → t.findChild? a name = some id → t.isAlive id
  around : ∀ a name id, t.isAlive a → t.findFrom? a name = some id → t.isAlive id
  here : ∀ name id, t.find? name = some id → t.isAlive id

theorem Consistent.findsAlive (consistent : t.Consistent) : t.FindsAlive where
  child _ _ _ alive got := consistent.alive_of_findChild alive got
  around _ _ _ alive got := consistent.alive_of_findFrom alive got
  here _ _ got := consistent.alive_of_find got

theorem Consistent.dead_below (consistent : t.Consistent) (gone : t.Gone id)
    (up : id ∈ t.ancestors i) : t.isAlive i = false := by
  refine Bool.eq_false_iff.mpr fun alive => ?_
  have live := consistent.alive_of_mem_ancestors alive id up
  rw [gone.2] at live
  cases live

end

/-- After any sequence of operations on live scopes the tree is consistent, lookups find live scopes
only, and all that lies below a scope that was removed is gone. -/
theorem applyAll_consistent (moduleName : String) (ops : List Operation)
    (permitted : (new moduleName).permitsAll ops = true) :
    ((new moduleName).applyAll ops).Consistent ∧ ((new moduleName).applyAll ops).FindsAlive ∧
      ∀ id, .remove id ∈ ops → ∀ i, id ∈ ((new moduleName).applyAll ops).ancestors i →
        ((new moduleName).applyAll ops).isAlive i = false := by
  have consistent := (Consistent.new moduleName).applyAll permitted
  exact ⟨consistent, consistent.findsAlive,
    fun id removed i up => consistent.dead_below (gone_applyAll permitted removed) up⟩

def renewedPackage : List Operation :=
  [.add "p" .package {}, .moveTo 1, .add "q" .block {}, .moveTo 2, .generateName "block", .remove 1,
    .add "p" .package {}, .addChild 3 "q" .block {}]

theorem applyAll_consistent_renewedPackage :
    (new "m").permitsAll renewedPackage = true ∧
      ((new "m").applyAll renewedPackage).Consistent ∧
      ((new "m").applyAll renewedPackage).isAlive 2 = false ∧
      ((new "m").applyAll renewedPackage).findFrom? 4 "p" = some 3 := by
  have permitted : (new "m").permitsAll renewedPackage := by decide +kernel
  obtain ⟨consistent, -, dead⟩ := applyAll_consistent "m" renewedPackage permitted
  exact ⟨permitted, consistent, dead 1 (by simp [renewedPackage]) 2 (by decide +kernel),
    by decide +kernel⟩

end Stencil.ScopeTree
