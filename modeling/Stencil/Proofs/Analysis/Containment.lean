import Mathlib.Data.Finset.Card
import Mathlib.Data.List.Chain
import Mathlib.Logic.Relation
import Stencil.Analysis.Containment

namespace Stencil

open List

/-- An instance of a template lies in a value of the type, perhaps as an entry of an array. -/
inductive Ty.Stores (id : ScopeId) : Ty → Prop
  | struct (name : String) : Stores id (.struct name id)
  | array {element : Ty} (length : Nat) : Stores id element → Stores id (.array element length)

theorem Ty.stores_iff {type : Ty} {id : ScopeId} :
    type.Stores id ↔ type.innermost.structScope? = some id := by
  fun_induction innermost type with
  | case1 elem length ih =>
    refine ⟨fun stores => ?_, fun found => .array length (ih.mpr found)⟩
    cases stores with
    | array _ inner => exact ih.mp inner
  | case2 type other =>
    constructor
    · intro stores
      cases stores with
      | struct => rfl
      | array length => exact (other _ length rfl).elim
    · intro found
      cases type with
      | struct name =>
        cases found
        exact .struct name
      | _ => cases found

namespace ScopeTree

variable {t : ScopeTree} {target x y : ScopeId} {xs tried more : List ScopeId}
  {before mid after : Trail} {found : Bool} {depth : Nat}

/-- A field of one template holds an instance of another. -/
def Contains (t : ScopeTree) (x y : ScopeId) : Prop :=
  ∃ field ∈ t.fields x, field.2.storage = .field ∧ field.2.type.Stores y

theorem mem_held : y ∈ t.held x ↔ t.Contains x y := by
  simp [held, Contains, Ty.stores_iff]

def Closed (t : ScopeTree) (target : ScopeId) (tried more : List ScopeId) : Prop :=
  ∀ x ∈ more, x ∉ tried → ∀ y, t.Contains x y → y ≠ target ∧ y ∈ more

structure Searched (t : ScopeTree) (target : ScopeId) (xs : List ScopeId) (before : Trail)
    (result : Bool) (after : Trail) : Prop where
  grows : ∀ x ∈ before.visited, x ∈ after.visited
  found : result → ∃ x ∈ xs, ∃ rest, after.path = before.path ++ x :: rest ∧
    (x :: rest).IsChain t.Contains ∧ (x :: rest).getLast? = some target
  failed : result = false → after.path = before.path ∧
    (∀ x ∈ xs, x ≠ target ∧ x ∈ after.visited) ∧ t.Closed target before.visited after.visited

theorem Searched.nil : t.Searched target [] before false before :=
  ⟨fun _ => id, nofun, fun _ => ⟨rfl, by simp, fun _ old new => absurd old new⟩⟩

theorem Searched.cons (searched : t.Searched target xs mid found after)
    (path : mid.path = before.path) (other : x ≠ target) (known : x ∈ mid.visited)
    (grows : ∀ y ∈ before.visited, y ∈ mid.visited)
    (closed : t.Closed target before.visited mid.visited) :
    t.Searched target (x :: xs) before found after where
  grows y mem := searched.grows y (grows y mem)
  found hit := by
    obtain ⟨y, mem, rest, more, way⟩ := searched.found hit
    exact ⟨y, .tail _ mem, rest, path ▸ more, way⟩
  failed failed := by
    obtain ⟨back, through, later⟩ := searched.failed failed
    refine ⟨back.trans path, forall_mem_cons.mpr ⟨⟨other, searched.grows x known⟩, through⟩, ?_⟩
    intro z mem fresh
    by_cases early : z ∈ mid.visited
    · exact fun y contains => (closed z early fresh y contains).imp_right (searched.grows y)
    · exact later z mem early

def untried (t : ScopeTree) (tried : List ScopeId) : Nat :=
  (Finset.range t.size \ tried.toFinset).card

theorem untried_mono (grows : ∀ x ∈ tried, x ∈ more) : t.untried more ≤ t.untried tried := by
  refine Finset.card_le_card (Finset.sdiff_subset_sdiff (Finset.Subset.refl _) fun x mem => ?_)
  exact mem_toFinset.mpr (grows x (mem_toFinset.mp mem))

theorem untried_cons (inside : x < t.size) (fresh : x ∉ tried) :
    t.untried (x :: tried) < t.untried tried := by
  rw [untried, toFinset_cons, Finset.sdiff_insert]
  exact Finset.card_erase_lt_of_mem (by simp [inside, fresh])

def Enough (t : ScopeTree) (depth : Nat) (x : ScopeId) (tried : List ScopeId) : Prop :=
  t.untried tried < depth ∨ t.held x = []

theorem Enough.cons (enough : t.untried tried < depth + 1) (fresh : x ∉ tried) :
    t.Enough depth x (x :: tried) := by
  by_cases inside : x < t.size
  · exact .inl (Nat.lt_of_lt_of_le (untried_cons inside fresh) (Nat.le_of_lt_succ enough))
  · exact .inr (by simp [held, fields, children, node, Nat.le_of_not_lt inside])

theorem searchEach_searched {search : ScopeId → Trail → Bool × Trail}
    (below : ∀ x (trail : Trail), t.Enough depth x trail.visited →
      t.Searched target (t.held x) trail (search x trail).1 (search x trail).2)
    (enough : t.untried before.visited < depth + 1) :
    t.Searched target xs before (searchEach target search xs before).1
      (searchEach target search xs before).2 := by
  induction xs generalizing before with
  | nil => exact .nil
  | cons next rest ih =>
  have popped (trail : Trail) (path : trail.path = before.path ++ [next]) :
      trail.pop.path = before.path := by
    rw [Trail.pop, path, dropLast_concat]
  rw [searchEach]
  by_cases hit : next = target
  · rw [if_pos hit]
    exact ⟨fun _ => id, fun _ => ⟨next, .head _, [], rfl, .singleton _, hit ▸ rfl⟩, nofun⟩
  rw [if_neg hit]
  by_cases again : next ∈ (before.push next).visited
  · rw [if_pos again]
    have searched : t.Searched target rest (before.push next).pop _ _ := ih enough
    exact searched.cons (popped _ rfl) hit again (fun _ => id) fun _ old new => absurd old new
  rw [if_neg again]
  have below := below next ((before.push next).visit next) (.cons enough again)
  generalize search next ((before.push next).visit next) = result at below
  obtain ⟨found, deeper⟩ := result
  have grows : ∀ x ∈ before.visited, x ∈ deeper.visited := fun x mem => below.grows x (.tail _ mem)
  cases found with
  | false =>
    obtain ⟨back, through, closed⟩ := below.failed rfl
    have searched : t.Searched target rest deeper.pop _ _ :=
      ih (Nat.lt_of_le_of_lt (untried_mono grows) enough)
    refine searched.cons (popped _ back) hit (below.grows _ (.head _)) grows ?_
    intro x mem fresh y contains
    by_cases here : x = next
    · exact through y (mem_held.mpr (here ▸ contains))
    · exact closed x mem (by simp [Trail.visit, Trail.push, here, fresh]) y contains
  | true =>
    refine ⟨grows, fun _ => ?_, nofun⟩
    obtain ⟨x, mem, way, path, chain, last⟩ := below.found rfl
    refine ⟨next, .head _, x :: way, ?_, isChain_cons_cons.mpr ⟨mem_held.mp mem, chain⟩, last⟩
    exact path.trans (append_assoc ..)

theorem containsTemplate_searched (enough : t.Enough depth x before.visited) :
    t.Searched target (t.held x) before (t.containsTemplate target depth x before).1
      (t.containsTemplate target depth x before).2 := by
  induction depth generalizing x before with
  | zero =>
    rw [containsTemplate, enough.resolve_left (Nat.not_lt_zero _)]
    exact .nil
  | succ depth ih =>
    rw [containsTemplate]
    rcases enough with enough | none
    · exact searchEach_searched (fun _ _ => ih) enough
    · rw [none]
      exact .nil

theorem Searched.found_iff (searched : t.Searched target (t.held x) before found after)
    (fresh : before.visited = []) : found ↔ Relation.TransGen t.Contains x target := by
  cases found with
  | false =>
    obtain ⟨-, through, closed⟩ := searched.failed rfl
    rw [fresh] at closed
    have reached : ∀ y, Relation.TransGen t.Contains x y → y ≠ target ∧ y ∈ after.visited := by
      intro y contains
      induction contains with
      | single fst => exact through _ (mem_held.mpr fst)
      | tail _ last ih => exact closed _ ih.2 not_mem_nil _ last
    exact iff_of_false Bool.false_ne_true fun contains => (reached target contains).1 rfl
  | true =>
    obtain ⟨y, mem, rest, -, chain, last⟩ := searched.found rfl
    have more := relationReflTransGen_of_exists_isChain_cons rest chain
      (Option.some.inj ((getLast?_eq_some_getLast _).symm.trans last))
    exact iff_of_true rfl (.head' (mem_held.mp mem) more)

/-- A template is found in itself exactly if fields lead back to it. The path that the search leaves
is then a way that they lead; every template that was pushed is popped again otherwise. -/
theorem selfContainment_exact (t : ScopeTree) (template : ScopeId) :
    let found := (t.searchSelf template).1
    let path := (t.searchSelf template).2.path
    (found = true ↔ Relation.TransGen t.Contains template template) ∧
      (found = true → path.IsChain t.Contains ∧ 2 ≤ path.length ∧
        path.head? = some template ∧ path.getLast? = some template) ∧
      (found = false → path = [template]) ∧
      t.selfContainment? template = if found then some path else none := by
  have enough : t.Enough (t.size + 1) template [] := .inl (by simp [untried])
  have searched : t.Searched template (t.held template) { path := [template] }
      (t.searchSelf template).1 (t.searchSelf template).2 := containsTemplate_searched enough
  unfold selfContainment?
  generalize t.searchSelf template = result at searched
  obtain ⟨found, trail⟩ := result
  refine ⟨searched.found_iff rfl, fun hit => ?_, fun miss => (searched.failed miss).1, ?_⟩
  · obtain ⟨x, mem, rest, path, chain, last⟩ := searched.found hit
    dsimp only at path ⊢
    rw [path]
    exact ⟨isChain_cons_cons.mpr ⟨mem_held.mp mem, chain⟩, by simp, rfl, last⟩
  · cases found <;> rfl

end ScopeTree

end Stencil
