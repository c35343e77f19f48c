import Mathlib.Logic.Relation
import Stencil.Proofs.Meaning.Names
import Stencil.Proofs.Scope.Consistent

namespace Stencil.ScopeTree

open Option

def Inside (t : ScopeTree) : ScopeId → ScopeId → Prop :=
  Relation.ReflTransGen fun s p => t.parent? s = some p

/-- The nearest scope from `s` outwards that has a name. -/
structure Nearest (t : ScopeTree) (name : String) (s a : ScopeId) : Prop where
  inside : t.Inside s a
  bound : (t.findChild? a name).isSome
  nearest : ∀ b, t.Inside s b → (t.findChild? b name).isSome → t.Inside a b

def Clear (t : ScopeTree) (name : String) (s p : ScopeId) : Prop :=
  t.Inside s p ∧ ∀ b, t.Inside s b → t.Inside b p → b ≠ p → t.findChild? b name = none

/-- Names are looked up from the inside to the outside, before and after a name is added. -/
structure Lexical (t : ScopeTree) : Prop where
  found : ∀ s name id, t.findFrom? s name = some id ↔
    ∃ a, t.Nearest name s a ∧ t.findChild? a name = some id
  missing : ∀ s name, t.findFrom? s name = none ↔ ∀ a, t.Inside s a → t.findChild? a name = none
  added : ∀ p name kind span id t', p < t.size →
    t.addChild p name kind span = .ok (id, t') → t.size ≤ id ∧
      (∀ other, t'.findFrom? id other = t'.findFrom? p other) ∧
      ∀ s < t.size, ∀ other, (other = name → t.Clear name s p → t'.findFrom? s other = some id) ∧
        (¬(other = name ∧ t.Clear name s p) → t'.findFrom? s other = t.findFrom? s other)
  refused : ∀ p name kind span, ((∃ d, t.addChild p name kind span = .error d) ↔
    (t.findChild? p name).isSome) ∧
      ((t.findChild? p name).isSome → t.apply (.addChild p name kind span) = t)

structure Rooted (t : ScopeTree) : Prop where
  parents : ∀ id p, t.parent? id = some p → p < id
  current : t.current < t.size

namespace Rooted

variable {t : ScopeTree} {s a p id : ScopeId} {name other : String} {kind : ScopeKind} {span : Span}

theorem le_of_inside (rooted : t.Rooted) (lies : t.Inside s a) : a ≤ s := by
  induction lies with
  | refl => exact Nat.le_refl s
  | tail _ up ih => exact Nat.le_trans (Nat.le_of_lt (rooted.parents _ _ up)) ih

theorem findChild_absent (rooted : t.Rooted) (lies : t.Inside s a)
    (missing : t.findFrom? s name = none) : t.findChild? a name = none := by
  induction lies using Relation.ReflTransGen.head_induction_on with
  | refl =>
    refine eq_none_iff_forall_ne_some.mpr fun id got => ?_
    cases missing.symm.trans (findFrom_child got)
  | @head s q up _ ih =>
    cases got : t.findChild? s name with
    | some => cases missing.symm.trans (findFrom_child got)
    | none => exact ih (findFrom_parent got up (rooted.parents s q up) ▸ missing)

theorem nearest_parent (absent : t.findChild? s name = none) (up : t.parent? s = some p) :
    t.Nearest name s a ↔ t.Nearest name p a := by
  have outwards : ∀ b, (t.findChild? b name).isSome → (t.Inside s b ↔ t.Inside p b) := by
    refine fun b bound => ⟨fun lies => ?_, .head up⟩
    rcases Relation.ReflTransGen.cases_head lies with rfl | ⟨q, around', outer⟩
    · rw [absent] at bound
      cases bound
    · exact Option.some.inj (up.symm.trans around') ▸ outer
  constructor
  · rintro ⟨lies, bound, least⟩
    exact ⟨(outwards a bound).mp lies, bound,
      fun b outer has => least b ((outwards b has).mpr outer) has⟩
  rintro ⟨lies, bound, least⟩
  exact ⟨(outwards a bound).mpr lies, bound,
    fun b outer has => least b ((outwards b has).mp outer) has⟩

theorem findFrom_iff (rooted : t.Rooted) (s : ScopeId) (name : String) (id : ScopeId) :
    t.findFrom? s name = some id ↔ ∃ a, t.Nearest name s a ∧ t.findChild? a name = some id := by
  induction s using Nat.strongRecOn with
  | ind s ih =>
  cases here : t.findChild? s name with
  | some =>
    have bound : (t.findChild? s name).isSome := by rw [here, isSome_some]
    rw [findFrom_child here]
    constructor
    · rintro ⟨⟩
      exact ⟨s, ⟨.refl, bound, fun _ lies _ => lies⟩, here⟩
    rintro ⟨a, nearest, got⟩
    have same := Nat.le_antisymm (rooted.le_of_inside nearest.inside)
      (rooted.le_of_inside (nearest.nearest s .refl bound))
    rw [← got, same, here]
  | none =>
  cases up : t.parent? s with
  | some p =>
    have below := rooted.parents s p up
    simp only [findFrom_parent here up below, ih p below, nearest_parent here up]
  | none =>
  rw [findFrom_outermost here (by simp [up])]
  refine iff_of_false (by simp) ?_
  rintro ⟨a, nearest, got⟩
  rcases Relation.ReflTransGen.cases_head nearest.inside with rfl | ⟨q, around', -⟩
  · rw [here] at got
    cases got
  rw [up] at around'
  cases around'

theorem findFrom_eq_none (rooted : t.Rooted) (s : ScopeId) (name : String) :
    t.findFrom? s name = none ↔ ∀ a, t.Inside s a → t.findChild? a name = none := by
  refine ⟨fun missing a lies => rooted.findChild_absent lies missing, fun absent => ?_⟩
  refine eq_none_iff_forall_ne_some.mpr fun id got => ?_
  obtain ⟨a, nearest, child⟩ := (rooted.findFrom_iff s name id).mp got
  rw [absent a nearest.inside] at child
  cases child

theorem findChild_grown (lies : s < t.size) (apart : ¬(other = name ∧ s = p)) :
    (t.grown p name kind span).findChild? s other = t.findChild? s other := by
  by_cases here : s = p
  · subst here
    exact findChild_grown_other lies fun same => apart ⟨same, rfl⟩
  · rw [findChild?, node_grown_other lies here, findChild?]

theorem clear_self (rooted : t.Rooted) (name : String) (p : ScopeId) : t.Clear name p p :=
  ⟨.refl, fun _ outer inner other => absurd
    (Nat.le_antisymm (rooted.le_of_inside outer) (rooted.le_of_inside inner)) other⟩

theorem findFrom_clear (rooted : t.Rooted) (lies : s < t.size) (clear : t.Clear name s p) :
    (t.grown p name kind span).findFrom? s name = some t.size := by
  obtain ⟨below, free⟩ := clear
  induction below using Relation.ReflTransGen.head_induction_on with
  | refl => exact findFrom_child (findChild_grown_same lies)
  | @head s q up outer ih =>
  have before := rooted.parents s q up
  have other : s ≠ p := Nat.ne_of_gt (Nat.lt_of_le_of_lt (rooted.le_of_inside outer) before)
  have absent : (t.grown p name kind span).findChild? s name = none := by
    rw [findChild_grown lies fun same => other same.2]
    exact free s .refl (.head up outer) other
  rw [findFrom_parent absent ((parent_grown_old lies).trans up) before]
  exact ih (Nat.lt_trans before lies) fun b outside => free b (.head up outside)

theorem findFrom_grown (rooted : t.Rooted) (lies : s < t.size)
    (apart : ¬(other = name ∧ t.Clear name s p)) :
    (t.grown p name kind span).findFrom? s other = t.findFrom? s other := by
  induction s using Nat.strongRecOn with
  | ind s ih =>
  refine findFrom_step (findChild_grown lies fun same => ?_) (parent_grown_old lies)
    fun q before got up => ?_
  · exact apart ⟨same.1, same.2 ▸ rooted.clear_self name s⟩
  refine ih q before (Nat.lt_trans before lies) ?_
  rintro ⟨rfl, below, free⟩
  refine apart ⟨rfl, .head up below, fun b outer inner away => ?_⟩
  rcases Relation.ReflTransGen.cases_head outer with rfl | ⟨_, around', outer⟩
  · exact got
  · exact free b (Option.some.inj (up.symm.trans around') ▸ outer) inner away

theorem lexical (rooted : t.Rooted) : t.Lexical where
  found := rooted.findFrom_iff
  missing := rooted.findFrom_eq_none
  added := by
    intro p _ _ _ _ _ lies run
    rw [addChild_eq] at run
    split at run
    · cases run
    cases run
    refine ⟨.refl, fun other => ?_, fun s below _ => ⟨?_, rooted.findFrom_grown below⟩⟩
    · exact findFrom_parent (by rw [findChild?, node_grown_new lies]; rfl)
        (parent_grown_new lies) lies
    rintro rfl clear
    exact rooted.findFrom_clear below clear
  refused := by
    intro p name kind span
    rw [apply, addChild_eq]
    split
    · rename_i taken
      exact ⟨iff_of_true ⟨_, rfl⟩ taken, fun _ => rfl⟩
    rename_i free
    exact ⟨iff_of_false (by simp) free, fun taken => absurd taken free⟩

end Rooted

def knows (t : ScopeTree) : Operation → Bool
  | .addChild id _ _ _ | .moveTo id | .remove id => id < t.size
  | .add .. | .generateName _ => true

def knowsAll (t : ScopeTree) : List Operation → Bool
  | [] => true
  | op :: ops => t.knows op && (t.apply op).knowsAll ops

namespace Rooted

variable {t : ScopeTree} {p : ScopeId}

theorem addChild (rooted : t.Rooted) (lies : p < t.size) (name : String)
    (kind : ScopeKind) (span : Span) :
    (((t.addChild p name kind span).map Prod.snd).toOption.getD t).Rooted := by
  rcases t.apply_addChild_cases p name kind span with same | ⟨-, grown⟩
  · rwa [same]
  rw [grown]
  exact ⟨parents_grown rooted.parents lies,
    by rw [length_grown]; exact Nat.lt_succ_of_lt rooted.current⟩

theorem apply {op : Operation} (rooted : t.Rooted) (known : t.knows op) : (t.apply op).Rooted := by
  cases op with
  | add name kind span => exact rooted.addChild rooted.current name kind span
  | addChild p name kind span => exact rooted.addChild (of_decide_eq_true known) name kind span
  | moveTo => exact ⟨rooted.parents, of_decide_eq_true known⟩
  | generateName => exact ⟨rooted.parents, rooted.current⟩
  | remove id =>
  refine ⟨fun i p up => rooted.parents i p ((parent_remove t id i).symm.trans up), ?_⟩
  rw [ScopeTree.apply, length_remove]
  rcases current_remove_cases t id with same | root
  · exact same ▸ rooted.current
  · exact root ▸ Nat.zero_lt_of_lt rooted.current

theorem applyAll {ops : List Operation} (rooted : t.Rooted) (known : t.knowsAll ops) :
    (t.applyAll ops).Rooted := by
  induction ops generalizing t with
  | nil => exact rooted
  | cons op ops ih =>
    obtain ⟨fst, rest⟩ := Bool.and_eq_true_iff.mp known
    exact ih (rooted.apply fst) rest

end Rooted

/-- After any sequence of operations on scopes that exist, names are looked up lexically. -/
theorem applyAll_lexical (moduleName : String) (ops : List Operation)
    (known : (new moduleName).knowsAll ops = true) : ((new moduleName).applyAll ops).Lexical := by
  have rooted : (new moduleName).Rooted :=
    ⟨(Consistent.new moduleName).parents, Nat.zero_lt_one⟩
  exact (rooted.applyAll known).lexical

def hiddenName : List Operation :=
  [.add "x" .block {}, .add "p" .package {}, .moveTo 2, .add "x" .block {}]

theorem applyAll_lexical_hiddenName : (new "m").knowsAll hiddenName = true ∧
    (∃ a, ((new "m").applyAll hiddenName).Nearest "x" 3 a ∧
      ((new "m").applyAll hiddenName).findChild? a "x" = some 3) ∧
    ((new "m").applyAll hiddenName).findFrom? 1 "x" = some 1 := by
  have known : (new "m").knowsAll hiddenName := by decide +kernel
  have lexical := applyAll_lexical "m" hiddenName known
  exact ⟨known, (lexical.found 3 "x" 3).mp (by decide +kernel), by decide +kernel⟩

end Stencil.ScopeTree
