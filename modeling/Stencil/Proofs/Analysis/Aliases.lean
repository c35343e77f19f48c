import Mathlib.Data.Fintype.EquivFin
import Mathlib.Logic.Relation
import Stencil.Program
import Stencil.Proofs.Scope.Known
import Stencil.Proofs.Steps

/-!
What aliases stand for. Type syntax asks for the types of aliases; which ones it asks for next can
depend on the answers. The resolver, which marks aliases and remembers their types, finds an answer
wherever there is one.
-/

namespace Stencil

open Analysis Relation Function ScopeTree

/-- Something to be found out from the types of aliases. -/
inductive Query : Type → Type 1
  | answer {α : Type} (a : Option α) : Query α
  | ask (id : ScopeId) : Query Ty
  | bind {α β : Type} (first : Query α) (next : α → Query β) : Query β

namespace Query

section

variable (t : ScopeTree)

def member (id : ScopeId) : Query ScopeId :=
  match t.kind id with
  | .module | .package | .template _ | .spec _ => answer (some id)
  | .typeAlias _ => bind (ask id) fun type => answer type.structScope?
  | _ => answer none

def descend : ScopeId → List String → Query ScopeId
  | id, [] => answer (some id)
  | id, name :: names => bind (member t id) fun scope =>
    bind (answer (t.findChild? scope name)) fun child => descend child names

def path (scope : ScopeId) : List String → Query ScopeId
  | [] => answer none
  | fst :: rest => bind (answer (t.findFrom? scope fst)) fun id => descend t id rest

def named (id : ScopeId) : Query Ty :=
  match t.kind id with
  | .template e => answer (some (.struct e.structName id))
  | .typeAlias _ => ask id
  | .spec _ => answer (some (.spec (t.qualifiedName id) id))
  | _ => answer none

mutual

def type (scope : ScopeId) : TypeSyntax → Query Ty
  | .primitive p _ => answer (some (.ofPrimitive p))
  | .self _ => answer (t.selfType? scope)
  | .reference target _ => bind (type scope target) fun type => answer (some (.pointer type))
  | .array elem length _ => bind (type scope elem) fun type =>
    answer (if type.isStorable then some (.array type length) else none)
  | .function params result _ => bind (types scope params) fun params =>
    bind (resultType scope result) fun result => answer (some (.function params result false))
  | .named names args _ => bind (path t scope names) fun id =>
    if args.isEmpty then named t id else answer none

def types (scope : ScopeId) : List TypeSyntax → Query (List Ty)
  | [] => answer (some [])
  | fst :: rest => bind (type scope fst) fun type =>
    bind (types scope rest) fun types => answer (some (type :: types))

def resultType (scope : ScopeId) : Option TypeSyntax → Query Ty
  | none => answer (some .void)
  | some result => type scope result

end

/-- The type behind an alias, unless it is remembered. One that a spec leaves open stands for
itself. -/
def target (id : ScopeId) : Query Ty :=
  match t.kind id with
  | .typeAlias e => match e.target, e.decl.bind (·.target) with
    | some type, _ => answer (some type)
    | none, none => answer (some (.spec (t.qualifiedName id) id))
    | none, some target => type t id target
  | _ => answer none

/-- What is found if each alias stands for what is behind it. -/
inductive Finds : {α : Type} → Query α → α → Prop
  | answer {α : Type} (a : α) : Finds (answer (some a)) a
  | ask {id : ScopeId} {type : Ty} : Finds (target t id) type → Finds (ask id) type
  | bind {α β : Type} {first : Query α} {next : α → Query β} {a : α} {b : β} :
    Finds first a → Finds (next a) b → Finds (bind first next) b

def Asks (id : ScopeId) {α : Type} : Query α → Prop
  | answer _ => False
  | ask other => id = other
  | bind fst next => fst.Asks id ∨ ∃ a, fst.Finds t a ∧ (next a).Asks id

/-- Something on the way has no answer, whatever aliases stand for. -/
def Refuses {α : Type} : Query α → Prop
  | answer a => a = none
  | ask _ => False
  | bind fst next => fst.Refuses ∨ ∃ a, fst.Finds t a ∧ (next a).Refuses

end

end Query

namespace ScopeTree

section

variable (t : ScopeTree)

/-- The target of an alias leads through another alias, or to it. -/
def Refers (a b : ScopeId) : Prop := (Query.target t a).Asks t b

def ReachesCycle (a : ScopeId) : Prop := ∃ b, ReflTransGen t.Refers a b ∧ TransGen t.Refers b b

/-- All names behind an alias are names of types, and all entries of arrays can be stored. -/
def Wholesome (a : ScopeId) : Prop :=
  ∀ b, ReflTransGen t.Refers a b → ¬(Query.target t b).Refuses t

end

variable {t : ScopeTree} {a : ScopeId}

theorem Wholesome.lt (wholesome : t.Wholesome a) : a < t.size := by
  refine lt_of_kind_ne_block fun block => wholesome a .refl ?_
  rw [Query.target, block]
  rfl

end ScopeTree

namespace Query

variable {t : ScopeTree} {α : Type} {q : Query α} {a b : α}

@[simp] theorem finds_answer {o : Option α} : (answer o).Finds t a ↔ o = some a := by
  refine ⟨?_, ?_⟩ <;> rintro ⟨⟩
  · rfl
  · exact .answer a

@[simp] theorem finds_bind {β : Type} {fst : Query β} {next : β → Query α} :
    (bind fst next).Finds t a ↔ ∃ b, fst.Finds t b ∧ (next b).Finds t a := by
  refine ⟨?_, ?_⟩
  · rintro (_ | _ | ⟨known, got⟩)
    exact ⟨_, known, got⟩
  · rintro ⟨b, known, got⟩
    exact .bind known got

theorem Finds.unique (fst : q.Finds t a) (snd : q.Finds t b) : b = a := by
  induction fst with
  | answer =>
    cases snd
    rfl
  | ask _ ih =>
    cases snd with
    | ask snd => exact ih snd
  | bind _ _ ih₁ ih₂ =>
    cases snd with
    | bind fst snd =>
      obtain rfl := ih₁ fst
      exact ih₂ snd

theorem Finds.sound (finds : q.Finds t a) :
    ¬q.Refuses t ∧ ∀ id, q.Asks t id → t.Wholesome id ∧ ¬t.ReachesCycle id := by
  induction finds with
  | answer a => exact ⟨Option.some_ne_none a, fun _ => False.elim⟩
  | @ask id _ _ ih =>
    refine ⟨fun refuses => refuses, ?_⟩
    rintro _ rfl
    refine ⟨fun b way => ?_, ?_⟩
    · rcases way.cases_head with rfl | ⟨c, refers, way⟩
      · exact ih.1
      · exact (ih.2 c refers).1 b way
    · rintro ⟨b, way, cycle⟩
      obtain ⟨c, refers, way⟩ := TransGen.head'_iff.mp (TransGen.trans_right way cycle)
      exact (ih.2 c refers).2 ⟨b, way, cycle⟩
  | bind fst _ ih₁ ih₂ =>
    refine ⟨?_, ?_⟩
    · rintro (refuses | ⟨c, other, refuses⟩)
      · exact ih₁.1 refuses
      · exact ih₂.1 (fst.unique other ▸ refuses)
    · rintro id (asks | ⟨c, other, asks⟩)
      · exact ih₁.2 id asks
      · exact ih₂.2 id (fst.unique other ▸ asks)

theorem exists_finds (fair : ¬q.Refuses t)
    (told : ∀ id, q.Asks t id → ∃ type, (ask id).Finds t type) : ∃ a, q.Finds t a := by
  induction q with
  | answer =>
    obtain ⟨a, rfl⟩ := Option.ne_none_iff_exists'.mp fair
    exact ⟨a, .answer a⟩
  | ask id => exact told id rfl
  | bind _ _ ih₁ ih₂ =>
    obtain ⟨b, fst⟩ := ih₁ (fair ∘ .inl) fun id => told id ∘ .inl
    obtain ⟨a, snd⟩ := ih₂ b (fun refuses => fair (.inr ⟨b, fst, refuses⟩))
      fun id asks => told id (.inr ⟨b, fst, asks⟩)
    exact ⟨a, .bind fst snd⟩

end Query

theorem ScopeTree.Wholesome.finds {t : ScopeTree} {a : ScopeId} (wholesome : t.Wholesome a)
    (acyclic : ¬t.ReachesCycle a) : ∃ type, (Query.ask a).Finds t type := by
  let r (x y : Fin t.size) : Prop := ReflTransGen t.Refers a y ∧ TransGen t.Refers y x
  have : IsTrans _ r := ⟨fun x y z fst snd => ⟨snd.1, snd.2.trans fst.2⟩⟩
  have : Std.Irrefl r := ⟨fun x cycle => acyclic ⟨x, cycle⟩⟩
  have all (x : Fin t.size) : ReflTransGen t.Refers a x → ∃ type, (Query.ask x).Finds t type := by
    induction x using (Finite.wellFounded_of_trans_of_irrefl r).induction with
    | _ x ih =>
    intro reached
    obtain ⟨type, finds⟩ := Query.exists_finds (wholesome x reached) fun b refers => by
      have lies := Wholesome.lt fun c way => wholesome c ((reached.tail refers).trans way)
      exact ih ⟨b, lies⟩ ⟨reached, .single refers⟩ (reached.tail refers)
    exact ⟨type, .ask finds⟩
  exact all ⟨a, wholesome.lt⟩ .refl

namespace ScopeKind

def Concrete : ScopeKind → Prop
  | .template e => e.isGeneric = false
  | .typeAlias e => e.isGeneric = false
  | _ => True

def target? : ScopeKind → Option Ty
  | .typeAlias e => e.target
  | _ => none

def isMarked : ScopeKind → Bool
  | .typeAlias e => e.resolving
  | _ => false

def blank : ScopeKind → ScopeKind
  | .typeAlias e => .typeAlias { e with target := none, resolving := false }
  | k => k

end ScopeKind

namespace ScopeTree

structure Alike (t t' : ScopeTree) : Prop where
  length : t'.size = t.size
  node : ∀ id, { t'.node id with kind := (t'.kind id).blank } =
    { t.node id with kind := (t.kind id).blank }

namespace Alike

variable {t t' : ScopeTree} {id scope : ScopeId} {name : String} (alike : t.Alike t')

include alike

theorem findChild : t'.findChild? scope name = t.findChild? scope name :=
  congrArg (·.names.lookup name) (alike.node scope)

theorem ancestors : t'.ancestors id = t.ancestors id :=
  ancestors_congr fun id _ => congrArg (·.parent) (alike.node id)

theorem findFrom : t'.findFrom? scope name = t.findFrom? scope name := by
  simp only [findFrom?, alike.ancestors, alike.findChild]

theorem qualifiedName : t'.qualifiedName id = t.qualifiedName id := by
  have path : t'.path id = t.path id := path_congr (fun i _ => congrArg (·.parent) (alike.node i))
    fun i _ => congrArg (·.name) (alike.node i)
  exact congrArg (".".intercalate ·) path

theorem kind_cases (id : ScopeId) :
    (t'.kind id = t.kind id ∧ ∀ e, t.kind id ≠ .typeAlias e) ∨ ∃ e e', t.kind id = .typeAlias e ∧
      t'.kind id = .typeAlias e' ∧ e'.decl = e.decl ∧ e'.isGeneric = e.isGeneric := by
  have same : (t'.kind id).blank = (t.kind id).blank := congrArg (·.kind) (alike.node id)
  cases kind : t.kind id <;> cases kind' : t'.kind id <;> rw [kind, kind'] at same <;>
    first
    | exact .inr ⟨_, _, rfl, rfl, by simp_all [ScopeKind.blank, AliasEntry.isGeneric]⟩
    | cases same <;> exact .inl ⟨rfl, by simp⟩

theorem aliased {e : AliasEntry} (kind : t.kind id = .typeAlias e) :
    ∃ e', t'.kind id = .typeAlias e' := by
  obtain ⟨_, e', -, kind', -⟩ := (alike.kind_cases id).resolve_left fun h => h.2 e kind
  exact ⟨e', kind'⟩

theorem selfType : t'.selfType? scope = t.selfType? scope := by
  have accepted (id : ScopeId) : ((t'.kind id).template?.isSome || (t'.kind id).spec?.isSome) =
      ((t.kind id).template?.isSome || (t.kind id).spec?.isSome) := by
    rcases alike.kind_cases id with ⟨same, -⟩ | ⟨e, e', kind, kind', -⟩
    · rw [same]
    · rw [kind, kind']
      rfl
  simp only [selfType?, enclosing?, alike.ancestors, accepted, alike.qualifiedName]
  refine congrArg _ (funext fun id => ?_)
  rcases alike.kind_cases id with ⟨same, -⟩ | ⟨e, e', kind, kind', -⟩
  · rw [same]
  · rw [kind, kind']

end Alike

end ScopeTree

structure Session.Resolving (start : Session) (busy : ScopeId → Bool) (s : Session) : Prop where
  alike : start.tree.Alike s.tree
  exhausted : s.exhausted = start.exhausted
  marks : ∀ id, (s.tree.kind id).isMarked = busy id
  sound : ∀ id type, (s.tree.kind id).target? = some type → (Query.ask id).Finds start.tree type
  kept : ∀ id type, (start.tree.kind id).target? = some type → (s.tree.kind id).target? = some type

def Answers (start : Session) (busy : ScopeId → Bool) {α : Type} (step : Analysis α) (q : Query α) :
    Prop :=
  ∀ s, start.Resolving busy s → Leads step s
    (fun a s' => start.Resolving busy s' ∧ q.Finds start.tree a)
    fun _ s' => start.Resolving busy s' ∧ ∀ a, q.Finds start.tree a →
      ∃ id marked, q.Asks start.tree id ∧ ReflTransGen start.tree.Refers id marked ∧
        busy marked

theorem Analysis.leads_tree {α : Type} {next : ScopeTree → Analysis α} {s : Session}
    {done : α → Session → Prop} {failed : Diagnostic → Session → Prop} :
    Leads (tree >>= next) s done failed ↔ Leads (next s.tree) s done failed :=
  Iff.rfl

namespace Answers

variable {α β : Type} {start : Session} {busy : ScopeId → Bool} {span : Span} {step : Analysis α}
  {q : Query α}

theorem pure (a : α) : Answers start busy (pure a) (.answer (some a)) :=
  fun _ resolving => ⟨resolving, .answer a⟩

theorem fail {p : Problem} (refused : ∀ a, ¬q.Finds start.tree a) :
    Answers start busy (fail p span : Analysis α) q :=
  fun _ resolving => ⟨resolving, fun a finds => absurd finds (refused a)⟩

theorem none {p : Problem} :
    Answers start busy (Analysis.fail p span : Analysis α) (.answer none) :=
  fail (by simp)

theorem bind {next : α → Analysis β} {q' : α → Query β} (fst : Answers start busy step q)
    (snd : ∀ a, Answers start busy (next a) (q' a)) :
    Answers start busy (step >>= next) (.bind q q') := by
  intro s resolving
  refine leads_bind.mpr ((fst s resolving).mono ?_ ?_)
  · rintro a s' ⟨resolving, got⟩
    refine (snd a s' resolving).mono ?_ ?_
    · exact fun b s'' h => ⟨h.1, .bind got h.2⟩
    · rintro _ s'' ⟨resolving, absent⟩
      refine ⟨resolving, ?_⟩
      rintro b (_ | _ | ⟨fst, snd⟩)
      obtain rfl := got.unique fst
      obtain ⟨id, marked, asks, way⟩ := absent b snd
      exact ⟨id, marked, .inr ⟨_, got, asks⟩, way⟩
  · rintro _ s' ⟨resolving, absent⟩
    refine ⟨resolving, ?_⟩
    rintro b (_ | _ | ⟨fst, -⟩)
    obtain ⟨id, marked, asks, way⟩ := absent _ fst
    exact ⟨id, marked, .inl asks, way⟩

theorem tree_bind {next : ScopeTree → Analysis α}
    (after : ∀ t, start.tree.Alike t → Answers start busy (next t) q) :
    Answers start busy (tree >>= next) q :=
  fun s resolving => after _ resolving.alike s resolving

end Answers

namespace Resolver

section

variable {r : Resolver} {start : Session} {busy : ScopeId → Bool} {id scope : ScopeId} {span : Span}
  (requests : ∀ id span, Answers start busy (r.aliasTarget id span) (.ask id))
  (plain : ∀ id, (start.tree.kind id).Concrete)

include requests

theorem namespaceScope_answers :
    Answers start busy (r.namespaceScope id span) (.member start.tree id) := by
  refine .tree_bind fun t alike => ?_
  unfold Query.member
  rcases alike.kind_cases id with ⟨same, other⟩ | ⟨e, e', kind, kind', -⟩
  · rw [same]
    cases kind : start.tree.kind id with
    | module | package | template | spec => exact .pure id
    | typeAlias e => exact absurd kind (other e)
    | function | var | block => exact .none
  · rw [kind, kind']
    refine .bind (requests id span) fun type => ?_
    cases type.structScope? with
    | some scope => exact .pure scope
    | none => exact .none

theorem descend_answers {shown : String} (names : List String) :
    Answers start busy (r.descend shown span id names) (.descend start.tree id names) := by
  induction names generalizing id with
  | nil => exact .pure id
  | cons name names ih =>
    refine .bind (namespaceScope_answers requests) fun scope => .tree_bind fun t alike => ?_
    rw [alike.findChild]
    cases start.tree.findChild? scope name with
    | none => exact .fail (by simp)
    | some child =>
      change Answers start busy (pure child >>= fun id => r.descend shown span id names) _
      exact .bind (.pure child) fun _ => ih

theorem lookupPath_answers (path : List String) :
    Answers start busy (r.lookupPath path scope span) (.path start.tree scope path) := by
  cases path with
  | nil => exact .none
  | cons fst rest =>
    refine .tree_bind fun t alike => ?_
    rw [Query.path, alike.findFrom]
    cases start.tree.findFrom? scope fst with
    | none => exact .fail (by simp)
    | some id =>
      change Answers start busy (pure id >>= fun id => r.descend _ span id rest) _
      exact .bind (.pure id) fun _ => descend_answers requests rest

include plain

-- The recursion hands both hypotheses on.
set_option linter.unusedSectionVars false

mutual

theorem type_answers (scope : ScopeId) : ∀ syn : TypeSyntax,
    Answers start busy (r.type scope syn) (.type start.tree scope syn)
  | .primitive p _ => .pure _
  | .self span => by
    refine .tree_bind fun t alike => ?_
    rw [alike.selfType, Query.type]
    cases start.tree.selfType? scope with
    | none => exact .none
    | some type => exact .pure type
  | .reference target _ => .bind (type_answers scope target) fun _ => .pure _
  | .array elem length span => by
    refine .bind (type_answers scope elem) fun type => ?_
    cases type with
    | void | spec => exact .fail (by rintro a ⟨⟩)
    | _ => exact .pure _
  | .function params result _ => .bind (types_answers scope params) fun _ =>
    .bind (resultType_answers scope result) fun _ => .pure _
  | .named path args span => by
    refine .bind (lookupPath_answers requests path) fun id => .tree_bind fun t alike => ?_
    have checked {step : Analysis Ty} {q : Query Ty} (after : Answers start busy step q) :
        Answers start busy (refuseArguments (".".intercalate path) args span >>= fun _ => step)
          (if args.isEmpty then q else .answer none) := by
      rw [refuseArguments]
      split
      · exact after
      · exact .none
    have plain := plain id
    unfold Query.named
    rcases alike.kind_cases id with ⟨same, other⟩ | ⟨e, e', kind, kind', -, generic⟩
    · rw [same]
      cases kind : start.tree.kind id with
      | template e =>
        rw [kind] at plain
        simp only [if_neg (Bool.eq_false_iff.mp plain)]
        exact checked (.pure _)
      | typeAlias e => exact absurd kind (other e)
      | spec =>
        rw [alike.qualifiedName]
        exact checked (.pure _)
      | _ =>
        simp only [ite_self]
        exact .none
    · rw [kind] at plain
      simp only [kind, kind', if_neg (Bool.eq_false_iff.mp (generic.trans plain))]
      exact checked (requests id span)

theorem types_answers (scope : ScopeId) : ∀ syns : List TypeSyntax,
    Answers start busy (r.types scope syns) (.types start.tree scope syns)
  | [] => .pure _
  | fst :: rest => .bind (type_answers scope fst) fun _ =>
    .bind (types_answers scope rest) fun _ => .pure _

theorem resultType_answers (scope : ScopeId) : ∀ result : Option TypeSyntax,
    Answers start busy (r.resultType scope result) (.resultType start.tree scope result)
  | none => .pure _
  | some result => type_answers scope result

end

end

section

variable {start : Session} {busy : ScopeId → Bool} {s : Session} {id : ScopeId} {e : AliasEntry}

theorem modifyAlias_leads {α : Type} {next : Analysis α} {change : AliasEntry → AliasEntry}
    {done : α → Session → Prop} {failed : Diagnostic → Session → Prop}
    (resolving : start.Resolving busy s) (kind : s.tree.kind id = .typeAlias e)
    (same : ScopeKind.blank (.typeAlias (change e)) = .blank (.typeAlias e))
    (sound : ∀ type, (change e).target = some type → (Query.ask id).Finds start.tree type)
    (new : (start.tree.kind id).target? = none)
    (after : ∀ s', start.Resolving (update busy id (change e).resolving) s' →
      Leads next s' done failed) :
    Leads (modifyAlias id change >>= fun _ => next) s done failed := by
  have run : modifyAlias id change s =
      .ok () { s with tree := s.tree.setKind id (.typeAlias (change e)) } := by
    change EStateM.Result.ok () { s with tree := _ } = _
    simp only [kind]
  rw [Leads, bind_run run]
  refine after _ ?_
  have lies := lt_of_kind_ne_block (show s.tree.kind id ≠ .block by simp [kind])
  have here : (s.tree.setKind id (.typeAlias (change e))).kind id = .typeAlias (change e) :=
    congrArg ScopeNode.kind (node_modifyNode_same lies)
  have others {i : ScopeId} (other : i ≠ id) :
      (s.tree.setKind id (.typeAlias (change e))).kind i = s.tree.kind i :=
    congrArg ScopeNode.kind (node_modifyNode_other other)
  refine ⟨⟨?_, fun i => ?_⟩, resolving.exhausted, fun i => ?_, fun i type got => ?_,
    fun i type known => ?_⟩
  · simpa [setKind] using resolving.alike.length
  · refine Eq.trans ?_ (resolving.alike.node i)
    refine modifyNode_proj (fun n => { n with kind := n.kind.blank }) ?_ i
    change _ = { s.tree.node id with kind := (s.tree.kind id).blank }
    simp only [kind, same]
  all_goals by_cases other : i = id
  · rw [other, here, update_self]
    rfl
  · rw [others other, update_of_ne other, resolving.marks]
  · subst other
    rw [here] at got
    exact sound type got
  · exact resolving.sound i type (others other ▸ got)
  · cases new.symm.trans (other ▸ known)
  · rw [others other, resolving.kept i type known]

theorem resolveAlias_answers {r : Resolver} {span : Span}
    (plain : ∀ id, (start.tree.kind id).Concrete)
    (requests : ∀ e, start.tree.kind id = .typeAlias e → busy id = false → ∀ i span,
      Answers start (update busy id true) (r.aliasTarget i span) (.ask i)) :
    Answers start busy (r.resolveAlias id span) (.ask id) := by
  intro s resolving
  unfold resolveAlias
  rw [leads_tree]
  rcases resolving.alike.kind_cases id with ⟨same, other⟩ | ⟨e, e', kind, kind', decl, generic⟩
  · have refused : ∀ type, ¬(Query.ask id).Finds start.tree type := by
      rintro type (_ | finds)
      rw [Query.target] at finds
      split at finds
      · exact absurd ‹_› (other _)
      · cases finds
    cases kind : s.tree.kind id with
    | typeAlias e => exact absurd (same.symm.trans kind) (other e)
    | _ => exact ⟨resolving, fun type finds => absurd finds (refused type)⟩
  have known : (s.tree.kind id).target? = e'.target := by rw [kind']; rfl
  have mark : busy id = e'.resolving := by rw [← resolving.marks, kind']; rfl
  have concrete : ¬e'.isGeneric := by
    have plain := plain id
    rw [kind] at plain
    exact Bool.eq_false_iff.mp (generic.trans plain)
  simp only [kind', if_neg concrete, decl]
  cases target : e'.target with
  | some type => exact ⟨resolving, resolving.sound id type (known.trans target)⟩
  | none =>
  cases marked : e'.resolving with
  | true => exact ⟨resolving, fun _ _ => ⟨id, id, rfl, .refl, mark.trans marked⟩⟩
  | false =>
  rw [if_neg (by simp)]
  have new : (start.tree.kind id).target? = none := by
    rw [Option.eq_none_iff_forall_ne_some]
    intro type got
    cases (known.trans target).symm.trans (resolving.kept id type got)
  have unknown : e.target = none := by rwa [kind] at new
  cases written : e.decl.bind (·.target) with
  | none =>
    refine ⟨resolving, .ask ?_⟩
    simp only [Query.target, kind, unknown, written, resolving.alike.qualifiedName]
    exact .answer _
  | some syn =>
  have unmarked : busy id = false := mark.trans marked
  have behind : Query.target start.tree id = .type start.tree id syn := by
    simp only [Query.target, kind, unknown, written]
  have again : update (update busy id true) id false = busy := by
    rw [update_idem, ← unmarked, update_eq_self]
  refine modifyAlias_leads resolving kind' rfl (by simp [target]) new fun s₁ inner => ?_
  have answers := type_answers (requests e kind unmarked) plain id syn
  rw [← behind] at answers
  refine leads_bind.mpr ((leads_attempt _ _).mpr ((answers s₁ inner).mono ?_ ?_))
  · rintro type s₂ ⟨resolving₂, got⟩
    obtain ⟨e₂, kind₂⟩ := resolving₂.alike.aliased kind
    exact modifyAlias_leads resolving₂ kind₂ rfl (by rintro _ ⟨⟩; exact .ask got) new
      fun s₃ outer => ⟨again ▸ outer, .ask got⟩
  · rintro problem s₂ ⟨resolving₂, absent⟩
    obtain ⟨e₂, kind₂⟩ := resolving₂.alike.aliased kind
    refine modifyAlias_leads resolving₂ kind₂ rfl (by simp [Except.toOption]) new
      fun s₃ outer => ⟨again ▸ outer, fun type finds => ?_⟩
    have acyclic := (finds.sound.2 id rfl).2
    cases finds with
    | ask finds =>
      obtain ⟨other, marked, refers, way, isBusy⟩ := absent type finds
      refine ⟨id, marked, rfl, .head refers way, ?_⟩
      by_cases same : marked = id
      · exact absurd ⟨id, .refl, .head' refers (same ▸ way)⟩ acyclic
      · rwa [update_of_ne same] at isBusy

theorem aliasWithin_answers (plain : ∀ id, (start.tree.kind id).Concrete) (depth : Nat)
    (enough : ((Finset.range start.tree.size).filter (busy · = false)).card < depth)
    (id : ScopeId) (span : Span) : Answers start busy (aliasWithin depth id span) (.ask id) := by
  induction depth generalizing busy id span with
  | zero => cases enough
  | succ depth ih =>
    refine resolveAlias_answers plain fun e kind unmarked i span => ih ?_ i span
    have lies := lt_of_kind_ne_block (show start.tree.kind id ≠ .block by simp [kind])
    have fewer : (Finset.range start.tree.size).filter (update busy id true · = false) =
        ((Finset.range start.tree.size).filter (busy · = false)).erase id := by
      ext i
      by_cases same : i = id <;> simp [same]
    rw [fewer]
    exact Nat.lt_of_lt_of_le (Finset.card_erase_lt_of_mem (by simp [lies, unmarked]))
      (Nat.le_of_lt_succ enough)

end

end Resolver

namespace Session

/-- A request for an alias leads from a session to another one, whether it succeeds or not. -/
def Requests (s s' : Session) : Prop :=
  ∃ id span, (∃ type, s.resolver.aliasTarget id span s = .ok type s') ∨
    ∃ d, s.resolver.aliasTarget id span s = .error d s'

variable {start s : Session} {busy : ScopeId → Bool}

theorem Resolving.request (resolving : start.Resolving busy s)
    (plain : ∀ id, (start.tree.kind id).Concrete) (id : ScopeId) (span : Span) :
    Leads (s.resolver.aliasTarget id span) s
      (fun type s' => s.resolver.aliasTarget id span s = .ok type s' ∧
        start.Resolving busy s' ∧ (Query.ask id).Finds start.tree type)
      fun d s' => s.resolver.aliasTarget id span s = .error d s' ∧ start.Resolving busy s' ∧
        ∀ type, (Query.ask id).Finds start.tree type → ∃ marked, busy marked := by
  refine leads_run (((Resolver.aliasWithin_answers plain _ ?_ id span) s resolving).mono
    (fun _ _ h => h) ?_)
  · refine Nat.lt_of_le_of_lt (Finset.card_filter_le _ _) ?_
    rw [resolving.alike.length, Finset.card_range]
    omega
  · rintro _ s' ⟨resolving, absent⟩
    refine ⟨resolving, fun type finds => ?_⟩
    obtain ⟨_, marked, -, -, isBusy⟩ := absent type finds
    exact ⟨marked, isBusy⟩

theorem Requests.resolving (plain : ∀ id, (start.tree.kind id).Concrete)
    (run : ReflTransGen Requests start s) :
    start.Resolving (fun id => (start.tree.kind id).isMarked) s := by
  induction run with
  | refl =>
    refine ⟨⟨rfl, fun _ => rfl⟩, rfl, fun _ => rfl, fun id type got => .ask ?_, fun _ _ h => h⟩
    unfold ScopeKind.target? at got
    unfold Query.target
    split at got
    · simp [got]
    · cases got
  | tail _ request ih =>
    obtain ⟨id, span, ⟨type, request⟩ | ⟨d, request⟩⟩ := request <;>
      have leads := ih.request plain id span <;>
      rw [Leads, request] at leads <;>
      exact leads.2.1

/-- However often aliases are asked for, no request goes on forever or changes a mark, and what does
not lead into a cycle has one type. -/
theorem aliases_exact (start : Session) (plain : ∀ id, (start.tree.kind id).Concrete) :
    (∀ s, ReflTransGen Requests start s → s.exhausted = start.exhausted ∧
      (∀ id, (s.tree.kind id).isMarked = (start.tree.kind id).isMarked) ∧
      ∀ id, start.tree.ReachesCycle id ∨ ¬start.tree.Wholesome id →
        (s.tree.kind id).target? = none ∧
        ∀ span, ∃ d s', s.resolver.aliasTarget id span s = .error d s') ∧
    ((∀ id, (start.tree.kind id).isMarked = false) → ∀ id, start.tree.Wholesome id →
      ¬start.tree.ReachesCycle id → ∃ type, (Query.ask id).Finds start.tree type ∧
        ∀ s, ReflTransGen Requests start s → ∀ span, ∃ s',
          s.resolver.aliasTarget id span s = .ok type s') := by
  refine ⟨fun s run => ?_, fun unmarked id wholesome acyclic => ?_⟩
  · have resolving := Requests.resolving plain run
    refine ⟨resolving.exhausted, resolving.marks, fun id bad => ?_⟩
    have refused : ∀ type, ¬(Query.ask id).Finds start.tree type := by
      intro type finds
      obtain ⟨wholesome, acyclic⟩ := finds.sound.2 id rfl
      exact bad.elim acyclic (absurd wholesome)
    refine ⟨Option.eq_none_iff_forall_ne_some.mpr fun type known =>
      refused type (resolving.sound id type known), fun span => ?_⟩
    have leads := resolving.request plain id span
    unfold Leads at leads
    split at leads
    · exact absurd leads.2.2 (refused _)
    · exact ⟨_, _, leads.1⟩
  · obtain ⟨type, got⟩ := wholesome.finds acyclic
    refine ⟨type, got, fun s run span => ?_⟩
    have leads := (Requests.resolving plain run).request plain id span
    unfold Leads at leads
    split at leads
    · exact ⟨_, got.unique leads.2.2 ▸ leads.1⟩
    · obtain ⟨marked, isBusy⟩ := leads.2.2 type got
      cases (unmarked marked).symm.trans isBusy

def cyclicAliases : Session :=
  let item (name : String) (target : TypeSyntax) : Item :=
    .decl (.typeAlias ⟨name, [], some target, {}⟩) false {}
  match registerItems root [item "A" (.reference (.named ["B"] [] {}) {}),
    item "B" (.array (.primitive .int {}) 2 {}), item "C" (.reference (.named ["C"] [] {}) {})]
    (.new "m") with
  | .ok _ s | .error _ s => s

theorem aliases_exact_cyclicAliases : cyclicAliases.tree.ReachesCycle 3 ∧
    ∀ s, ReflTransGen Requests cyclicAliases s → ∀ span,
      (∃ d s', s.resolver.aliasTarget 3 span s = .error d s') ∧
      ∃ s', s.resolver.aliasTarget 1 span s = .ok (.pointer (.array (.int 32 true) 2)) s' := by
  have got : cyclicAliases.tree.findFrom? 3 "C" = some 3 ∧
      cyclicAliases.tree.findFrom? 1 "B" = some 2 := by
    decide +kernel
  have refers : cyclicAliases.tree.Refers 3 3 := by
    change (Query.bind (.bind (.bind (.answer (cyclicAliases.tree.findFrom? 3 "C"))
      _) _) _).Asks _ 3
    rw [got.1]
    exact .inl (.inr ⟨3, .bind (.answer 3) (.answer 3), rfl⟩)
  have cycle : cyclicAliases.tree.ReachesCycle 3 := ⟨3, .refl, .single refers⟩
  have entries : (Query.ask 2).Finds cyclicAliases.tree (.array (.int 32 true) 2) :=
    .ask (.bind (.answer (Ty.int 32 true)) (.answer _))
  have finds : (Query.ask 1).Finds cyclicAliases.tree (.pointer (.array (.int 32 true) 2)) := by
    refine .ask ?_
    change (Query.bind (.bind (.bind (.answer (cyclicAliases.tree.findFrom? 1 "B"))
      _) _) _).Finds _ _
    rw [got.2]
    exact .bind (.bind (.bind (.answer 2) (.answer 2)) entries) (.answer _)
  have small (id : ScopeId) : (cyclicAliases.tree.kind id).Concrete ∧
      (cyclicAliases.tree.kind id).isMarked = false := by
    rcases id with _ | _ | _ | _ | id <;> first | exact ⟨trivial, rfl⟩ | exact ⟨rfl, rfl⟩
  have exact' := aliases_exact cyclicAliases fun id => (small id).1
  obtain ⟨wholesome, acyclic⟩ := finds.sound.2 1 rfl
  obtain ⟨type, got, always⟩ := exact'.2 (fun id => (small id).2) 1 wholesome acyclic
  obtain rfl := finds.unique got
  refine ⟨cycle, fun s run span => ⟨((exact'.1 s run).2.2 3 (.inl cycle)).2 span,
    always s run span⟩⟩

end Session

end Stencil
