import Stencil.Analysis.Instance
import Stencil.Proofs.Ir.Structs
import Stencil.Proofs.Scope.Arguments
import Stencil.Proofs.Scope.Names

/-!
What a session owes to the declarations that it has taken up. What has been done stays done, unless
the template itself is removed, and only instances are removed.
-/

namespace Stencil

open ScopeTree

variable {id : ScopeId}

namespace ScopeTree

variable {t t' t'' : ScopeTree} {parent node : ScopeId} {decl : FuncDecl} {spared : List ScopeId}

/-- A tree whose scopes another one still has or has removed. -/
structure Precedes (t t' : ScopeTree) : Prop where
  length : t.size ≤ t'.size
  parent : ∀ id, id < t.size → t'.parent? id = t.parent? id
  name : ∀ id, id < t.size → t'.name id = t.name id
  kind : ∀ id, id < t.size → (t.kind id).Refined (t'.kind id)

theorem Extends.precedes (h : t.Extends spared t') : t.Precedes t' :=
  ⟨h.length, h.parent, h.name, h.kind⟩

theorem precedes_remove (t : ScopeTree) (node : ScopeId) : t.Precedes (t.remove node) where
  length := Nat.le_of_eq (length_remove t node).symm
  parent id _ := parent_remove t node id
  name id _ := name_remove t node id
  kind id _ := by
    rw [kind_remove]
    exact .same _

theorem Precedes.trans (fst : t.Precedes t') (snd : t'.Precedes t'') : t.Precedes t'' where
  length := Nat.le_trans fst.length snd.length
  parent id lies := (snd.parent id (Nat.lt_of_lt_of_le lies fst.length)).trans (fst.parent id lies)
  name id lies := (snd.name id (Nat.lt_of_lt_of_le lies fst.length)).trans (fst.name id lies)
  kind id lies := (fst.kind id lies).trans (snd.kind id (Nat.lt_of_lt_of_le lies fst.length))

theorem Precedes.path (h : t.Precedes t') (lies : id < t.size) : t'.path id = t.path id :=
  path_congr (fun a upTo => h.parent a (Nat.lt_of_le_of_lt upTo lies))
    fun a upTo => h.name a (Nat.lt_of_le_of_lt upTo lies)

def Declares (t : ScopeTree) (parent : ScopeId) (decl : FuncDecl) : Prop :=
  ∃ id e, t.parent? id = some parent ∧ t.isAlive id ∧ t.kind id = .function e ∧
    e.decl = decl ∧ e.code.isSome

theorem Declares.mono (declares : t.Declares parent decl) (h : t.Extends spared t') :
    t'.Declares parent decl := by
  obtain ⟨id, e, up, alive, kind, same, code⟩ := declares
  have lies := lt_of_alive alive
  have refined := h.kind id lies
  rw [kind] at refined
  exact ⟨id, e, (h.parent id lies).trans up, (h.alive id lies).trans alive,
    refined.function_eq, same, code⟩

theorem Declares.remove (declares : t.Declares parent decl) (shaped : t.Shaped)
    (kept : parent ∉ t.removed node)
    (holds : (t.kind node).alias?.isSome ∨ (t.kind node).template?.isSome) :
    (t.remove node).Declares parent decl := by
  obtain ⟨id, e, up, alive, kind, same, code⟩ := declares
  have other : id ≠ node := by
    rintro rfl
    rw [kind] at holds
    exact holds.elim nofun nofun
  have stays := shaped.not_mem_removed kept up other
  exact ⟨id, e, (parent_remove t node id).trans up, (alive_remove_other stays).trans alive,
    (kind_remove t node id).trans kind, same, code⟩

end ScopeTree

namespace Session

variable {s s' : Session} {spared : List ScopeId}

def Furnished (s : Session) (id : ScopeId) : Prop :=
  ∀ e, s.tree.kind id = .template e → s.tree.isAlive id → e.isGeneric = false →
    s.builder.module.Defines e.structName ∧
      ∀ decl ∈ e.decl.methods, s.tree.Declares id decl

def Stays (s : Session) (id : ScopeId) : Prop :=
  ∀ e, s.tree.kind id = .template e → e.instanceOf = none → s.tree.isAlive id

def Targets (s : Session) (action : ActionDecl) (scope target : ScopeId) : Prop :=
  ∃ depth before after, before.tree.Shaped ∧ before.tree.Precedes s.tree ∧
    (Resolver.within depth).actionTarget action scope before = .ok target after ∧
      after.tree.Precedes s.tree

/-- An action whose functions are in the template that it extends. Those of an action on a generic
template belong to its instances. -/
def Acted (s : Session) (action : ActionDecl) (scope : ScopeId) : Prop :=
  ∃ target e, s.tree.kind target = .template e ∧ s.Targets action scope target ∧
    (s.tree.isAlive target → e.isGeneric = false →
      ∀ decl ∈ action.methods, s.tree.Declares target decl)

/-- Something that a session has to see to. -/
inductive Duty where
  | original (id : ScopeId)
  | template (id : ScopeId)
  | action (index : Nat)

def Meets (s : Session) : Duty → Prop
  | .original id => s.Stays id
  | .template id => s.Furnished id
  | .action index => ∀ p, s.actions[index]? = some p → p.applied → s.Acted p.decl p.scope

def Duty.Apart (spared : List ScopeId) : Duty → Prop
  | .original id | .template id => id ∉ spared
  | .action _ => True

theorem Duty.Apart.fewer {spared' : List ScopeId} {duty : Duty} (apart : duty.Apart spared')
    (more : ∀ id ∈ spared, id ∈ spared') : duty.Apart spared := by
  cases duty with
  | original id | template id => exact fun mem => apart (more id mem)
  | action => trivial

theorem isGeneric_congr {e e' : TemplateEntry} (decl : e'.decl = e.decl)
    (instanceOf : e'.instanceOf = e.instanceOf) : e'.isGeneric = e.isGeneric := by
  rw [TemplateEntry.isGeneric, TemplateEntry.isGeneric, decl, instanceOf]

theorem Furnished.mono (furnished : s.Furnished id)
    (tree : s.tree.Extends spared s'.tree) (lies : id < s.tree.size)
    (structs : ∀ name, s.builder.module.Defines name → s'.builder.module.Defines name) :
    s'.Furnished id := by
  intro e kind alive concrete
  obtain ⟨e0, before, decl, struct, instanceOf⟩ := tree.of_kind_template lies kind
  obtain ⟨defined, declares⟩ := furnished e0 before ((tree.alive id lies).symm.trans alive)
    ((isGeneric_congr decl instanceOf).symm.trans concrete)
  refine ⟨struct ▸ structs _ defined, fun method mem => ?_⟩
  exact (declares method (decl ▸ mem)).mono tree

theorem Stays.mono (stays : s.Stays id) (tree : s.tree.Extends spared s'.tree)
    (lies : id < s.tree.size) : s'.Stays id := by
  intro e kind original
  obtain ⟨e0, before, -, -, instanceOf⟩ := tree.of_kind_template lies kind
  exact (tree.alive id lies).trans (stays e0 before (instanceOf.symm.trans original))

variable {action : ActionDecl}

theorem Targets.mono {scope target : ScopeId}
    (targets : s.Targets action scope target) (tree : s.tree.Precedes s'.tree) :
    s'.Targets action scope target := by
  obtain ⟨depth, before, after, shaped, fst, run, snd⟩ := targets
  exact ⟨depth, before, after, shaped, fst.trans tree, run, snd.trans tree⟩

theorem Acted.mono {scope : ScopeId} (acted : s.Acted action scope)
    (tree : s.tree.Extends spared s'.tree) : s'.Acted action scope := by
  obtain ⟨target, e, kind, targets, declares⟩ := acted
  have lies := lt_of_template kind
  obtain ⟨e', kind', decl, -, instanceOf⟩ := tree.kind_template kind
  refine ⟨target, e', kind', targets.mono tree.precedes, fun alive concrete method mem => ?_⟩
  exact (declares ((tree.alive target lies).symm.trans alive)
    ((isGeneric_congr decl instanceOf).symm.trans concrete) method mem).mono tree

/-- Duties that are met stay so; new templates have duties of their own. -/
theorem Meets.mono {duty : Duty} (meets : s.Meets duty) (apart : duty.Apart spared)
    (tree : s.tree.Extends spared s'.tree)
    (structs : ∀ name, s.builder.module.Defines name → s'.builder.module.Defines name)
    (actions : s'.actions = s.actions)
    (fresh : ∀ id e, id ∉ spared → s'.tree.kind id = .template e → id < s.tree.size) :
    s'.Meets duty := by
  cases duty with
  | original id =>
    intro e kind
    exact Stays.mono meets tree (fresh id e apart kind) e kind
  | template id =>
    intro e kind
    exact Furnished.mono meets tree (fresh id e apart kind) structs e kind
  | action =>
    intro p has applied
    rw [actions] at has
    exact (meets p has applied).mono tree

variable {node : ScopeId} (shaped : s.tree.Shaped)
  (holds : (s.tree.kind node).alias?.isSome ∨ (s.tree.kind node).template?.isSome)

include shaped holds in
theorem template_kept (isTemplate : (s.tree.kind id).template?.isSome)
    (other : id ≠ node) : id ∉ s.tree.removed node := by
  intro gone
  rcases shaped.mem_removed (holds.imp_left ScopeKind.isMember_of_alias) id gone with
    same | ⟨-, isMember⟩
  · exact other same
  rw [ScopeKind.isMember_of_template isTemplate] at isMember
  cases isMember

include shaped holds in
theorem Stays.remove (stays : s.Stays id) (other : id ≠ node) :
    ({ s with tree := s.tree.remove node } : Session).Stays id := by
  intro e kind original
  rw [kind_remove] at kind
  have kept := template_kept shaped holds (by rw [kind]; rfl) other
  exact (alive_remove_other kept).trans (stays e kind original)

include shaped holds in
theorem Furnished.remove (furnished : s.Furnished id) (other : id ≠ node) :
    ({ s with tree := s.tree.remove node } : Session).Furnished id := by
  intro e kind alive concrete
  rw [kind_remove] at kind
  obtain ⟨defined, declares⟩ :=
    furnished e kind (alive_of_alive_remove alive) concrete
  have kept := template_kept shaped holds (by rw [kind]; rfl) other
  exact ⟨defined, fun method mem => (declares method mem).remove shaped kept holds⟩

include shaped holds in
theorem Acted.remove {scope : ScopeId} (acted : s.Acted action scope) :
    ({ s with tree := s.tree.remove node } : Session).Acted action scope := by
  obtain ⟨target, e, kind, targets, declares⟩ := acted
  refine ⟨target, e, (kind_remove s.tree node target).trans kind,
    targets.mono (precedes_remove s.tree node), fun alive concrete method mem => ?_⟩
  have other : target ≠ node := by
    rintro rfl
    exact Bool.false_ne_true ((alive_remove_self s.tree target).symm.trans alive)
  have kept := template_kept shaped holds (by rw [kind]; rfl) other
  exact (declares (alive_of_alive_remove alive) concrete method mem).remove shaped kept holds

end Session

end Stencil
