import Mathlib.Data.List.Forall2
import Stencil.Proofs.Scope.Removal

namespace Stencil

/-- Whether any types can be the arguments of a template. -/
def TemplateDecl.isUnconstrained (d : TemplateDecl) : Bool :=
  d.generics.all (·.constraints.isEmpty)

namespace ScopeTree

variable {t t' : ScopeTree} {scope node : ScopeId} {param : GenericParam} {arg : Ty}
  {params : List GenericParam} {args : List Ty} {spared : List ScopeId}

def argument? (t : ScopeTree) (scope : ScopeId) (param : GenericParam) : Option Ty :=
  (t.findChild? scope param.name).bind fun id => (t.kind id).alias?.bind (·.target)

/-- Whether a scope is a live instance of a generic template for some arguments. -/
def isInstance (t : ScopeTree) (generic : ScopeId) (args : List Ty) (id : ScopeId) : Bool :=
  t.isAlive id && (t.kind id).template?.any fun e =>
    e.instanceOf = some generic && e.decl.generics.map (t.argument? id) = args.map some

def Binds (t : ScopeTree) (scope : ScopeId) (param : GenericParam) (arg : Ty) : Prop :=
  ∃ id e, t.parent? id = some scope ∧ t.name id = param.name ∧ t.isAlive id ∧
    t.kind id = .typeAlias e ∧ e.decl = none ∧ e.target = some arg

def HasArguments (t : ScopeTree) (scope : ScopeId) (params : List GenericParam) (args : List Ty) :
    Prop :=
  List.Forall₂ (t.Binds scope) params args

theorem Binds.mono (binds : t.Binds scope param arg) (h : t.Extends spared t') :
    t'.Binds scope param arg := by
  obtain ⟨id, e, up, name, alive, kind, parameter, target⟩ := binds
  have lies := lt_of_alive alive
  have refined := h.kind id lies
  rw [kind] at refined
  obtain ⟨e', kind', -, same⟩ := refined.alias_eq
  obtain rfl := same parameter
  exact ⟨id, e', (h.parent id lies).trans up, (h.name id lies).trans name,
    (h.alive id lies).trans alive, kind', parameter, target⟩

theorem Binds.argument (binds : t.Binds scope param arg) (shaped : t.Shaped) :
    t.argument? scope param = some arg := by
  obtain ⟨id, e, up, name, alive, kind, -, target⟩ := binds
  have got := shaped.registered id scope alive up
  rw [name] at got
  rw [argument?, got, Option.bind_some, kind]
  exact target

theorem Binds.remove (binds : t.Binds scope param arg) (shaped : t.Shaped)
    (kept : scope ∉ t.removed node) (declared : ∀ e, t.kind node = .typeAlias e → e.decl ≠ none) :
    (t.remove node).Binds scope param arg := by
  obtain ⟨id, e, up, name, alive, kind, parameter, target⟩ := binds
  have stays := shaped.not_mem_removed kept up fun same => declared e (same ▸ kind) parameter
  exact ⟨id, e, (parent_remove t node id).trans up, (name_remove t node id).trans name,
    (alive_remove_other stays).trans alive, (kind_remove t node id).trans kind, parameter, target⟩

theorem HasArguments.mono (has : t.HasArguments scope params args) (h : t.Extends spared t') :
    t'.HasArguments scope params args :=
  List.Forall₂.imp (fun _ _ binds => binds.mono h) has

theorem HasArguments.remove (has : t.HasArguments scope params args) (shaped : t.Shaped)
    (kept : scope ∉ t.removed node) (declared : ∀ e, t.kind node = .typeAlias e → e.decl ≠ none) :
    (t.remove node).HasArguments scope params args :=
  List.Forall₂.imp (fun _ _ binds => binds.remove shaped kept declared) has

theorem HasArguments.arguments (has : t.HasArguments scope params args) (shaped : t.Shaped) :
    params.map (t.argument? scope) = args.map some := by
  induction has with
  | nil => rfl
  | cons binds _ ih => rw [List.map_cons, List.map_cons, binds.argument shaped, ih]

end ScopeTree

end Stencil
