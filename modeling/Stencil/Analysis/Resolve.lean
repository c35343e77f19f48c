import Stencil.Analysis.Session

/-!
What type syntax means. A name may stand for an alias or for a generic declaration, whose meaning
lies in another declaration; a `Resolver` says how to go there.
-/

namespace Stencil

structure Resolver where
  aliasTarget : ScopeId → Span → Analysis Ty
  instantiate : ScopeId → List Ty → Span → Analysis Ty

open Analysis

/-- `Self` in a scope: an instance of the template around it, or whatever implements the spec. -/
def ScopeTree.selfType? (t : ScopeTree) (scope : ScopeId) : Option Ty := do
  let id ← t.enclosing? scope fun k => k.template?.isSome || k.spec?.isSome
  match t.kind id with
  | .template e => some (.struct e.structName id)
  | _ => some (.spec (t.qualifiedName id) id)

def requireStorable (type : Ty) (span : Span) : Analysis Unit :=
  match type with
  | .spec name _ => fail (.specStorage name) span
  | .void => fail .voidStorage span
  | _ => return ()

namespace Resolver

def namespaceScope (r : Resolver) (id : ScopeId) (span : Span) : Analysis ScopeId := do
  let t ← tree
  match t.kind id with
  | .module | .package | .template _ | .spec _ => return id
  | .typeAlias _ =>
    let target ← r.aliasTarget id span
    match target.structScope? with
    | some scope => return scope
    | none => fail (.noMembers target.text) span
  | _ => fail (.notNamespace (t.name id)) span

def descend (r : Resolver) (shown : String) (span : Span) : ScopeId → List String → Analysis ScopeId
  | id, [] => return id
  | id, name :: names => do
    let scope ← r.namespaceScope id span
    match (← tree).findChild? scope name with
    | some child => r.descend shown span child names
    | none => fail (.unknownType shown) span

/-- What a dotted path means in a scope: its first name is looked up there, the others are
members. -/
def lookupPath (r : Resolver) (path : List String) (scope : ScopeId) (span : Span) :
    Analysis ScopeId := do
  let shown := ".".intercalate path
  match path with
  | [] => fail (.unknownType shown) span
  | first :: rest =>
    match (← tree).findFrom? scope first with
    | some id => r.descend shown span id rest
    | none => fail (.unknownType shown) span

/-- The instance of a generic declaration for some arguments, which is made only once. -/
def generic (r : Resolver) (id : ScopeId) (args : List Ty) (span : Span) : Analysis Ty := do
  match (← get).instances.lookup (id, args) with
  | some type => return type
  | none => r.instantiate id args span

def refuseArguments {α : Type} (shown : String) (args : List α) (span : Span) : Analysis Unit :=
  unless args.isEmpty do fail (.argumentCount shown 0 args.length) span

mutual

def type (r : Resolver) (scope : ScopeId) : TypeSyntax → Analysis Ty
  | .primitive p _ => return .ofPrimitive p
  | .self span => do
    match (← tree).selfType? scope with
    | some type => return type
    | none => fail (.unknownType "Self") span
  | .reference target _ => return .pointer (← type r scope target)
  | .array element length span => do
    let element ← type r scope element
    requireStorable element span
    return .array element length
  | .function params result _ => do
    let params ← types r scope params
    return .function params (← resultType r scope result) false
  | .named path args span => do
    let id ← r.lookupPath path scope span
    let shown := ".".intercalate path
    let t ← tree
    match t.kind id with
    | .template e =>
      if e.isGeneric then r.generic id (← types r scope args) span
      else
        refuseArguments shown args span
        return .struct e.structName id
    | .typeAlias e =>
      if e.isGeneric then r.generic id (← types r scope args) span
      else
        refuseArguments shown args span
        r.aliasTarget id span
    | .spec _ =>
      refuseArguments shown args span
      return .spec (t.qualifiedName id) id
    | _ => fail (.unknownType shown) span

def types (r : Resolver) (scope : ScopeId) : List TypeSyntax → Analysis (List Ty)
  | [] => return []
  | t :: ts => do
    let first ← type r scope t
    return first :: (← types r scope ts)

def resultType (r : Resolver) (scope : ScopeId) : Option TypeSyntax → Analysis Ty
  | none => return .void
  | some t => type r scope t

end

/-- The type that an alias stands for. It is found on the first request; while that is under way,
a further request would go round in a circle. -/
def resolveAlias (r : Resolver) (id : ScopeId) (span : Span) : Analysis Ty := do
  let t ← tree
  match t.kind id with
  | .typeAlias e =>
    if let some target := e.target then return target
    if e.resolving then fail (.selfReferringAlias (t.name id)) span
    if e.isGeneric then
      fail (.argumentCount (t.name id) ((e.decl.map (·.generics.length)).getD 0) 0) span
    match e.decl.bind (·.target) with
    | none => return .spec (t.qualifiedName id) id
    | some target =>
      modifyAlias id fun e => { e with resolving := true }
      let result ← attempt (r.type id target)
      modifyAlias id fun e => { e with resolving := false, target := result.toOption }
      fromExcept result
  | _ => fail (.unknownType (t.name id)) span

end Resolver

end Stencil
