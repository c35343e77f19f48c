import Stencil.Ir.Inst
import Stencil.Syntax.Item
import Stencil.Ty.Basic

namespace Stencil

inductive Storage where
  | field
  | slot (addr : Ir.Value)
  | known (global : String) (value : Ir.Value)
  deriving DecidableEq, Repr, Inhabited

structure VariableEntry where
  type : Ty
  storage : Storage
  constant : Bool
  deriving DecidableEq, Repr, Inhabited

structure FunctionEntry where
  decl : FuncDecl
  signature : Signature
  /-- The function of the intermediate code, by its number. Functions of specs have none. -/
  code : Option Nat
  codeName : String
  deriving Inhabited

structure TemplateEntry where
  decl : TemplateDecl
  structName : String
  instanceOf : Option ScopeId
  implemented : List ScopeId
  /-- For a generic template: its actions and their scopes, to be applied to each instance. -/
  actions : List (ActionDecl × ScopeId)
  deriving Inhabited

def TemplateEntry.isGeneric (e : TemplateEntry) : Bool :=
  e.instanceOf.isNone && !e.decl.generics.isEmpty

structure AliasEntry where
  decl : Option AliasDecl
  target : Option Ty
  resolving : Bool
  instanceOf : Option ScopeId
  deriving Inhabited

def AliasEntry.isGeneric (e : AliasEntry) : Bool :=
  e.instanceOf.isNone && e.decl.any fun d => !d.generics.isEmpty

inductive ScopeKind where
  | module
  | package
  | function (e : FunctionEntry)
  | var (e : VariableEntry)
  | template (e : TemplateEntry)
  | typeAlias (e : AliasEntry)
  | block
  | spec (d : SpecDecl)
  deriving Inhabited

namespace ScopeKind

def tag : ScopeKind → String
  | module => "Module"
  | package => "Package"
  | function _ => "Function"
  | var _ => "Variable"
  | template _ => "Template"
  | typeAlias _ => "TypeAlias"
  | block => "Block"
  | spec _ => "Spec"

def var? : ScopeKind → Option VariableEntry
  | var e => some e
  | _ => none

def isVariable (k : ScopeKind) : Bool :=
  k.var?.isSome

def function? : ScopeKind → Option FunctionEntry
  | function e => some e
  | _ => none

def template? : ScopeKind → Option TemplateEntry
  | template e => some e
  | _ => none

def alias? : ScopeKind → Option AliasEntry
  | typeAlias e => some e
  | _ => none

def spec? : ScopeKind → Option SpecDecl
  | spec d => some d
  | _ => none

end ScopeKind

end Stencil
