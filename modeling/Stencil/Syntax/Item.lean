import Stencil.Syntax.Stmt

namespace Stencil

structure GenericParam where
  name : String
  constraints : List TypeSyntax
  span : Span
  deriving Inhabited

structure Param where
  name : String
  type : TypeSyntax
  span : Span
  deriving Inhabited

structure FuncDecl where
  name : String
  nameSpan : Span
  hasSelf : Bool
  params : List Param
  result : Option TypeSyntax
  body : Option Block
  span : Span
  deriving Inhabited

structure FieldDecl where
  name : String
  type : TypeSyntax
  span : Span
  deriving Inhabited

structure TemplateDecl where
  name : String
  generics : List GenericParam
  fields : List FieldDecl
  methods : List FuncDecl
  span : Span
  deriving Inhabited

structure AliasDecl where
  name : String
  generics : List GenericParam
  target : Option TypeSyntax
  span : Span
  deriving Inhabited

structure SpecDecl where
  name : String
  aliases : List AliasDecl
  methods : List FuncDecl
  span : Span
  deriving Inhabited

/-- Members that are added to a template, to implement a spec or on their own. -/
structure ActionDecl where
  spec : Option TypeSyntax
  target : TypeSyntax
  aliases : List AliasDecl
  methods : List FuncDecl
  span : Span
  deriving Inhabited

structure ConstDecl where
  name : String
  type : Option TypeSyntax
  value : Expr
  span : Span
  deriving Inhabited

inductive Decl where
  | func (d : FuncDecl)
  | template (d : TemplateDecl)
  | typeAlias (d : AliasDecl)
  | spec (d : SpecDecl)
  | action (d : ActionDecl)
  | const (d : ConstDecl)
  deriving Inhabited

inductive Item where
  | decl (d : Decl) (exported : Bool) (span : Span)
  /-- A package; `declSpan` leaves out the `export` before it. -/
  | package (name : String) (items : List Item) (declSpan : Span) (exported : Bool) (span : Span)
  deriving Inhabited

namespace Item

def span : Item → Span
  | decl _ _ span | package _ _ _ _ span => span

def exported : Item → Bool
  | decl _ exported _ | package _ _ _ exported _ => exported

end Item

structure Module where
  items : List Item
  span : Span
  deriving Inhabited

end Stencil
