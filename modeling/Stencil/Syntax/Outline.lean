import Stencil.Source.Lines
import Stencil.Syntax.Item

namespace Stencil

inductive Outline where
  | node (kind : String) (label : Option String) (span : Span) (children : List Outline)
  deriving Inhabited

namespace Outline

def kind : Outline → String
  | node kind _ _ _ => kind

def label : Outline → Option String
  | node _ label _ _ => label

def span : Outline → Span
  | node _ _ span _ => span

def children : Outline → List Outline
  | node _ _ _ children => children

def descend? : Outline → List Nat → Option Outline
  | o, [] => some o
  | o, i :: path => do (← o.children[i]?).descend? path

mutual

def listing (index : LineIndex) (depth : Nat) : Outline → String
  | node kind label span children =>
    let shown := match label with
      | some label => " " ++ label
      | none => ""
    String.ofList (List.replicate (2 * depth) ' ') ++ kind ++ shown ++ " @" ++
      (index.range span).text ++ "\n" ++ listings index (depth + 1) children

def listings (index : LineIndex) (depth : Nat) : List Outline → String
  | [] => ""
  | o :: os => listing index depth o ++ listings index depth os

end

end Outline

def TypeSyntax.outline (t : TypeSyntax) : Outline :=
  .node "Type" (some t.text) t.span []

mutual

def Expr.outline : Expr → Outline
  | .int value span => .node "IntLiteral" (some (toString value)) span []
  | .float value span => .node "FloatLiteral" (some (FloatLayout.source.write value)) span []
  | .bool value span => .node "BoolLiteral" (some (if value then "true" else "false")) span []
  | .string value span => .node "StringLiteral" (some (Escape.labelText value)) span []
  | .array items span => .node "ArrayLiteral" none span (Expr.outlines items)
  | .initializer entries span => .node "Initializer" none span (Expr.entryOutlines entries)
  | .identifier name span => .node "Identifier" (some name) span []
  | .member object name _ span => .node "Member" (some name) span [object.outline]
  | .call callee args span => .node "Call" none span (callee.outline :: Expr.outlines args)
  | .index base position span => .node "Index" none span [base.outline, position.outline]
  | .binary op left right span =>
    .node "Binary" (some op.text) span [left.outline, right.outline]
  | .unary op operand span => .node "Unary" (some op.text) span [operand.outline]
  | .addressOf operand span => .node "AddressOf" none span [operand.outline]
  | .deref operand span => .node "Deref" none span [operand.outline]
  | .cast operand type span => .node "Cast" none span [operand.outline, type.outline]

def Expr.outlines : List Expr → List Outline
  | [] => []
  | e :: es => e.outline :: Expr.outlines es

def Expr.entryOutlines : List (Entry Expr) → List Outline
  | [] => []
  | e :: es => .node "InitField" e.name e.span [e.value.outline] :: Expr.entryOutlines es

end

mutual

def Stmt.outline : Stmt → Outline
  | .binding name _ type init constant span =>
    .node (if constant then "ConstStmt" else "LetStmt") (some name) span
      ((type.map TypeSyntax.outline).toList ++ (init.map Expr.outline).toList)
  | .assign target value span => .node "AssignStmt" none span [target.outline, value.outline]
  | .expr value span => .node "ExprStmt" none span [value.outline]
  | .ret value span => .node "ReturnStmt" none span (value.map Expr.outline).toList
  | .branch condition body otherwise span =>
    .node "IfStmt" none span (condition.outline :: body.outline :: otherwise.outlines)
  | .loop condition body span => .node "WhileStmt" none span [condition.outline, body.outline]
  | .leave span => .node "BreakStmt" none span []
  | .again span => .node "ContinueStmt" none span []
  | .block body span => .node "BlockStmt" none span [body.outline]

def Alternative.outlines : Alternative → List Outline
  | .absent => []
  | .block body => [body.outline]
  | .branch next => [next.outline]

def Block.outline : Block → Outline
  | .mk stmts span => .node "Block" none span (Stmt.outlines stmts)

def Stmt.outlines : List Stmt → List Outline
  | [] => []
  | s :: ss => s.outline :: Stmt.outlines ss

end

def GenericParam.outline (g : GenericParam) : Outline :=
  .node "GenericParam" (some g.name) g.span (g.constraints.map TypeSyntax.outline)

def Param.outline (p : Param) : Outline :=
  .node "Param" (some p.name) p.span [p.type.outline]

def FieldDecl.outline (f : FieldDecl) : Outline :=
  .node "Field" (some f.name) f.span [f.type.outline]

def FuncDecl.children (f : FuncDecl) : List Outline :=
  f.params.map Param.outline ++ (f.result.map TypeSyntax.outline).toList ++
    (f.body.map Block.outline).toList

def FuncDecl.outline (f : FuncDecl) : Outline :=
  .node "Func" (some f.name) f.span f.children

def AliasDecl.children (a : AliasDecl) : List Outline :=
  a.generics.map GenericParam.outline ++ (a.target.map TypeSyntax.outline).toList

def AliasDecl.outline (a : AliasDecl) : Outline :=
  .node "TypeAlias" (some a.name) a.span a.children

namespace Decl

def kindName : Decl → String
  | func _ => "Func"
  | template _ => "Template"
  | typeAlias _ => "TypeAlias"
  | spec _ => "Spec"
  | action _ => "Action"
  | const _ => "Const"

def label : Decl → String
  | func d => d.name
  | template d => d.name
  | typeAlias d => d.name
  | spec d => d.name
  | action d =>
    match d.spec with
    | some wanted => wanted.text ++ " in " ++ d.target.text
    | none => d.target.text
  | const d => d.name

def children : Decl → List Outline
  | func d => d.children
  | template d =>
    d.generics.map GenericParam.outline ++ d.fields.map FieldDecl.outline ++
      d.methods.map FuncDecl.outline
  | typeAlias d => d.children
  | spec d => d.aliases.map AliasDecl.outline ++ d.methods.map FuncDecl.outline
  | action d =>
    (d.spec.map TypeSyntax.outline).toList ++ d.target.outline ::
      (d.aliases.map AliasDecl.outline ++ d.methods.map FuncDecl.outline)
  | const d => (d.type.map TypeSyntax.outline).toList ++ [d.value.outline]

end Decl

def exportLabel (exported : Bool) (label : String) : String :=
  if exported then "export " ++ label else label

mutual

def Item.outline : Item → Outline
  | .decl d exported span => .node d.kindName (some (exportLabel exported d.label)) span d.children
  | .package name items _ exported span =>
    .node "Package" (some (exportLabel exported name)) span (Item.outlines items)

def Item.outlines : List Item → List Outline
  | [] => []
  | i :: is => i.outline :: Item.outlines is

end

def Module.outline (m : Module) : Outline :=
  .node "Module" none m.span (Item.outlines m.items)

def Outline.text (o : Outline) (source : String) : String :=
  o.listing (LineIndex.ofSource source) 0

end Stencil
