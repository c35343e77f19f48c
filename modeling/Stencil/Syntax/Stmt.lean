import Stencil.Syntax.Expr

namespace Stencil

mutual

inductive Stmt where
  /-- A `let` or, when `constant`, a `const` statement. -/
  | binding (name : String) (nameSpan : Span) (type : Option TypeSyntax) (init : Option Expr)
      (constant : Bool) (span : Span)
  | assign (target value : Expr) (span : Span)
  | expr (value : Expr) (span : Span)
  | ret (value : Option Expr) (span : Span)
  | branch (condition : Expr) (body : Block) (otherwise : Alternative) (span : Span)
  | loop (condition : Expr) (body : Block) (span : Span)
  | leave (span : Span)
  | again (span : Span)
  | block (body : Block) (span : Span)

/-- What follows the body of a branch: nothing, an `else` block, or a further branch. -/
inductive Alternative where
  | absent
  | block (body : Block)
  | branch (next : Stmt)

inductive Block where
  | mk (stmts : List Stmt) (span : Span)

end

namespace Block

def stmts : Block → List Stmt
  | mk stmts _ => stmts

def span : Block → Span
  | mk _ span => span

end Block

instance : Inhabited Block := ⟨.mk [] {}⟩

instance : Inhabited Stmt := ⟨.leave {}⟩

namespace Stmt

def span : Stmt → Span
  | binding _ _ _ _ _ span | assign _ _ span | expr _ span | ret _ span | branch _ _ _ span
  | loop _ _ span | leave span | again span | block _ span => span

end Stmt

mutual

def Stmt.bare : Stmt → Stmt
  | .binding name _ type init constant _ =>
    .binding name {} (type.map TypeSyntax.bare) (init.map Expr.bare) constant {}
  | .assign target value _ => .assign target.bare value.bare {}
  | .expr value _ => .expr value.bare {}
  | .ret value _ => .ret (value.map Expr.bare) {}
  | .branch condition body otherwise _ =>
    .branch condition.bare body.bare otherwise.bare {}
  | .loop condition body _ => .loop condition.bare body.bare {}
  | .leave _ => .leave {}
  | .again _ => .again {}
  | .block body _ => .block body.bare {}

def Alternative.bare : Alternative → Alternative
  | .absent => .absent
  | .block body => .block body.bare
  | .branch next => .branch next.bare

def Block.bare : Block → Block
  | .mk stmts _ => .mk (Stmt.bares stmts) {}

def Stmt.bares : List Stmt → List Stmt
  | [] => []
  | s :: ss => s.bare :: Stmt.bares ss

end

end Stencil
