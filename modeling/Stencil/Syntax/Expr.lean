import Stencil.Syntax.Type

namespace Stencil

inductive BinaryOp where
  | add | sub | mul | div | rem
  | bitAnd | bitOr | bitXor | shl | shr
  | eq | ne | lt | le | gt | ge
  | and | or
  deriving DecidableEq, Repr, Inhabited

namespace BinaryOp

def symbol : BinaryOp → Symbol
  | add => .plus
  | sub => .minus
  | mul => .star
  | div => .slash
  | rem => .percent
  | bitAnd => .amp
  | bitOr => .pipe
  | bitXor => .caret
  | shl => .shl
  | shr => .shr
  | eq => .eqEq
  | ne => .notEq
  | lt => .lt
  | le => .le
  | gt => .gt
  | ge => .ge
  | and => .andAnd
  | or => .orOr

def text (op : BinaryOp) : String :=
  op.symbol.text

def ofSymbol? : Symbol → Option BinaryOp
  | .plus => some add
  | .minus => some sub
  | .star => some mul
  | .slash => some div
  | .percent => some rem
  | .amp => some bitAnd
  | .pipe => some bitOr
  | .caret => some bitXor
  | .shl => some shl
  | .shr => some shr
  | .eqEq => some eq
  | .notEq => some ne
  | .lt => some lt
  | .le => some le
  | .gt => some gt
  | .ge => some ge
  | .andAnd => some and
  | .orOr => some or
  | _ => none

theorem ofSymbol?_symbol (op : BinaryOp) : ofSymbol? op.symbol = some op := by
  cases op <;> rfl

/-- Operators of higher precedence bind tighter; those of one precedence group to the left. -/
def precedence : BinaryOp → Nat
  | or => 1
  | and => 2
  | eq | ne | lt | le | gt | ge => 3
  | bitOr => 4
  | bitXor => 5
  | bitAnd => 6
  | shl | shr => 7
  | add | sub => 8
  | mul | div | rem => 9

end BinaryOp

inductive UnaryOp where
  | neg | not | bitNot
  deriving DecidableEq, Repr, Inhabited

def UnaryOp.text : UnaryOp → String
  | neg => "-"
  | not => "!"
  | bitNot => "~"

structure Entry (α : Type) where
  name : Option String
  value : α
  span : Span
  deriving Repr

def Entry.head {α : Type} (e : Entry α) : Option String × Span :=
  (e.name, e.span)

inductive Expr where
  | int (value : UInt64) (span : Span)
  | float (value : Float) (span : Span)
  | bool (value : Bool) (span : Span)
  | string (value : String) (span : Span)
  | array (items : List Expr) (span : Span)
  | initializer (entries : List (Entry Expr)) (span : Span)
  | identifier (name : String) (span : Span)
  | member (object : Expr) (name : String) (nameSpan : Span) (span : Span)
  | call (callee : Expr) (args : List Expr) (span : Span)
  | index (base position : Expr) (span : Span)
  | binary (op : BinaryOp) (left right : Expr) (span : Span)
  | unary (op : UnaryOp) (operand : Expr) (span : Span)
  | addressOf (operand : Expr) (span : Span)
  | deref (operand : Expr) (span : Span)
  | cast (operand : Expr) (type : TypeSyntax) (span : Span)
  deriving Repr, Inhabited

namespace Expr

def span : Expr → Span
  | int _ span | float _ span | bool _ span | string _ span | array _ span | initializer _ span
  | identifier _ span | member _ _ _ span | call _ _ span | index _ _ span | binary _ _ _ span
  | unary _ _ span | addressOf _ span | deref _ span | cast _ _ span => span

def withSpan (e : Expr) (span : Span) : Expr :=
  match e with
  | int value _ => int value span
  | float value _ => float value span
  | bool value _ => bool value span
  | string value _ => string value span
  | array items _ => array items span
  | initializer entries _ => initializer entries span
  | identifier name _ => identifier name span
  | member object name nameSpan _ => member object name nameSpan span
  | call callee args _ => call callee args span
  | index base position _ => index base position span
  | binary op left right _ => binary op left right span
  | unary op operand _ => unary op operand span
  | addressOf operand _ => addressOf operand span
  | deref operand _ => deref operand span
  | cast operand type _ => cast operand type span

mutual

def bare : Expr → Expr
  | int value _ => int value {}
  | float value _ => float value {}
  | bool value _ => bool value {}
  | string value _ => string value {}
  | array items _ => array (bares items) {}
  | initializer entries _ => initializer (bareEntries entries) {}
  | identifier name _ => identifier name {}
  | member object name _ _ => member (bare object) name {} {}
  | call callee args _ => call (bare callee) (bares args) {}
  | index base position _ => index (bare base) (bare position) {}
  | binary op left right _ => binary op (bare left) (bare right) {}
  | unary op operand _ => unary op (bare operand) {}
  | addressOf operand _ => addressOf (bare operand) {}
  | deref operand _ => deref (bare operand) {}
  | cast operand type _ => cast (bare operand) type.bare {}

def bares : List Expr → List Expr
  | [] => []
  | e :: es => bare e :: bares es

def bareEntries : List (Entry Expr) → List (Entry Expr)
  | [] => []
  | e :: es => { name := e.name, value := bare e.value, span := {} } :: bareEntries es

end

end Expr

end Stencil
