import Stencil.Grammar.Type

/-!
The grammar of expressions. A line end closes an expression before an operator, a call, an index
or a cast, but not before a member access. From tight to loose: primary expressions, calls and
members, operators in front, casts, binary operators by precedence.
-/

namespace Stencil.Grammar

/-- The field that an entry names, which starts with `token`: a name before a colon. -/
def entryName (token : Token) : Parser (Option String) := do
  match token.kind with
  | .identifier _ =>
    if ← checkSecond (symbol .colon) then
      let (name, _) ← identifier
      let _ ← expect (symbol .colon)
      return some name
    else return none
  | _ => return none

def entry (expr : Parser Expr) : Parser (Entry Expr) := do
  let token ← peek
  let name ← entryName token
  let value ← expr
  return { name, value, span := ← spanFrom token.span.start }

def primary (expr : Parser Expr) (n : Nat) : Parser Expr := do
  let token ← next
  let start := token.span.start
  match token.kind with
  | .int value => return .int value (← spanFrom start)
  | .float value => return .float value (← spanFrom start)
  | .string value => return .string value (← spanFrom start)
  | .keyword .kwTrue => return .bool true (← spanFrom start)
  | .keyword .kwFalse => return .bool false (← spanFrom start)
  | .identifier name => return .identifier name (← spanFrom start)
  | .keyword .kwSelf => return .identifier "self" (← spanFrom start)
  | .symbol .lparen =>
    let inner ← expr
    let _ ← expect (symbol .rparen)
    return inner.withSpan (← spanFrom start)
  | .symbol .lbracket =>
    let items ← commaList (symbol .rbracket) expr n
    let _ ← expect (symbol .rbracket)
    return .array items (← spanFrom start)
  | .symbol .lbrace =>
    let entries ← commaList (symbol .rbrace) (entry expr) n
    let _ ← expect (symbol .rbrace)
    return .initializer entries (← spanFrom start)
  | _ => unexpected "expression" token

def suffixes (expr : Parser Expr) (start : Nat) : Nat → Expr → Parser Expr
  | 0, _ => exhausted
  | n + 1, e => do
    if ← sameLine (symbol .lparen) then
      let _ ← next
      let args ← commaList (symbol .rparen) expr n
      let _ ← expect (symbol .rparen)
      suffixes expr start n (.call e args (← spanFrom start))
    else if ← check (symbol .dot) then
      let _ ← next
      let (name, nameSpan) ← identifier
      suffixes expr start n (.member e name nameSpan (← spanFrom start))
    else if ← sameLine (symbol .lbracket) then
      let _ ← next
      let position ← expr
      let _ ← expect (symbol .rbracket)
      suffixes expr start n (.index e position (← spanFrom start))
    else return e

def prefixed? : TokenKind → Option (Expr → Span → Expr)
  | .symbol .minus => some (.unary .neg)
  | .symbol .bang => some (.unary .not)
  | .symbol .tilde => some (.unary .bitNot)
  | .symbol .amp => some .addressOf
  | .symbol .star => some .deref
  | _ => none

def unary (expr : Parser Expr) : Nat → Parser Expr
  | 0 => exhausted
  | n + 1 => do
    let token ← peek
    match prefixed? token.kind with
    | some build =>
      let _ ← next
      let operand ← unary expr n
      return build operand (← spanFrom token.span.start)
    | none =>
      let e ← primary expr n
      suffixes expr e.span.start n e

def casts : Nat → Expr → Parser Expr
  | 0, _ => exhausted
  | n + 1, e => do
    if ← sameLine (keyword .kwAs) then
      let _ ← next
      let target ← type n
      casts n (.cast e target (e.span.join target.span))
    else return e

def binaryOp? : Parser (Option BinaryOp) := do
  let token ← peek
  if token.newlineBefore then return none
  match token.kind with
  | .symbol s => return BinaryOp.ofSymbol? s
  | _ => return none

/-- Joins operands with operators of at least the precedence `least`. The operand to the right of
an operator takes only operators that bind tighter. -/
def binaryTail (operand : Nat → Parser Expr) (least : Nat) : Nat → Expr → Parser Expr
  | 0, _ => exhausted
  | n + 1, left => do
    match ← binaryOp? with
    | none => return left
    | some op =>
      if op.precedence < least then return left
      let _ ← next
      let right ← operand (op.precedence + 1)
      binaryTail operand least n (.binary op left right (left.span.join right.span))

def exprFrom : Nat → Nat → Parser Expr
  | 0, _ => exhausted
  | n + 1, least => do
    let operand ← unary (exprFrom n 0) n
    let left ← casts n operand
    binaryTail (exprFrom n) least n left

def expr (n : Nat) : Parser Expr :=
  exprFrom n 0

end Stencil.Grammar
