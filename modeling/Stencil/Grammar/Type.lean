import Stencil.Grammar.Basic

namespace Stencil.Grammar

def pathTail : Nat → Parser (List String)
  | 0 => exhausted
  | n + 1 => do
    if ← accept (symbol .dot) then
      let (name, _) ← identifier
      return name :: (← pathTail n)
    else return []

/-- Generic arguments, which have to open on the line of the path before them. -/
def typeArguments (type : Parser TypeSyntax) (n : Nat) : Parser (List TypeSyntax) := do
  if ← sameLine (symbol .lt) then
    let _ ← next
    let args ← separated (symbol .comma) type n
    closeAngle
    return args
  else return []

def arrayLength : Parser Nat := do
  let token ← next
  match token.kind with
  | .int length => return length.toNat
  | _ => unexpected "array length" token

def type : Nat → Parser TypeSyntax
  | 0 => exhausted
  | n + 1 => do
    let token ← next
    let start := token.span.start
    match token.kind with
    | .primitive p => return .primitive p (← spanFrom start)
    | .keyword .kwSelfType => return .self (← spanFrom start)
    | .symbol .amp =>
      let target ← type n
      return .reference target (← spanFrom start)
    | .symbol .lbracket =>
      let element ← type n
      let _ ← expect (symbol .semicolon)
      let length ← arrayLength
      let _ ← expect (symbol .rbracket)
      return .array element length (← spanFrom start)
    | .keyword .kwFunc =>
      let _ ← expect (symbol .lparen)
      let params ← commaList (symbol .rparen) (type n) n
      let _ ← expect (symbol .rparen)
      let result ← after (symbol .fatArrow) (type n)
      return .function params result (← spanFrom start)
    | .identifier first =>
      let path ← pathTail n
      let args ← typeArguments (type n) n
      return .named (first :: path) args (← spanFrom start)
    | _ => unexpected "type" token

end Stencil.Grammar
