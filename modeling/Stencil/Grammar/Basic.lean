import Stencil.Syntax.Item
import Stencil.Token.Input

/-!
The small readers that all grammar rules are made of. Rules that repeat or nest take a bound on
their depth. The number of tokens is such a bound: every rule that succeeds reads at least one
token, so `Grammar.bound` is never exhausted.
-/

namespace Stencil.Grammar

export Input (peek next check checkSecond accept expect splitShr)

def keyword (k : Keyword) : TokenKind := .keyword k

def symbol (s : Symbol) : TokenKind := .symbol s

def bound (s : Input) : Nat :=
  2 * s.pending.length + 8

def exhausted {α : Type} : Parser α := do
  throw (Problem.tooDeep.at (← peek).span)

def spanFrom (start : Nat) : Parser Span := do
  return ⟨start, max (← get).lastEnd start⟩

def unexpected {α : Type} (what : String) (token : Token) : Parser α :=
  throw ((Problem.expected what token.kind.text).at token.span)

def identifier : Parser (String × Span) := do
  let token ← next
  match token.kind with
  | .identifier name => return (name, token.span)
  | _ => unexpected "identifier" token

def closeAngle : Parser Unit := do
  splitShr
  let _ ← expect (symbol .gt)

/-- Whether the next token is of the class of `kind` and on the line of the last one. -/
def sameLine (kind : TokenKind) : Parser Bool := do
  let token ← peek
  return !token.newlineBefore && token.kind.sameClass kind

def skipSemicolons : Nat → Parser Unit
  | 0 => exhausted
  | n + 1 => do if ← accept (symbol .semicolon) then skipSemicolons n

/-- Items separated by commas, up to a closing token; a comma may stand before that. -/
def commaList {α : Type} (close : TokenKind) (item : Parser α) : Nat → Parser (List α)
  | 0 => exhausted
  | n + 1 => do
    if ← check close then return []
    let first ← item
    if ← accept (symbol .comma) then
      return first :: (← commaList close item n)
    else return [first]

def separated {α : Type} (separator : TokenKind) (item : Parser α) : Nat → Parser (List α)
  | 0 => exhausted
  | n + 1 => do
    let first ← item
    if ← accept separator then
      return first :: (← separated separator item n)
    else return [first]

def after {α : Type} (mark : TokenKind) (item : Parser α) : Parser (Option α) := do
  if ← accept mark then return some (← item) else return none

end Stencil.Grammar
