import Stencil.Grammar.Expr

namespace Stencil.Grammar

def stmtsUntilBrace (stmt : Parser Stmt) : Nat → Parser (List Stmt)
  | 0 => exhausted
  | n + 1 => do
    if ← check (symbol .rbrace) then return []
    if ← check .eof then throw (Problem.unclosedBlock.at (← peek).span)
    let first ← stmt
    skipSemicolons n
    return first :: (← stmtsUntilBrace stmt n)

def block (stmt : Parser Stmt) (n : Nat) : Parser Block := do
  let opening ← expect (symbol .lbrace)
  skipSemicolons n
  let stmts ← stmtsUntilBrace stmt n
  let _ ← expect (symbol .rbrace)
  return .mk stmts (← spanFrom opening.span.start)

def binding (n : Nat) (start : Nat) : Parser Stmt := do
  let constant := (← next).kind = keyword .kwConst
  let (name, nameSpan) ← identifier
  let declared ← after (symbol .colon) (type n)
  let init ← after (symbol .eq) (expr n)
  if constant && init.isNone then
    throw ((Problem.constantWithoutValue name).at (← peek).span)
  return .binding name nameSpan declared init constant (← spanFrom start)

/-- A `return` gives a value if one starts on its line. -/
def returned (n : Nat) (start : Nat) : Parser Stmt := do
  let _ ← next
  let token ← peek
  let closes := token.kind = symbol .rbrace || token.kind = symbol .semicolon || token.kind = .eof
  let value ← if token.newlineBefore || closes then pure none else some <$> expr n
  return .ret value (← spanFrom start)

def branch (stmt : Parser Stmt) : Nat → Parser Stmt
  | 0 => exhausted
  | n + 1 => do
    let opening ← expect (keyword .kwIf)
    let condition ← expr n
    let body ← block stmt n
    let otherwise ←
      if ← accept (keyword .kwElse) then
        if ← check (keyword .kwIf) then .branch <$> branch stmt n
        else .block <$> block stmt n
      else pure .absent
    return .branch condition body otherwise (← spanFrom opening.span.start)

def exprStmt (n : Nat) (start : Nat) : Parser Stmt := do
  let first ← expr n
  match ← after (symbol .eq) (expr n) with
  | some value => return .assign first value (← spanFrom start)
  | none => return .expr first (← spanFrom start)

def stmt : Nat → Parser Stmt
  | 0 => exhausted
  | n + 1 => do
    let token ← peek
    let start := token.span.start
    match token.kind with
    | .keyword .kwLet | .keyword .kwConst => binding n start
    | .keyword .kwReturn => returned n start
    | .keyword .kwIf => branch (stmt n) n
    | .keyword .kwWhile =>
      let _ ← next
      let condition ← expr n
      let body ← block (stmt n) n
      return .loop condition body (← spanFrom start)
    | .keyword .kwBreak =>
      let _ ← next
      return .leave (← spanFrom start)
    | .keyword .kwContinue =>
      let _ ← next
      return .again (← spanFrom start)
    | .symbol .lbrace =>
      let body ← block (stmt n) n
      return .block body (← spanFrom start)
    | _ => exprStmt n start

end Stencil.Grammar
