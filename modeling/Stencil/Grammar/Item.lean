import Stencil.Grammar.Stmt

namespace Stencil.Grammar

def typedName (n : Nat) : Parser (String × TypeSyntax × Span) := do
  let (name, nameSpan) ← identifier
  let _ ← expect (symbol .colon)
  let declared ← type n
  return (name, declared, nameSpan.join declared.span)

def param (n : Nat) : Parser Param := do
  let (name, declared, span) ← typedName n
  return { name, type := declared, span }

/-- What stands between the parentheses of a function: whether there is a `self`, which comes
first, and the parameters. -/
def paramList (n : Nat) : Parser (Bool × List Param) := do
  if ← accept (keyword .kwSelf) then
    if ← accept (symbol .comma) then
      return (true, ← commaList (symbol .rparen) (param n) n)
    else return (true, [])
  else return (false, ← commaList (symbol .rparen) (param n) n)

def funcBody (n : Nat) : Parser (Option Block) := do
  if ← check (symbol .lbrace) then some <$> block (stmt n) n else return none

def func (n : Nat) : Parser FuncDecl := do
  let opening ← expect (keyword .kwFunc)
  let (name, nameSpan) ← identifier
  let _ ← expect (symbol .lparen)
  let (hasSelf, params) ← paramList n
  let _ ← expect (symbol .rparen)
  let result ← after (symbol .fatArrow) (type n)
  let body ← funcBody n
  return { name, nameSpan, hasSelf, params, result, body, span := ← spanFrom opening.span.start }

def genericParam (n : Nat) : Parser GenericParam := do
  let (name, nameSpan) ← identifier
  let constraints ← after (symbol .colon) (separated (symbol .plus) (type n) n)
  return { name, constraints := constraints.getD [], span := ← spanFrom nameSpan.start }

def generics (n : Nat) : Parser (List GenericParam) := do
  if ← accept (symbol .lt) then
    let params ← separated (symbol .comma) (genericParam n) n
    closeAngle
    return params
  else return []

def skipSeparators : Nat → Parser Unit
  | 0 => exhausted
  | n + 1 => do
    if ← accept (symbol .comma) then skipSeparators n
    else if ← accept (symbol .semicolon) then skipSeparators n

def templateMembers (bound : Nat) : Nat → Parser (List FieldDecl × List FuncDecl)
  | 0 => exhausted
  | n + 1 => do
    if ← check (symbol .rbrace) then return ([], [])
    if ← check (keyword .kwFunc) then
      let method ← func bound
      skipSeparators bound
      let (fields, methods) ← templateMembers bound n
      return (fields, method :: methods)
    else
      let (name, declared, span) ← typedName bound
      skipSeparators bound
      let (fields, methods) ← templateMembers bound n
      return ({ name, type := declared, span } :: fields, methods)

def template (n : Nat) : Parser TemplateDecl := do
  let opening ← expect (keyword .kwTemplate)
  let (name, _) ← identifier
  let generics ← generics n
  let _ ← expect (symbol .lbrace)
  let (fields, methods) ← templateMembers n n
  let _ ← expect (symbol .rbrace)
  return { name, generics, fields, methods, span := ← spanFrom opening.span.start }

def aliasDecl (n : Nat) : Parser AliasDecl := do
  let opening ← expect (keyword .kwType)
  let (name, _) ← identifier
  let generics ← generics n
  let target ← after (symbol .eq) (type n)
  return { name, generics, target, span := ← spanFrom opening.span.start }

def memberList (bound : Nat) : Nat → Parser (List AliasDecl × List FuncDecl)
  | 0 => exhausted
  | n + 1 => do
    if ← check (symbol .rbrace) then return ([], [])
    if ← check (keyword .kwType) then
      let member ← aliasDecl bound
      skipSemicolons bound
      let (aliases, methods) ← memberList bound n
      return (member :: aliases, methods)
    else if ← check (keyword .kwFunc) then
      let method ← func bound
      skipSemicolons bound
      let (aliases, methods) ← memberList bound n
      return (aliases, method :: methods)
    else unexpected "`type` or `func`" (← next)

def memberBlock (n : Nat) : Parser (List AliasDecl × List FuncDecl) := do
  let _ ← expect (symbol .lbrace)
  skipSemicolons n
  let members ← memberList n n
  let _ ← expect (symbol .rbrace)
  return members

def spec (n : Nat) : Parser SpecDecl := do
  let opening ← expect (keyword .kwSpec)
  let (name, _) ← identifier
  let (aliases, methods) ← memberBlock n
  return { name, aliases, methods, span := ← spanFrom opening.span.start }

def action (n : Nat) : Parser ActionDecl := do
  let opening ← expect (keyword .kwAction)
  let first ← type n
  let second ← after (keyword .kwIn) (type n)
  let (aliases, methods) ← memberBlock n
  let span ← spanFrom opening.span.start
  match second with
  | some target => return { spec := some first, target, aliases, methods, span }
  | none => return { spec := none, target := first, aliases, methods, span }

def const (n : Nat) : Parser ConstDecl := do
  let opening ← expect (keyword .kwConst)
  let (name, _) ← identifier
  let declared ← after (symbol .colon) (type n)
  let _ ← expect (symbol .eq)
  let value ← expr n
  return { name, type := declared, value, span := ← spanFrom opening.span.start }

def itemsUntil (close : TokenKind) (item : Parser Item) : Nat → Parser (List Item)
  | 0 => exhausted
  | n + 1 => do
    if ← check close then return []
    let first ← item
    skipSemicolons n
    return first :: (← itemsUntil close item n)

def package (item : Parser Item) (n : Nat) : Parser (String × List Item × Span) := do
  let opening ← expect (keyword .kwPackage)
  let (name, _) ← identifier
  let _ ← expect (symbol .lbrace)
  skipSemicolons n
  let items ← itemsUntil (symbol .rbrace) item n
  let _ ← expect (symbol .rbrace)
  return (name, items, ← spanFrom opening.span.start)

def item : Nat → Parser Item
  | 0 => exhausted
  | n + 1 => do
    let start := (← peek).span.start
    let exported ← accept (keyword .kwExport)
    let decl (d : Decl) : Parser Item := do return .decl d exported (← spanFrom start)
    match (← peek).kind with
    | .keyword .kwFunc => decl (.func (← func n))
    | .keyword .kwTemplate => decl (.template (← template n))
    | .keyword .kwType => decl (.typeAlias (← aliasDecl n))
    | .keyword .kwSpec => decl (.spec (← spec n))
    | .keyword .kwAction => decl (.action (← action n))
    | .keyword .kwConst => decl (.const (← const n))
    | .keyword .kwPackage =>
      let (name, items, declSpan) ← package (item n) n
      return .package name items declSpan exported (← spanFrom start)
    | _ => unexpected "item" (← next)

def module (n : Nat) : Parser Module := do
  let start := (← peek).span.start
  skipSemicolons n
  let items ← itemsUntil .eof (item n) n
  return { items, span := ← spanFrom start }

def parse {α : Type} (rule : Nat → Parser α) (source : List Char) : Except Diagnostic α :=
  let stream := Input.ofChars source
  match rule (bound stream) stream with
  | .ok result _ => .ok result
  | .error d _ => .error d

end Stencil.Grammar

namespace Stencil

def Module.parse (source : String) : Except Diagnostic Module :=
  Grammar.parse Grammar.module source.toList

/-- The expression that a source text starts with; what follows it does not matter. -/
def Expr.parse (source : String) : Except Diagnostic Expr :=
  Grammar.parse Grammar.expr source.toList

end Stencil
