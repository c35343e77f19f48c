import Stencil.Token.Stream

/-!
What a stream of tokens comes to: the lexemes that are left. Grammar rules read from these, and a
fault is reported, and dropped, by the first operation that has to look at it or past it.
-/

namespace Stencil

structure Input where
  /-- What has not been read yet. After its end there are only tokens for the end of the text. -/
  pending : List Lexeme
  length : Nat
  read : List Token := []
  deriving DecidableEq, Repr, Inhabited

abbrev Parser := EStateM Diagnostic Input

namespace Input

def ofChars (source : List Char) : Input :=
  { pending := Scan.lexemes source, length := byteLength source }

def ofSource (source : String) : Input :=
  ofChars source.toList

def lastEnd (s : Input) : Nat :=
  (s.read.head?.map (·.span.stop)).getD 0

def endToken (s : Input) : Token :=
  ⟨.eof, ⟨s.length, s.length⟩, false⟩

/-- Looks `n` tokens ahead. Gives `none` behind the end, and the first fault on the way together
with the lexemes without it. -/
def lookup : Nat → List Lexeme → Except (Diagnostic × List Lexeme) (Option Token)
  | _, [] => .ok none
  | _, .fault d :: rest => .error (d, rest)
  | 0, .token t :: _ => .ok (some t)
  | n + 1, .token t :: rest =>
    match lookup n rest with
    | .ok found => .ok found
    | .error (d, rest) => .error (d, .token t :: rest)

def peekAt (n : Nat) : Parser Token := fun s =>
  match lookup n s.pending with
  | .ok found => .ok (found.getD s.endToken) s
  | .error (d, rest) => .error d { s with pending := rest }

def peek : Parser Token :=
  peekAt 0

def next : Parser Token := fun s =>
  match s.pending with
  | [] => .ok s.endToken { s with read := s.endToken :: s.read }
  | .token t :: rest => .ok t { s with pending := rest, read := t :: s.read }
  | .fault d :: rest => .error d { s with pending := rest }

def check (kind : TokenKind) : Parser Bool :=
  checkWith peek kind

def checkSecond (kind : TokenKind) : Parser Bool :=
  checkWith (peekAt 1) kind

def accept (kind : TokenKind) : Parser Bool :=
  acceptWith peek next kind

def expect (kind : TokenKind) : Parser Token :=
  expectWith next kind

def halves (t : Token) : List Lexeme :=
  t.halves.map .token

def splitShr : Parser Unit := do
  let token ← peek
  if token.kind = .symbol .shr then
    modify fun s => { s with pending := halves token ++ s.pending.drop 1 }

def allTokens : List Lexeme → Except Diagnostic (List Token)
  | [] => .ok []
  | .token t :: rest => do return t :: (← allTokens rest)
  | .fault d :: _ => .error d

end Input

def padLeft (width : Nat) (text : String) : String :=
  String.ofList (List.replicate (width - text.length) ' ') ++ text

def padRight (width : Nat) (text : String) : String :=
  text ++ String.ofList (List.replicate (width - text.length) ' ')

def Token.listing (t : Token) : String :=
  let mark := if t.newlineBefore then "^" else " "
  mark ++ padLeft 5 (toString t.span.start) ++ ".." ++ padRight 5 (toString t.span.stop) ++ " " ++
    t.kind.text ++ "\n"

def tokenListing (source : String) : Except Diagnostic String := do
  let tokens ← Input.allTokens (Scan.lexemes source.toList)
  return String.join (tokens.map Token.listing)

end Stencil
