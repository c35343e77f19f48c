import Stencil.Token.Scan

/-!
Reading tokens one by one, with any lookahead. A token that was looked at waits in a queue until it
is taken; the text behind the queue is scanned only when more is asked for.
-/

namespace Stencil

/-- The state of a scan: the text that is left and where it starts. -/
structure Scanner where
  rest : List Char
  offset : Nat := 0
  since : List Char := []
  atEnd : Bool := false
  deriving DecidableEq, Repr, Inhabited

namespace Scan

def nextFrom (offset : Nat) (since : List Char) : List Char → Lexeme × Scanner
  | [] =>
    (.token ⟨.eof, ⟨offset, offset⟩, since.contains '\n'⟩, { rest := [], offset, since, atEnd := true })
  | c :: rest =>
    let (content, n) := first c rest
    let text := c :: rest.take n
    let stop := offset + byteLength text
    match content with
    | .skipped => nextFrom stop (since ++ text) (rest.drop n)
    | .token kind =>
      (.token ⟨kind, ⟨offset, stop⟩, since.contains '\n'⟩, { rest := rest.drop n, offset := stop })
    | .fault problem =>
      (.fault (problem.at ⟨offset, stop⟩),
        { rest := rest.drop n, offset := stop, since := since ++ text })
termination_by cs => cs.length
decreasing_by simp only [List.length_drop, List.length_cons]; omega

end Scan

structure TokenStream where
  scanner : Scanner
  peeked : List Token := []
  deriving DecidableEq, Repr, Inhabited

abbrev Reader := EStateM Diagnostic TokenStream

section

variable {σ : Type} (peek next : EStateM Diagnostic σ Token) (kind : TokenKind)

def checkWith : EStateM Diagnostic σ Bool := do
  return (← peek).kind.sameClass kind

def acceptWith : EStateM Diagnostic σ Bool := do
  if ← checkWith peek kind then
    let _ ← next
    return true
  else return false

def expectWith : EStateM Diagnostic σ Token := do
  let token ← next
  if token.kind.sameClass kind then return token
  else throw ((Problem.expected kind.text token.kind.text).at token.span)

end

def Token.halves (t : Token) : List Token :=
  [{ t with kind := .symbol .gt, span := ⟨t.span.start, t.span.start + 1⟩ },
   { kind := .symbol .gt, span := ⟨t.span.start + 1, t.span.stop⟩ }]

namespace TokenStream

def ofSource (source : String) : TokenStream :=
  { scanner := { rest := source.toList } }

def scanToken : Reader Token := fun s =>
  let x := s.scanner
  if x.atEnd then .ok ⟨.eof, ⟨x.offset, x.offset⟩, false⟩ s
  else
    match Scan.nextFrom x.offset x.since x.rest with
    | (.token t, x) => .ok t { s with scanner := x }
    | (.fault d, x) => .error d { s with scanner := x }

def next : Reader Token := fun s =>
  match s.peeked with
  | t :: rest => .ok t { s with peeked := rest }
  | [] => scanToken s

def scanAhead : Nat → Reader Unit
  | 0 => return ()
  | n + 1 => do
    let t ← scanToken
    modify fun s => { s with peeked := s.peeked ++ [t] }
    scanAhead n

def peekAt (n : Nat) : Reader Token := do
  scanAhead (n + 1 - (← get).peeked.length)
  return (← get).peeked.getD n default

def peek : Reader Token :=
  peekAt 0

def check (kind : TokenKind) : Reader Bool :=
  checkWith peek kind

def checkSecond (kind : TokenKind) : Reader Bool :=
  checkWith (peekAt 1) kind

def accept (kind : TokenKind) : Reader Bool :=
  acceptWith peek next kind

def expect (kind : TokenKind) : Reader Token :=
  expectWith next kind

def splitShr : Reader Unit := do
  let token ← peek
  if token.kind = .symbol .shr then
    modify fun s => { s with peeked := token.halves ++ s.peeked.drop 1 }

end TokenStream

end Stencil
