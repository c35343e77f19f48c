import Stencil.Diagnostic.Report
import Stencil.Source.Lines
import Stencil.Token.Basic

/-!
Scanning. A source text is cut into segments, one after the other and without gaps: blanks and
comments, tokens, and pieces that are none of these. The tokens then get their places and the
mark of a line end before them.
-/

namespace Stencil

inductive Content where
  | skipped
  | token (kind : TokenKind)
  | fault (problem : Problem)
  deriving DecidableEq, Repr, Inhabited

structure Segment where
  text : List Char
  content : Content
  deriving DecidableEq, Repr, Inhabited

namespace Scan

def isBlank (c : Char) : Bool :=
  c = ' ' || c = '\t' || c = '\n' || c = '\r' || c = '\x0c'

def isWordStart (c : Char) : Bool :=
  c.isAlpha || c = '_'

def isWordPart (c : Char) : Bool :=
  c.isAlphanum || c = '_'

def isHexDigit (c : Char) : Bool :=
  c.isDigit || ('a' ≤ c && c ≤ 'f') || ('A' ≤ c && c ≤ 'F')

def isBit (c : Char) : Bool :=
  c = '0' || c = '1'

/-- A piece that is no token. Its first character tells what it was meant to be. -/
def faultOf (text : List Char) : Problem :=
  let shown := String.ofList text
  match text with
  | '"' :: _ => .invalidString shown
  | c :: _ => if c.isDigit then .invalidNumber shown else .unexpectedCharacter shown
  | [] => .unexpectedCharacter shown

/-- The part of a block comment after its opening: whether it is closed, and its length. A star
and the character after it, other than a slash, are read together. -/
def commentBody : List Char → Bool × Nat
  | [] => (false, 0)
  | ['*'] => (false, 0)
  | '*' :: '/' :: _ => (true, 2)
  | '*' :: _ :: cs => let (closed, n) := commentBody cs; (closed, n + 2)
  | _ :: cs => let (closed, n) := commentBody cs; (closed, n + 1)

/-- The part of a string literal after its opening quote: whether it is closed, and its length. A
backslash takes the next character with it, unless that is a newline. -/
def stringBody : List Char → Bool × Nat
  | [] => (false, 0)
  | '"' :: _ => (true, 1)
  | ['\\'] => (false, 0)
  | '\\' :: c :: cs =>
    if c = '\n' then (false, 0) else let (closed, n) := stringBody cs; (closed, n + 2)
  | _ :: cs => let (closed, n) := stringBody cs; (closed, n + 1)

def unescape? : List Char → Option (List Char)
  | [] => some []
  | '\\' :: c :: cs => do
    let plain ← match c with
      | 'n' => some '\n'
      | 't' => some '\t'
      | 'r' => some '\r'
      | '0' => some '\x00'
      | '\\' => some '\\'
      | '"' => some '"'
      | _ => none
    return plain :: (← unescape? cs)
  | ['\\'] => none
  | c :: cs => do return c :: (← unescape? cs)

def digitValue (c : Char) : Nat :=
  if c.isDigit then c.toNat - '0'.toNat
  else if 'a' ≤ c then c.toNat - 'a'.toNat + 10
  else c.toNat - 'A'.toNat + 10

def digitsValue (base : Nat) (digits : List Char) : Nat :=
  (digits.filter (· != '_')).foldl (fun n c => n * base + digitValue c) 0

def integer (base : Nat) (digits text : List Char) : Content :=
  let value := digitsValue base digits
  if value < Nat.pow 2 64 then .token (.int (.ofNat value)) else .fault (faultOf text)

def exponentPart : List Char → Option (Int × Nat)
  | 'e' :: cs | 'E' :: cs =>
    let (negative, signLength, cs) := match cs with
      | '-' :: cs => (true, 1, cs)
      | '+' :: cs => (false, 1, cs)
      | cs => (false, 0, cs)
    let digits := cs.takeWhile Char.isDigit
    if digits.isEmpty then none
    else
      let value : Int := digitsValue 10 digits
      some (if negative then -value else value, 1 + signLength + digits.length)
  | _ => none

/-- A literal with a fraction: the digits before the point, those behind it, and what follows. -/
def fractional (whole fraction after : List Char) : Content × Nat :=
  let places := (fraction.filter (· != '_')).length
  let (exponent, length) := (exponentPart after).getD (0, 0)
  (.token (.float (readDecimal (digitsValue 10 (whole ++ fraction)) (exponent - places))), length)

def basedNumber (base : Nat) (isDigit : Char → Bool) (c mark : Char) (rest : List Char) :
    Content × Nat :=
  let digits := (rest.drop 1).takeWhile fun d => isDigit d || d = '_'
  (integer base digits (c :: mark :: digits), digits.length + 1)

def decimalNumber (c : Char) (rest : List Char) : Content × Nat :=
  let whole := c :: rest.takeWhile fun d => d.isDigit || d = '_'
  let after := rest.drop (whole.length - 1)
  match after with
  | '.' :: d :: _ =>
    if d.isDigit then
      let fraction := (after.drop 1).takeWhile fun d => d.isDigit || d = '_'
      let (content, length) := fractional whole fraction (after.drop (1 + fraction.length))
      (content, whole.length + fraction.length + length)
    else (integer 10 whole whole, whole.length - 1)
  | _ => (integer 10 whole whole, whole.length - 1)

def number (c : Char) (rest : List Char) : Content × Nat :=
  match rest with
  | 'x' :: d :: _ =>
    if c = '0' && isHexDigit d then basedNumber 16 isHexDigit c 'x' rest else decimalNumber c rest
  | 'b' :: d :: _ =>
    if c = '0' && isBit d then basedNumber 2 isBit c 'b' rest else decimalNumber c rest
  | _ => decimalNumber c rest

def quoted (rest : List Char) : Content × Nat :=
  match stringBody rest with
  | (false, n) => (.fault (faultOf ('"' :: rest.take n)), n)
  | (true, n) =>
    match unescape? (rest.take (n - 1)) with
    | some text => (.token (.string (String.ofList text)), n)
    | none => (.fault (faultOf ('"' :: rest.take n)), n)

def blockComment (rest : List Char) : Content × Nat :=
  match commentBody (rest.drop 1) with
  | (true, n) => (.skipped, n + 1)
  | (false, n) => (.fault (faultOf ('/' :: rest.take (n + 1))), n + 1)

def symbolic (c : Char) (rest : List Char) : Content × Nat :=
  match rest.head?.bind (Symbol.double? c) with
  | some s => (.token (.symbol s), 1)
  | none =>
    match Symbol.single? c with
    | some s => (.token (.symbol s), 0)
    | none => (.fault (faultOf [c]), 0)

/-- What the text `c :: rest` starts with, and how many characters of `rest` belong to it. -/
def first (c : Char) (rest : List Char) : Content × Nat :=
  if isBlank c then (.skipped, (rest.takeWhile isBlank).length)
  else if c = '/' && rest.head? = some '/' then (.skipped, (rest.takeWhile (· != '\n')).length)
  else if c = '/' && rest.head? = some '*' then blockComment rest
  else if c = '"' then quoted rest
  else if c.isDigit then number c rest
  else if isWordStart c then
    let more := rest.takeWhile isWordPart
    (.token (.ofWord (String.ofList (c :: more))), more.length)
  else symbolic c rest

def segments : List Char → List Segment
  | [] => []
  | c :: rest =>
    let (content, n) := first c rest
    ⟨c :: rest.take n, content⟩ :: segments (rest.drop n)
termination_by cs => cs.length
decreasing_by simp only [List.length_drop, List.length_cons]; omega

end Scan

/-- A token or the diagnostic of a piece that is none, in the order of the source. -/
inductive Lexeme where
  | token (t : Token)
  | fault (d : Diagnostic)
  deriving DecidableEq, Repr, Inhabited

namespace Scan

/-- Places the tokens of segments that start at `offset`; `newline` says whether a line has ended
since the last token. The end of the text is a token too. -/
def lexemesFrom (offset : Nat) (newline : Bool) : List Segment → List Lexeme
  | [] => [.token ⟨.eof, ⟨offset, offset⟩, newline⟩]
  | s :: ss =>
    let stop := offset + byteLength s.text
    match s.content with
    | .skipped => lexemesFrom stop (newline || s.text.contains '\n') ss
    | .token kind => .token ⟨kind, ⟨offset, stop⟩, newline⟩ :: lexemesFrom stop false ss
    | .fault problem =>
      .fault (problem.at ⟨offset, stop⟩) :: lexemesFrom stop (newline || s.text.contains '\n') ss

def lexemes (source : List Char) : List Lexeme :=
  lexemesFrom 0 false (segments source)

end Scan

end Stencil
