import Stencil.Source.Span

/-!
Lines and columns of byte offsets. Lines end after each newline; a column counts the bytes
since the start of its line. Both count from zero and are printed counting from one.
-/

namespace Stencil

/-- A place in a text as a line and the number of bytes before it on that line. -/
structure Position where
  line : Nat
  character : Nat
  deriving DecidableEq, Repr, Inhabited

namespace Position

def text (p : Position) : String :=
  toString (p.line + 1) ++ ":" ++ toString (p.character + 1)

def before (a b : Position) : Bool :=
  a.line < b.line || (a.line == b.line && a.character < b.character)

end Position

structure PositionRange where
  start : Position
  stop : Position
  deriving DecidableEq, Repr, Inhabited

def PositionRange.text (r : PositionRange) : String :=
  r.start.text ++ "-" ++ r.stop.text

def byteLength : List Char → Nat
  | [] => 0
  | c :: cs => c.utf8Size + byteLength cs

theorem byteLength_append (a b : List Char) :
    byteLength (a ++ b) = byteLength a + byteLength b := by
  induction a with
  | nil => simp [byteLength]
  | cons c cs ih => simp [byteLength, ih, Nat.add_assoc]

def startsAfterNewlines (offset : Nat) : List Char → List Nat
  | [] => []
  | c :: cs =>
    let next := offset + c.utf8Size
    if c = '\n' then next :: startsAfterNewlines next cs else startsAfterNewlines next cs

/-- Where the lines of a text start, in increasing order, and the text's length. -/
structure LineIndex where
  laterStarts : List Nat
  length : Nat
  deriving DecidableEq, Repr, Inhabited

namespace LineIndex

def ofChars (cs : List Char) : LineIndex :=
  ⟨startsAfterNewlines 0 cs, byteLength cs⟩

def ofSource (source : String) : LineIndex :=
  ofChars source.toList

def lineCount (index : LineIndex) : Nat :=
  index.laterStarts.length + 1

def position (index : LineIndex) (offset : Nat) : Position :=
  let offset := min offset index.length
  let passed := index.laterStarts.takeWhile (· ≤ offset)
  ⟨passed.length, offset - passed.getLastD 0⟩

def range (index : LineIndex) (span : Span) : PositionRange :=
  ⟨index.position span.start, index.position span.stop⟩

end LineIndex

end Stencil
