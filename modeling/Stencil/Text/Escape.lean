import Stencil.Text.Unseen

/-!
Escaped text. Three places write strings with escapes, and each has its own rules: token listings
keep only printable ASCII, outlines keep every visible character, and code listings write bytes.
-/

namespace Stencil.Escape

def hexDigits (n : Nat) : List Char :=
  Nat.toDigits 16 n

def codePoint (c : Char) : List Char :=
  ['\\', 'u', '\x7b'] ++ hexDigits c.toNat ++ ['\x7d']

def isPrintableAscii (n : Nat) : Bool :=
  0x20 ≤ n && n ≤ 0x7e

def short? : Char → Option Char
  | '\t' => some 't'
  | '\r' => some 'r'
  | '\n' => some 'n'
  | '\\' => some '\\'
  | '"' => some '"'
  | _ => none

/-- Printable ASCII stands for itself, except for both quotes and the backslash. -/
def asciiChar (c : Char) : List Char :=
  if c = '\'' then ['\\', '\'']
  else match short? c with
    | some e => ['\\', e]
    | none => if isPrintableAscii c.toNat then [c] else codePoint c

/-- Visible characters stand for themselves, except for the double quote and the backslash. -/
def visibleChar (c : Char) : List Char :=
  if c = '\x00' then ['\\', '0']
  else match short? c with
    | some e => ['\\', e]
    | none => if isUnseen c then codePoint c else [c]

def byte (b : UInt8) : List Char :=
  let c := Char.ofNat b.toNat
  if c = '\'' then ['\\', '\'']
  else match short? c with
    | some e => ['\\', e]
    | none =>
      if isPrintableAscii b.toNat then [c]
      else ['\\', 'x', Nat.digitChar (b.toNat / 16), Nat.digitChar (b.toNat % 16)]

def tokenText (s : String) : String :=
  "\"" ++ String.ofList (s.toList.flatMap asciiChar) ++ "\""

def labelText (s : String) : String :=
  "\"" ++ String.ofList (s.toList.flatMap visibleChar) ++ "\""

def byteText (bytes : List UInt8) : String :=
  String.ofList (bytes.flatMap byte)

end Stencil.Escape
