import Stencil.Decimal.Layout
import Stencil.Source.Span
import Stencil.Text.Escape

/-!
Tokens: keywords, names of primitive types, literals, identifiers and symbols, each with the text
that it is written as.
-/

namespace Stencil

inductive Keyword where
  | kwFunc | kwTemplate | kwSpec | kwAction | kwIn | kwType | kwConst | kwLet | kwExport
  | kwPackage | kwIf | kwElse | kwWhile | kwBreak | kwContinue | kwReturn | kwAs
  | kwSelf | kwSelfType | kwTrue | kwFalse
  deriving DecidableEq, Repr, Inhabited

namespace Keyword

def text : Keyword → String
  | kwFunc => "func"
  | kwTemplate => "template"
  | kwSpec => "spec"
  | kwAction => "action"
  | kwIn => "in"
  | kwType => "type"
  | kwConst => "const"
  | kwLet => "let"
  | kwExport => "export"
  | kwPackage => "package"
  | kwIf => "if"
  | kwElse => "else"
  | kwWhile => "while"
  | kwBreak => "break"
  | kwContinue => "continue"
  | kwReturn => "return"
  | kwAs => "as"
  | kwSelf => "self"
  | kwSelfType => "Self"
  | kwTrue => "true"
  | kwFalse => "false"

def all : List Keyword :=
  [kwFunc, kwTemplate, kwSpec, kwAction, kwIn, kwType, kwConst, kwLet, kwExport, kwPackage,
   kwIf, kwElse, kwWhile, kwBreak, kwContinue, kwReturn, kwAs, kwSelf, kwSelfType, kwTrue,
   kwFalse]

end Keyword

inductive Primitive where
  | int | int8 | int16 | int32 | int64
  | uint | uint8 | uint16 | uint32 | uint64
  | float | double | bool | void
  deriving DecidableEq, Repr, Inhabited

namespace Primitive

def text : Primitive → String
  | int => "int"
  | int8 => "int8"
  | int16 => "int16"
  | int32 => "int32"
  | int64 => "int64"
  | uint => "uint"
  | uint8 => "uint8"
  | uint16 => "uint16"
  | uint32 => "uint32"
  | uint64 => "uint64"
  | float => "float"
  | double => "double"
  | bool => "bool"
  | void => "void"

def all : List Primitive :=
  [int, int8, int16, int32, int64, uint, uint8, uint16, uint32, uint64, float, double, bool, void]

end Primitive

inductive Symbol where
  | fatArrow | shl | shr | le | ge | eqEq | notEq | andAnd | orOr
  | plus | minus | star | slash | percent | amp | pipe | caret | tilde | bang | eq | lt | gt
  | dot | comma | colon | semicolon
  | lparen | rparen | lbrace | rbrace | lbracket | rbracket
  deriving DecidableEq, Repr, Inhabited

namespace Symbol

def text : Symbol → String
  | fatArrow => "=>"
  | shl => "<<"
  | shr => ">>"
  | le => "<="
  | ge => ">="
  | eqEq => "=="
  | notEq => "!="
  | andAnd => "&&"
  | orOr => "||"
  | plus => "+"
  | minus => "-"
  | star => "*"
  | slash => "/"
  | percent => "%"
  | amp => "&"
  | pipe => "|"
  | caret => "^"
  | tilde => "~"
  | bang => "!"
  | eq => "="
  | lt => "<"
  | gt => ">"
  | dot => "."
  | comma => ","
  | colon => ":"
  | semicolon => ";"
  | lparen => "("
  | rparen => ")"
  | lbrace => "\x7b"
  | rbrace => "\x7d"
  | lbracket => "["
  | rbracket => "]"

def double? : Char → Char → Option Symbol
  | '=', '>' => some fatArrow
  | '<', '<' => some shl
  | '>', '>' => some shr
  | '<', '=' => some le
  | '>', '=' => some ge
  | '=', '=' => some eqEq
  | '!', '=' => some notEq
  | '&', '&' => some andAnd
  | '|', '|' => some orOr
  | _, _ => none

def single? : Char → Option Symbol
  | '+' => some plus
  | '-' => some minus
  | '*' => some star
  | '/' => some slash
  | '%' => some percent
  | '&' => some amp
  | '|' => some pipe
  | '^' => some caret
  | '~' => some tilde
  | '!' => some bang
  | '=' => some eq
  | '<' => some lt
  | '>' => some gt
  | '.' => some dot
  | ',' => some comma
  | ':' => some colon
  | ';' => some semicolon
  | '(' => some lparen
  | ')' => some rparen
  | '\x7b' => some lbrace
  | '\x7d' => some rbrace
  | '[' => some lbracket
  | ']' => some rbracket
  | _ => none

end Symbol

inductive TokenKind where
  | keyword (k : Keyword)
  | primitive (p : Primitive)
  | int (value : UInt64)
  | float (value : Float)
  | string (value : String)
  | identifier (name : String)
  | symbol (s : Symbol)
  | eof
  deriving DecidableEq, Repr, Inhabited

namespace TokenKind

def text : TokenKind → String
  | keyword k => k.text
  | primitive p => p.text
  | int value => toString value
  | float value => FloatLayout.source.write value
  | string value => Escape.tokenText value
  | identifier name => name
  | symbol s => s.text
  | eof => "end of file"

/-- Whether two tokens are of one class: the same keyword or symbol, or two primitive names, two
identifiers or two literals of one sort, whatever they stand for. -/
def sameClass : TokenKind → TokenKind → Bool
  | keyword a, keyword b => a = b
  | primitive _, primitive _ => true
  | int _, int _ => true
  | float _, float _ => true
  | string _, string _ => true
  | identifier _, identifier _ => true
  | symbol a, symbol b => a = b
  | eof, eof => true
  | _, _ => false

def ofWord (word : String) : TokenKind :=
  match Keyword.all.find? (·.text = word) with
  | some k => keyword k
  | none =>
    match Primitive.all.find? (·.text = word) with
    | some p => primitive p
    | none => identifier word

end TokenKind

structure Token where
  kind : TokenKind
  span : Span
  /-- Whether a line ends between the token before and this one. -/
  newlineBefore : Bool := false
  deriving DecidableEq, Repr, Inhabited

end Stencil
