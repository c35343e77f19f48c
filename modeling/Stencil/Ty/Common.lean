import Stencil.Diagnostic.Report
import Stencil.Syntax.Expr
import Stencil.Ty.Basic
import Stencil.Ty.Range

namespace Stencil

/-- The width of the signed type that holds integers of a signed and of an unsigned width, as far
as 64 bits go. A width is one byte, so twice a width counts modulo 256. -/
def mixedWidth (signed unsigned : Nat) : Nat :=
  if signed ≤ unsigned then min (unsigned * 2 % 256) 64 else signed

/-- Equal types are their own common type. Numbers widen: to a float if one is a float, to the
wider width if their signs agree, and else to a signed type that holds both. -/
def commonType (a b : Ty) : Option Ty :=
  if a = b then some a
  else if !a.isNumeric || !b.isNumeric then none
  else if a.isFloat || b.isFloat then
    some (.float (if a.bits = 64 || b.bits = 64 then 64 else 32))
  else if a.isSigned = b.isSigned then some (.int (max a.bits b.bits) a.isSigned)
  else if a.isSigned then some (.int (mixedWidth a.bits b.bits) true)
  else some (.int (mixedWidth b.bits a.bits) true)

def commonEntryType (first : Ty) : List (Ty × Span) → Except Diagnostic Ty
  | [] => .ok first
  | (type, span) :: rest =>
    match commonType first type with
    | some common => commonEntryType common rest
    | none => .error ((Problem.noCommonEntryType first.text type.text).at span)

def stringType (s : String) : Ty :=
  .array (.int 8 false) (s.utf8ByteSize + 1)

mutual

/-- The type of a literal. An integer takes the narrowest unsigned type, or the narrowest signed
one behind a minus; the entries of an array are widened to a common type. -/
def literalType : Expr → Except Diagnostic Ty
  | .int value _ => .ok (.int (minUnsignedWidth value.toNat) false)
  | .float .. => .ok .double
  | .bool .. => .ok .bool
  | .string value _ => .ok (stringType value)
  | .unary .neg (.int value _) _ => .ok (.int (minSignedWidth (-value.toNat)) true)
  | .unary .neg (.float ..) _ => .ok .double
  | .array [] span => .error (Problem.emptyArray.at span)
  | .array (first :: rest) _ => do
    let element ← widenedType (← literalType first) rest
    return .array element (rest.length + 1)
  | e => .error (Problem.notLiteral.at e.span)

def widenedType (element : Ty) : List Expr → Except Diagnostic Ty
  | [] => .ok element
  | item :: items => do
    let type ← literalType item
    match commonType element type with
    | some common => widenedType common items
    | none => .error ((Problem.noCommonEntryType element.text type.text).at item.span)

end

end Stencil
