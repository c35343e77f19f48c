import Stencil.Ty.Common
import Stencil.Ty.Convert

namespace Stencil

namespace BinaryOp

def compare? : BinaryOp → Option Ir.CmpOp
  | eq => some .eq
  | ne => some .ne
  | lt => some .lt
  | le => some .le
  | gt => some .gt
  | ge => some .ge
  | _ => none

def arithmetic : BinaryOp → Ir.BinOp
  | sub => .sub
  | mul => .mul
  | div => .div
  | rem => .rem
  | bitAnd => .and
  | bitOr => .or
  | bitXor => .xor
  | shl => .shl
  | shr => .shr
  | _ => .add

def isLogical (op : BinaryOp) : Bool :=
  op = and || op = or

def allows (op : BinaryOp) (type : Ty) : Bool :=
  if type.isBool then op ∈ [eq, ne, bitAnd, bitOr, bitXor]
  else if type.isFloat then op ∉ [bitAnd, bitOr, bitXor, shl, shr]
  else type.isInteger

end BinaryOp

def operandMismatch (op : BinaryOp) (left right : Ty) : Problem :=
  .operands op.text left.text right.text

/-- An operation on single bits, on all bits of two integers. Constants have at most 65 bits. -/
def bitwise (f : BitVec 128 → BitVec 128 → BitVec 128) (a b : Int) : Int :=
  (f (BitVec.ofInt 128 a) (BitVec.ofInt 128 b)).toInt

/-- An exact operation on integers. Quotients are rounded toward zero; shifts are by less than
`width`. -/
def intOperation? (op : Ir.BinOp) (width : Nat) (a b : Int) : Option Int :=
  match op with
  | .add => some (a + b)
  | .sub => some (a - b)
  | .mul => some (a * b)
  | .div => if b = 0 then none else some (a.tdiv b)
  | .rem => if b = 0 then none else some (a.tmod b)
  | .and => some (bitwise (· &&& ·) a b)
  | .or => some (bitwise (· ||| ·) a b)
  | .xor => some (bitwise (· ^^^ ·) a b)
  | .shl => if 0 ≤ b && b < width then some (a * Nat.pow 2 b.toNat) else none
  | .shr => if 0 ≤ b && b < width then some (a.fdiv (Nat.pow 2 b.toNat)) else none

def narrowestType (n : Int) : Ty :=
  if 0 ≤ n then .int (minUnsignedWidth n.toNat) false else .int (minSignedWidth n) true

def Ir.CmpOp.holds (op : Ir.CmpOp) (order : Ordering) : Bool :=
  match op with
  | .eq => order.isEq
  | .ne => order.isNe
  | .lt => order.isLT
  | .le => order.isLE
  | .gt => order.isGT
  | .ge => order.isGE

def truth (b : Bool) : TypedValue :=
  ⟨.int (if b then 1 else 0), .bool⟩

/-- An operation on two integer constants, which is exact. The result keeps the common type of the
operands if it fits there, and takes the narrowest type otherwise. -/
def foldConstants (op : BinaryOp) (a b : Int) (left right : Ty) (rightSpan span : Span) :
    Except Diagnostic TypedValue :=
  match commonType left right with
  | none => .error ((operandMismatch op left right).at span)
  | some type =>
    match op.compare? with
    | some cmp => .ok (truth (cmp.holds (compare a b)))
    | none =>
      if (op.arithmetic = .div || op.arithmetic = .rem) && b = 0 then
        .error (Problem.divisionByZero.at rightSpan)
      else match intOperation? op.arithmetic 64 a b with
        | none => .error (Problem.constantOverflow.at span)
        | some n =>
          if -Nat.pow 2 63 ≤ n && n < Nat.pow 2 64 then
            .ok ⟨.int n, if fits n type.bits type.isSigned then type else narrowestType n⟩
          else .error (Problem.constantOverflow.at span)

def floatOrder? (a b : Float) : Option Ordering :=
  if a < b then some .lt
  else if a == b then some .eq
  else if b < a then some .gt
  else none

def foldCompare? (op : Ir.CmpOp) : Ir.Value → Ir.Value → Option Bool
  | .int a, .int b => some (op.holds (compare a b))
  | .float a, .float b => (floatOrder? a b).map op.holds
  | _, _ => none

def floatOperation? (op : Ir.BinOp) (a b : Float) : Option Float :=
  match op with
  | .add => some (a + b)
  | .sub => some (a - b)
  | .mul => some (a * b)
  | .div => some (a / b)
  | .rem => some (truncatedRemainder a b)
  | _ => none

def foldArithmetic? (op : Ir.BinOp) (type : Ty) : Ir.Value → Ir.Value → Option Ir.Value
  | .int a, .int b =>
    (intOperation? op type.bits a b).map fun n => .int (normalize n type.bits type.isSigned)
  | .float a, .float b => (floatOperation? op a b).map fun x => .float (roundTo type.bits x)
  | _, _ => none

namespace TypedValue

def integer? (v : TypedValue) : Option Int :=
  if v.type.isInteger then v.value.int? else none

def adopt (v : TypedValue) (other : Ty) : TypedValue :=
  match v.integer? with
  | some n => if other.isInteger && fits n other.bits other.isSigned then ⟨v.value, other⟩ else v
  | none => v

end TypedValue

end Stencil
