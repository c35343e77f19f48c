import Stencil.Ir.Builder
import Stencil.Ty.Basic
import Stencil.Ty.Range

/-!
Conversions between types, implicit ones and casts. Constants are converted on the spot; for other
values an instruction is emitted.
-/

namespace Stencil

structure TypedValue where
  value : Ir.Value
  type : Ty
  deriving DecidableEq, Repr, Inhabited

def roundTo (bits : Nat) (x : Float) : Float :=
  if bits = 32 then x.toFloat32.toFloat else x

inductive Conversion where
  | reinterpret
  | test
  | instruction (kind : Ir.CastKind)
  deriving DecidableEq, Repr, Inhabited

def needsCast (source target : Ty) : Problem :=
  .conversionNeedsCast source.text target.text

/-- How to convert between two different types. Integer constants have to fit the target of an
implicit conversion. -/
def conversion (value : Ir.Value) (source target : Ty) (implicit : Bool) :
    Except Problem Conversion :=
  if source.isFloat && target.isFloat then
    .ok (.instruction (if source.bits < target.bits then .fpext else .fptrunc))
  else if source.isFloat && target.isInteger then
    if implicit then .error (needsCast source target)
    else .ok (.instruction (if target.isSigned then .fptosi else .fptoui))
  else if source.isInteger && target.isFloat then
    .ok (.instruction (if source.isSigned then .sitofp else .uitofp))
  else if source.isInteger && target.isInteger then
    let outOfRange : Option Int := do
      let n ← value.int?
      if implicit && !fits n target.bits target.isSigned then some n else none
    match outOfRange with
    | some n => .error (.literalOutOfRange (toString n) target.text)
    | none =>
      if source.bits < target.bits then
        .ok (.instruction (if source.isSigned then .sext else .zext))
      else if target.bits < source.bits then .ok (.instruction .trunc)
      else .ok .reinterpret
  else if source.isBool && target.isInteger then
    if implicit then .error (needsCast source target) else .ok (.instruction .zext)
  else if source.isInteger && target.isBool then
    if implicit then .error (needsCast source target) else .ok .test
  else if source.isPointer && target.isPointer then
    if implicit then .error (needsCast source target) else .ok (.instruction .bitcast)
  else .error (.noConversion source.text target.text)

def foldCast? (kind : Ir.CastKind) (value : Ir.Value) (target : Ty) : Option Ir.Value :=
  match kind, value with
  | .fpext, .float x | .fptrunc, .float x => some (.float (roundTo target.bits x))
  | .fptosi, .float x | .fptoui, .float x =>
    let n :=
      if target.isSigned then truncateWithin (-Nat.pow 2 63) (Nat.pow 2 63 - 1) x
      else truncateWithin 0 (Nat.pow 2 64 - 1) x
    some (.int (normalize n target.bits target.isSigned))
  | .sitofp, .int n | .uitofp, .int n => some (.float (roundTo target.bits (Float.ofInt n)))
  | .sext, .int n | .zext, .int n | .trunc, .int n =>
    some (.int (normalize n target.bits target.isSigned))
  | _, _ => none

def Conversion.apply (c : Conversion) (v : TypedValue) (target : Ty) : Ir.Build TypedValue :=
  match c, v.value with
  | .reinterpret, .int n => return ⟨.int (normalize n target.bits target.isSigned), target⟩
  | .reinterpret, value => return ⟨value, target⟩
  | .test, .int n => return ⟨.int (if n ≠ 0 then 1 else 0), .bool⟩
  | .test, value =>
    return ⟨← Ir.Builder.compare .ne v.type.ir v.type.isSigned value (.int 0), .bool⟩
  | .instruction kind, value =>
    match foldCast? kind value target with
    | some folded => return ⟨folded, target⟩
    | none => return ⟨← Ir.Builder.cast kind v.type.ir target.ir value, target⟩

def convert (v : TypedValue) (target : Ty) (implicit : Bool) (b : Ir.Builder) :
    Except Problem (TypedValue × Ir.Builder) :=
  if v.type = target then .ok (v, b)
  else match conversion v.value v.type target implicit with
    | .ok c => .ok (c.apply v target b)
    | .error p => .error p

end Stencil
