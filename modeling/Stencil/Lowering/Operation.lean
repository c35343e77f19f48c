import Stencil.Lowering.Fold
import Stencil.Lowering.Place

namespace Stencil

open Analysis

def binaryOperation (op : BinaryOp) (lhs rhs : TypedValue) (left right span : Span) :
    Analysis TypedValue := do
  let pointerCompare : Option Ir.CmpOp :=
    if lhs.type.isPointer && (op = .eq || op = .ne) then op.compare? else none
  if let some cmp := pointerCompare then
    if lhs.type = rhs.type then
      return ⟨← build (Ir.Builder.compare cmp lhs.type.ir false lhs.value rhs.value), .bool⟩
    else fail (operandMismatch op lhs.type rhs.type) span
  match lhs.integer?, rhs.integer? with
  | some a, some b => fromExcept (foldConstants op a b lhs.type rhs.type right span)
  | _, _ =>
    let (lhs, rhs) := (lhs.adopt rhs.type, rhs.adopt lhs.type)
    match commonType lhs.type rhs.type with
    | none => fail (operandMismatch op lhs.type rhs.type) span
    | some type =>
      unless op.allows type do fail (operandMismatch op lhs.type rhs.type) span
      let lhs ← convertTo lhs type true left
      let rhs ← convertTo rhs type true right
      match op.compare? with
      | some cmp =>
        match foldCompare? cmp lhs.value rhs.value with
        | some result => return truth result
        | none =>
          return ⟨← build (Ir.Builder.compare cmp type.ir type.isSigned lhs.value rhs.value), .bool⟩
      | none =>
        let op := op.arithmetic
        if (op = .div || op = .rem) && rhs.value.int? = some 0 then fail .divisionByZero right
        match foldArithmetic? op type lhs.value rhs.value with
        | some value => return ⟨value, type⟩
        | none =>
          return ⟨← build (Ir.Builder.binary op type.ir type.isSigned lhs.value rhs.value), type⟩

def asCondition (v : TypedValue) (span : Span) : Analysis TypedValue := do
  unless v.type.isBool do fail (.notBoolean v.type.text) span
  return v

def circuitEnd (op : BinaryOp) (condition : Ir.Value) (more done : Nat) : Ir.Terminator :=
  if op = .or then .branch condition done more else .branch condition more done

/-- Keeps the left operand in a slot, and goes on in the block of the right one. -/
def openCircuit (op : BinaryOp) (lhs : TypedValue) : Analysis (Ir.Value × Nat) := do
  let slot ← temporary .bool
  storeAt .bool slot lhs.value
  let more ← newBlock "rhs"
  let done ← newBlock "endlogic"
  terminate (circuitEnd op lhs.value more done)
  build (Ir.Builder.position more)
  return (slot, done)

def closeCircuit (slot : Ir.Value) (done : Nat) (rhs : TypedValue) : Analysis TypedValue := do
  storeAt .bool slot rhs.value
  terminate (.jump done)
  build (Ir.Builder.position done)
  loadFrom .bool slot

/-- `&&` and `||`. The right operand is evaluated only when it decides the result. -/
def shortCircuit (op : BinaryOp) (lhs : TypedValue) (rhs : Analysis TypedValue) :
    Analysis TypedValue := do
  match lhs.value.int? with
  | some n => if n = (if op = .or then 1 else 0) then return lhs else rhs
  | none =>
    let (slot, done) ← openCircuit op lhs
    closeCircuit slot done (← rhs)

def negatedLiteral? : UnaryOp → Expr → Option UInt64
  | .neg, .int value _ => some value
  | _, _ => none

def unaryOperation (op : UnaryOp) (v : TypedValue) (operand span : Span) :
    Analysis TypedValue := do
  let type := v.type
  match op with
  | .neg =>
    unless type.isNumeric do fail (.cannotNegate type.text) span
    match v.value with
    | .int n => return ⟨.int (normalize (-n) type.bits type.isSigned), type⟩
    | .float x => return ⟨.float (-x), type⟩
    | value => return ⟨← build (Ir.Builder.unary .neg type.ir value), type⟩
  | .not =>
    unless type.isBool do fail (.notBoolean type.text) operand
    match v.value with
    | .int n => return ⟨.int (if n = 0 then 1 else 0), type⟩
    | value => return ⟨← build (Ir.Builder.unary .not type.ir value), type⟩
  | .bitNot =>
    unless type.isInteger do fail (.complementNeedsInteger type.text) span
    match v.value with
    | .int n => return ⟨.int (normalize (-n - 1) type.bits type.isSigned), type⟩
    | value => return ⟨← build (Ir.Builder.unary .not type.ir value), type⟩

structure Callee where
  name : String
  code : Ir.Value
  signature : Signature
  receiver : Option Ir.Value
  deriving DecidableEq, Repr, Inhabited

namespace Meaning

def asCallee (m : Meaning) (span : Span) : Analysis Callee := do
  match m with
  | .function id receiver =>
    let t ← tree
    match t.kind id with
    | .function e =>
      if e.code.isNone then fail (.bodilessCall e.decl.name) span
      return { name := e.decl.name, code := .function e.codeName, signature := e.signature, receiver }
    | _ => fail (.notFunction (t.name id)) span
  | .scope id => fail (.notFunction ((← tree).name id)) span
  | m =>
    let v ← m.asValue span
    match v.type with
    | .function params result member =>
      return { name := "function value", code := v.value, signature := { params, result, member },
               receiver := none }
    | type => fail (.notCallable type.text) span

end Meaning

namespace Callee

/-- Checks that a call has an instance if the function takes one, and the right number of
arguments. -/
def check (c : Callee) (count : Nat) (span : Span) : Analysis Unit := do
  if c.signature.member && c.receiver.isNone then fail (.receiverMissing c.name) span
  if !c.signature.member && c.receiver.isSome then fail (.receiverUnexpected c.name) span
  unless count = c.signature.params.length do
    fail (.argumentCount c.name c.signature.params.length count) span

def call (c : Callee) (args : List Ir.Value) : Analysis TypedValue := do
  let result := c.signature.result
  return ⟨← build (Ir.Builder.call c.code (c.receiver.toList ++ args) result.ir), result⟩

end Callee

def Place.asArray (p : Place) (span : Span) : Analysis (Ty × Nat) :=
  match p.type with
  | .array element length => return (element, length)
  | type => fail (.cannotIndex type.text) span

/-- An entry of an array. A constant position has to be in the array. -/
def elementPlace (base : Place) (element : Ty) (length : Nat) (position : TypedValue)
    (span : Span) : Analysis Place := do
  unless position.type.isInteger do fail (.indexNotInteger position.type.text) span
  if let some n := position.value.int? then
    unless 0 ≤ n && n < length do fail (.indexOutOfBounds n base.type.text) span
  let addr ← build (Ir.Builder.elemAddr element.ir base.addr position.value)
  return { addr, type := element, constant := base.constant }

def storeValues (element : Ty) (base : Ir.Value) : Nat → List (TypedValue × Span) → Analysis Unit
  | _, [] => return ()
  | index, (v, span) :: rest => do
    let v ← convertTo v element true span
    let addr ← build (Ir.Builder.elemAddr element.ir base (.int index))
    storeAt element addr v.value
    storeValues element base (index + 1) rest

def arrayOfValues (values : List (TypedValue × Span)) (span : Span) : Analysis TypedValue := do
  match values with
  | [] => fail .emptyArray span
  | (first, _) :: rest =>
    let element ← fromExcept (commonEntryType first.type (rest.map fun (v, span) => (v.type, span)))
    let type := Ty.array element values.length
    let slot ← temporary type
    storeValues element slot 0 values
    loadFrom type slot

end Stencil
