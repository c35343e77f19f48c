import Stencil.Lowering.Aggregate
import Stencil.Lowering.Operation

/-!
Expressions. What an expression means is found by recursion on it; the context says whether its
place is wanted and which type is expected, and instructions are emitted on the way.
-/

namespace Stencil

open Analysis

def storeConverted (addr : Ir.Value) (type : Ty) (m : Meaning) (span : Span) : Analysis Unit := do
  let v ← convertTo (← m.asValue span) type true span
  storeAt type addr v.value

mutual

/-- What an expression means. With `reference` its place is wanted; `hint` is the type that the
context expects. -/
def meaning (r : Resolver) (reference : Bool) (hint : Option Ty) : Expr → Analysis Meaning
  | .int n _ => return .value ⟨.int n.toNat, .int (minUnsignedWidth n.toNat) false⟩
  | .float x _ => return .value ⟨.float x, .double⟩
  | .bool b _ => return .value (truth b)
  | .string s _ => do
    let (global, type) ← build (Ir.Builder.addString (s.toUTF8.toList ++ [0]))
    return .value ⟨← build (Ir.Builder.load type global), stringType s⟩
  | .array items span =>
    match hint with
    | some (.array element length) => do
      let type := Ty.array element length
      let slot ← temporary type
      let slots ← fromExcept (arraySlots type items.length span)
      fillItems r { addr := slot, type } slots items
      .value <$> loadFrom type slot
    | _ => do
      let values ← values r items
      .value <$> arrayOfValues (values.zip (items.map Expr.span)) span
  | .initializer entries span =>
    match hint with
    | none => fail .untypedInitializer span
    | some type => do
      let slot ← temporary type
      let slots ← fromExcept ((← tree).initializerSlots type (entries.map Entry.head) span)
      fillEntries r { addr := slot, type } slots entries
      .value <$> loadFrom type slot
  | .identifier name span => nameMeaning reference name span
  | .member object name nameSpan _ => do
    let base ← meaning r reference none object
    memberMeaning r reference base name nameSpan
  | .call callee args span => do
    let target ← (← meaning r false none callee).asCallee callee.span
    target.check args.length span
    let args ← arguments r target.signature.params args
    .value <$> target.call args
  | .index base position span => do
    let place ← (← meaning r reference none base).asPlace span
    let place ← place.follow
    let (element, length) ← place.asArray span
    let v ← (← meaning r false none position).asValue position.span
    .place <$> elementPlace place element length v position.span
  | .binary op left right span =>
    if op.isLogical then do
      let lhs ← asCondition (← (← meaning r false none left).asValue left.span) left.span
      .value <$> shortCircuit op lhs do
        asCondition (← (← meaning r false none right).asValue right.span) right.span
    else do
      let lhs ← (← meaning r false none left).asValue left.span
      let rhs ← (← meaning r false none right).asValue right.span
      .value <$> binaryOperation op lhs rhs left.span right.span span
  | .unary op operand span =>
    match negatedLiteral? op operand with
    | some n => return .value ⟨.int (-n.toNat), .int (minSignedWidth (-n.toNat)) true⟩
    | none => do
      let v ← (← meaning r false none operand).asValue operand.span
      .value <$> unaryOperation op v operand.span span
  | .addressOf operand _ => do
    match ← meaning r true none operand with
    | .place p => return .value ⟨p.addr, .pointer p.type⟩
    | _ => fail .notAssignable operand.span
  | .deref operand span => do
    let v ← (← meaning r false none operand).asValue operand.span
    match v.type.pointee? with
    | some target => return .place { addr := v.value, type := target }
    | none => fail (.cannotDereference v.type.text) span
  | .cast operand type span => do
    let target ← r.type (← tree).current type
    let v ← (← meaning r false none operand).asValue operand.span
    .value <$> convertTo v target false span

/-- Fills the storage at an address from a list of entries. Any other expression is left alone, and
the answer is `false`. -/
def fill (r : Resolver) (addr : Ir.Value) (type : Ty) : Expr → Analysis Bool
  | .initializer entries span => do
    let slots ← fromExcept ((← tree).initializerSlots type (entries.map Entry.head) span)
    fillEntries r { addr, type } slots entries
    return true
  | .array items span =>
    match type with
    | .array .. => do
      let slots ← fromExcept (arraySlots type items.length span)
      fillItems r { addr, type } slots items
      return true
    | _ => return false
  | _ => return false

def fillEntries (r : Resolver) (base : Place) :
    List (Except Diagnostic Slot) → List (Entry Expr) → Analysis Unit
  | slot :: slots, entry :: entries => do
    let slot ← fromExcept slot
    let addr ← base.entryAddr slot.index
    unless ← fill r addr slot.type entry.value do
      storeConverted addr slot.type (← meaning r false (some slot.type) entry.value) entry.value.span
    fillEntries r base slots entries
  | _, _ => return ()

def fillItems (r : Resolver) (base : Place) : List Slot → List Expr → Analysis Unit
  | slot :: slots, item :: items => do
    let addr ← base.entryAddr slot.index
    unless ← fill r addr slot.type item do
      storeConverted addr slot.type (← meaning r false (some slot.type) item) item.span
    fillItems r base slots items
  | _, _ => return ()

def arguments (r : Resolver) : List Ty → List Expr → Analysis (List Ir.Value)
  | type :: types, arg :: args => do
    let v ← (← meaning r false (some type) arg).asValue arg.span
    let v ← convertTo v type true arg.span
    return v.value :: (← arguments r types args)
  | _, _ => return []

def values (r : Resolver) : List Expr → Analysis (List TypedValue)
  | [] => return []
  | item :: items => do
    let v ← (← meaning r false none item).asValue item.span
    return v :: (← values r items)

end

namespace Expr

def lower (r : Resolver) (hint : Option Ty) (e : Expr) : Analysis TypedValue := do
  (← meaning r false hint e).asValue e.span

def lowerPlace (r : Resolver) (e : Expr) : Analysis Place := do
  match ← meaning r true none e with
  | .place p => return p
  | _ => fail .notAssignable e.span

def lowerCondition (r : Resolver) (e : Expr) : Analysis TypedValue := do
  asCondition (← e.lower r none) e.span

def lowerInto (r : Resolver) (addr : Ir.Value) (type : Ty) (e : Expr) : Analysis Unit := do
  unless ← fill r addr type e do
    storeConverted addr type (← meaning r false (some type) e) e.span

end Expr

end Stencil
