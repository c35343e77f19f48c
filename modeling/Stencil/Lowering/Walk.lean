import Stencil.Lowering.Function

/-!
The walk over a body, with the state of lowering. Parts that do not look at the state are steps of an
analysis.
-/

namespace Stencil

/-- Whether an expression is a name, or a member, an entry or the target of another one. -/
def Expr.isChain : Expr → Bool
  | .identifier .. | .member .. | .index .. | .deref .. => true
  | _ => false

namespace Lowering

open Analysis

/-- Chains are resolved as the state asks for; anything else is evaluated. -/
def resolved (e : Expr) (step : Lowering Meaning) : Lowering Meaning :=
  if e.isChain then step else hinted none step

def valued (hint : Option Ty) (e : Expr) (step : Lowering Meaning) : Lowering TypedValue :=
  hinted hint do (← step).asValue e.span

def stored (addr : Ir.Value) (type : Ty) (e : Expr) (step : Lowering Meaning) : Lowering Unit := do
  let v ← convertTo (← valued (some type) e step) type true e.span
  storeAt type addr v.value

def shortCircuit (op : BinaryOp) (lhs : TypedValue) (rhs : Lowering TypedValue) :
    Lowering TypedValue := do
  match lhs.value.int? with
  | some n => if n = (if op = .or then 1 else 0) then return lhs else rhs
  | none =>
    let (slot, done) ← openCircuit op lhs
    closeCircuit slot done (← rhs)

section

variable (r : Resolver)

mutual

def meaning : Expr → Lowering Meaning
  | .int n _ => return .value ⟨.int n.toNat, .int (minUnsignedWidth n.toNat) false⟩
  | .float x _ => return .value ⟨.float x, .double⟩
  | .bool b _ => return .value (truth b)
  | .string s _ => do
    let (global, type) ← build (Ir.Builder.addString (s.toUTF8.toList ++ [0]))
    return .value ⟨← build (Ir.Builder.load type global), stringType s⟩
  | .array items span => do
    match (← state).hint with
    | some (.array element length) =>
      let type := Ty.array element length
      let slot ← temporary type
      let slots ← fromExcept (arraySlots type items.length span)
      withAggregate { addr := slot, type } (fillItems slots items)
      .value <$> loadFrom type slot
    | _ =>
      let values ← values items
      .value <$> arrayOfValues (values.zip (items.map Expr.span)) span
  | .initializer entries span => do
    match (← state).hint with
    | none => fail .untypedInitializer span
    | some type =>
      let slot ← temporary type
      let slots ← fromExcept ((← tree).initializerSlots type (entries.map Entry.head) span)
      withAggregate { addr := slot, type } (fillEntries slots entries)
      .value <$> loadFrom type slot
  | .identifier name span => do
    nameMeaning (← state).reference name span
  | .member object name nameSpan _ => do
    let base ← resolved object (meaning object)
    memberMeaning r (← state).reference base name nameSpan
  | .call callee args span => do
    let target ← (← resolved callee (meaning callee)).asCallee callee.span
    target.check args.length span
    let args ← arguments target.signature.params args
    .value <$> target.call args
  | .index base position span => do
    let place ← (← resolved base (meaning base)).asPlace span
    let place ← place.follow
    let (element, length) ← place.asArray span
    let v ← valued none position (meaning position)
    .place <$> elementPlace place element length v position.span
  | .binary op left right span =>
    if op.isLogical then do
      let lhs ← asCondition (← valued none left (meaning left)) left.span
      .value <$> shortCircuit op lhs do
        asCondition (← valued none right (meaning right)) right.span
    else do
      let lhs ← valued none left (meaning left)
      let rhs ← valued none right (meaning right)
      .value <$> binaryOperation op lhs rhs left.span right.span span
  | .unary op operand span =>
    match negatedLiteral? op operand with
    | some n => return .value ⟨.int (-n.toNat), .int (minSignedWidth (-n.toNat)) true⟩
    | none => do
      let v ← valued none operand (meaning operand)
      .value <$> unaryOperation op v operand.span span
  | .addressOf operand _ => do
    match ← referring (resolved operand (meaning operand)) with
    | .place p => return .value ⟨p.addr, .pointer p.type⟩
    | _ => fail .notAssignable operand.span
  | .deref operand span => do
    let v ← valued none operand (meaning operand)
    match v.type.pointee? with
    | some target => return .place { addr := v.value, type := target }
    | none => fail (.cannotDereference v.type.text) span
  | .cast operand type span => do
    let target ← r.type (← tree).current type
    let v ← valued none operand (meaning operand)
    .value <$> convertTo v target false span

def fill (addr : Ir.Value) (type : Ty) : Expr → Lowering Bool
  | .initializer entries span => do
    let slots ← fromExcept ((← tree).initializerSlots type (entries.map Entry.head) span)
    withAggregate { addr, type } (fillEntries slots entries)
    return true
  | .array items span =>
    match type with
    | .array .. => do
      let slots ← fromExcept (arraySlots type items.length span)
      withAggregate { addr, type } (fillItems slots items)
      return true
    | _ => return false
  | _ => return false

def fillEntries : List (Except Diagnostic Slot) → List (Entry Expr) → Lowering Unit
  | slot :: slots, entry :: entries => do
    let slot ← fromExcept slot
    let addr ← entryAddr slot.index
    unless ← fill addr slot.type entry.value do
      stored addr slot.type entry.value (meaning entry.value)
    fillEntries slots entries
  | _, _ => return ()

def fillItems : List Slot → List Expr → Lowering Unit
  | slot :: slots, item :: items => do
    let addr ← entryAddr slot.index
    unless ← fill addr slot.type item do stored addr slot.type item (meaning item)
    fillItems slots items
  | _, _ => return ()

def arguments : List Ty → List Expr → Lowering (List Ir.Value)
  | type :: types, arg :: args => do
    let v ← valued (some type) arg (meaning arg)
    let v ← convertTo v type true arg.span
    return v.value :: (← arguments types args)
  | _, _ => return []

def values : List Expr → Lowering (List TypedValue)
  | [] => return []
  | item :: items => do
    let v ← valued none item (meaning item)
    return v :: (← values items)

end

def lower (hint : Option Ty) (e : Expr) : Lowering TypedValue :=
  valued hint e (meaning r e)

def lowerPlace (e : Expr) : Lowering Place := do
  match ← referring (resolved e (meaning r e)) with
  | .place p => return p
  | _ => fail .notAssignable e.span

def lowerCondition (e : Expr) : Lowering TypedValue := do
  asCondition (← lower r none e) e.span

def lowerInto (addr : Ir.Value) (type : Ty) (e : Expr) : Lowering Unit := do
  unless ← fill r addr type e do stored addr type e (meaning r e)

def lowerBinding (name : String) (span : Span) (type : Option TypeSyntax) (init : Option Expr)
    (constant : Bool) : Lowering Unit := do
  match type, init with
  | none, none => fail (.undeterminedVariable name) span
  | some type, init =>
    let type ← r.type (← tree).current type
    requireStorable type span
    let slot ← temporary type
    if let some init := init then lowerInto r slot type init
    bindSlot name type slot constant span
  | none, some (.initializer _ initSpan) => fail (.untypedVariableList name) initSpan
  | none, some init =>
    let v ← lower r none init
    requireStorable v.type init.span
    let slot ← temporary v.type
    storeAt v.type slot v.value
    bindSlot name v.type slot constant span

def lowerAssignment (target value : Expr) : Lowering Unit := do
  let place ← lowerPlace r target
  if let some constant := place.constant then fail (.constantAssigned constant) target.span
  lowerInto r place.addr place.type value

def returnValue (result : Ty) (value : Option Expr) (span : Span) :
    Lowering (Option Ir.Value) := do
  match value with
  | some e =>
    if result.isVoid then fail .voidReturnsValue e.span
    let v ← convertTo (← lower r (some result) e) result true e.span
    return some v.value
  | none =>
    unless result.isVoid do fail (.returnValueExpected result.text) span
    return none

def lowerReturn (value : Option Expr) (span : Span) : Lowering Unit := do
  match (← state).function with
  | none => fail .returnOutsideFunction span
  | some function =>
    let value ← returnValue r function.result value span
    modifyState (·.counting 1)
    giveBack function.toFrame value

def lowerJump (target : LoopTargets → Nat) (keyword : String) (span : Span) : Lowering Unit := do
  Stencil.lowerJump (← state).loops.head? target keyword span

def inBranch (block : Option Nat) (next : Nat) (step : Lowering Unit) : Lowering Unit := do
  if let some block := block then
    build (Ir.Builder.position block)
    step
    closeBranch next

mutual

def lowerStmt : Stmt → Lowering Unit
  | .binding name nameSpan type init constant _ => lowerBinding r name nameSpan type init constant
  | .assign target value _ => lowerAssignment r target value
  | .expr value _ => do
    let _ ← lower r none value
  | .ret value span => lowerReturn r value span
  | .branch condition body otherwise _ => do
    let v ← lowerCondition r condition
    let yes ← blockUnless body.isEmpty "then"
    let no ← blockUnless otherwise.isEmpty "else"
    let done ← newBlock "endif"
    terminate (.branch v.value (yes.getD done) (no.getD done))
    inBranch yes done (lowerBlock body)
    inBranch no done (lowerAlternative otherwise)
    build (Ir.Builder.position done)
  | .loop condition body _ => do
    let header ← loopHeader
    build (Ir.Builder.position header)
    let v ← lowerCondition r condition
    let inside ← blockUnless body.isEmpty "body"
    let exit ← newBlock "endwhile"
    terminate (.branch v.value (inside.getD header) exit)
    inBranch inside header (inLoop { header, exit } (lowerBlock body))
    build (Ir.Builder.position exit)
  | .leave span => lowerJump LoopTargets.exit "break" span
  | .again span => lowerJump LoopTargets.header "continue" span
  | .block body _ => lowerBlock body

def lowerAlternative : Alternative → Lowering Unit
  | .absent => return ()
  | .block body => lowerBlock body
  | .branch next => lowerStmt next

def lowerBlock : Block → Lowering Unit
  | .mk stmts span => do
    let name ← generateName "block"
    let scope ← add name .block span
    within scope (lowerStmts stmts)

def lowerStmts : List Stmt → Lowering Unit
  | [] => return ()
  | s :: ss => do
    leaveTerminated
    lowerStmt s
    lowerStmts ss

end

def finishBody (decl : FuncDecl) : Lowering Unit := do
  if let some function := (← state).function then
    modifyState ({ · with function := none })
    Stencil.finishBody function.toFrame decl

def lowerStatements (function : ScopeId) (decl : FuncDecl) (signature : Signature) (body : Block) :
    Lowering Unit := do
  let frame ← openBody function decl signature body.returns
  modifyState (·.enter frame body.returns)
  lowerBlock r body

def lowerBody (function : ScopeId) (decl : FuncDecl) (signature : Signature) (body : Block) :
    Lowering Unit := do
  lowerStatements r function decl signature body
  finishBody decl

end

/-- Lowers the body of a function. Where it fails, the state is as at the beginning of an analysis. -/
def lowerFunction (function : ScopeId) : Lowering Unit := do
  let s := (← get).session
  match s.tree.kind function with
  | .function { decl, signature, code := some code, .. } =>
    if let some body := decl.body then
      let _ ← build (Ir.Builder.beginBody code)
      match ← attempt (within function (lowerBody s.resolver function decl signature body)) with
      | .ok _ => build Ir.Builder.endBody
      | .error d =>
        build (Ir.Builder.discardBody code)
        modifyState fun _ => {}
        throw d
  | _ => return ()

end Lowering

end Stencil
