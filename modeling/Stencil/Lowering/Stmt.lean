import Stencil.Lowering.Expr
import Stencil.Lowering.State

/-!
Statements and blocks. A statement behind one that ends its block goes to a block of its own, which
control never reaches.
-/

namespace Stencil

open Analysis

mutual

/-- The number of `return` statements. -/
def Stmt.returns : Stmt → Nat
  | .ret .. => 1
  | .branch _ body otherwise _ => body.returns + otherwise.returns
  | .loop _ body _ => body.returns
  | .block body _ => body.returns
  | _ => 0

def Alternative.returns : Alternative → Nat
  | .absent => 0
  | .block body => body.returns
  | .branch next => next.returns

def Block.returns : Block → Nat
  | .mk stmts _ => Stmt.returnsOf stmts

def Stmt.returnsOf : List Stmt → Nat
  | [] => 0
  | s :: ss => s.returns + Stmt.returnsOf ss

end

def bindSlot (name : String) (type : Ty) (addr : Ir.Value) (constant : Bool) (span : Span) :
    Analysis Unit := do
  let _ ← add name (.var { type, storage := .slot addr, constant }) span

/-- A variable. Its initializer comes before its name, so it may use an outer variable of the same
name. -/
def lowerBinding (r : Resolver) (name : String) (span : Span) (type : Option TypeSyntax)
    (init : Option Expr) (constant : Bool) : Analysis Unit := do
  match type, init with
  | none, none => fail (.undeterminedVariable name) span
  | some type, init =>
    let type ← r.type (← tree).current type
    requireStorable type span
    let slot ← temporary type
    if let some init := init then init.lowerInto r slot type
    bindSlot name type slot constant span
  | none, some (.initializer _ initSpan) => fail (.untypedVariableList name) initSpan
  | none, some init =>
    let v ← init.lower r none
    requireStorable v.type init.span
    let slot ← temporary v.type
    storeAt v.type slot v.value
    bindSlot name v.type slot constant span

def lowerAssignment (r : Resolver) (target value : Expr) : Analysis Unit := do
  let place ← target.lowerPlace r
  if let some constant := place.constant then fail (.constantAssigned constant) target.span
  value.lowerInto r place.addr place.type

def returnValue (r : Resolver) (result : Ty) (value : Option Expr) (span : Span) :
    Analysis (Option Ir.Value) := do
  match value with
  | some e =>
    if result.isVoid then fail .voidReturnsValue e.span
    let v ← convertTo (← e.lower r (some result)) result true e.span
    return some v.value
  | none =>
    unless result.isVoid do fail (.returnValueExpected result.text) span
    return none

def giveBack (frame : Frame) (value : Option Ir.Value) : Analysis Unit := do
  match frame.exit with
  | some exit =>
    if let (some slot, some value) := (frame.slot, value) then storeAt frame.result slot value
    terminate (.jump exit)
  | none => terminate (.ret value)

def lowerReturn (r : Resolver) (frame : Frame) (value : Option Expr) (span : Span) :
    Analysis Unit := do
  giveBack frame (← returnValue r frame.result value span)

def lowerJump (loop : Option LoopTargets) (target : LoopTargets → Nat) (keyword : String)
    (span : Span) : Analysis Unit :=
  match loop with
  | some targets => terminate (.jump (target targets))
  | none => fail (.outsideLoop keyword) span

def closeBranch (next : Nat) : Analysis Unit := do
  unless (← get).builder.isCurrentTerminated do terminate (.jump next)

def blockUnless (empty : Bool) (name : String) : Analysis (Option Nat) := do
  if empty then return none else return some (← newBlock name)

def inBranch (block : Option Nat) (next : Nat) (step : Analysis Unit) : Analysis Unit := do
  if let some block := block then
    build (Ir.Builder.position block)
    step
    closeBranch next

def leaveTerminated : Analysis Unit := do
  if (← get).builder.isCurrentTerminated then
    build (Ir.Builder.position (← newBlock "dead"))

/-- The block in which the condition of a loop is evaluated: the insertion block if it is empty and
not the entry, or else a new one. -/
def loopHeader : Analysis Nat := do
  let b := (← get).builder
  let free := b.block.filter fun id => id != 0 && b.isBlockEmpty id && !b.isTerminated id
  match free with
  | some id => return id
  | none =>
    let header ← newBlock "while"
    terminate (.jump header)
    return header

def branchOn (condition : Analysis TypedValue) (bare bare' : Bool) (first second : Analysis Unit) :
    Analysis Unit := do
  let v ← condition
  let yes ← blockUnless bare "then"
  let no ← blockUnless bare' "else"
  let done ← newBlock "endif"
  terminate (.branch v.value (yes.getD done) (no.getD done))
  inBranch yes done first
  inBranch no done second
  build (Ir.Builder.position done)

def loopOn (condition : Analysis TypedValue) (bare : Bool) (body : LoopTargets → Analysis Unit) :
    Analysis Unit := do
  let header ← loopHeader
  build (Ir.Builder.position header)
  let v ← condition
  let inside ← blockUnless bare "body"
  let exit ← newBlock "endwhile"
  terminate (.branch v.value (inside.getD header) exit)
  inBranch inside header (body { header, exit })
  build (Ir.Builder.position exit)

def inBlock (span : Span) (step : Analysis Unit) : Analysis Unit := do
  let name ← generateName "block"
  let scope ← add name .block span
  within scope step

def Block.isEmpty (b : Block) : Bool :=
  b.stmts.isEmpty

def Alternative.isEmpty : Alternative → Bool
  | .absent => true
  | .block body => body.isEmpty
  | .branch _ => false

mutual

def lowerStmt (r : Resolver) (frame : Frame) (loop : Option LoopTargets) : Stmt → Analysis Unit
  | .binding name nameSpan type init constant _ =>
    lowerBinding r name nameSpan type init constant
  | .assign target value _ => lowerAssignment r target value
  | .expr value _ => do
    let _ ← value.lower r none
  | .ret value span => lowerReturn r frame value span
  | .branch condition body otherwise _ =>
    branchOn (condition.lowerCondition r) body.isEmpty otherwise.isEmpty
      (lowerBlock r frame loop body) (lowerAlternative r frame loop otherwise)
  | .loop condition body _ =>
    loopOn (condition.lowerCondition r) body.isEmpty fun targets =>
      lowerBlock r frame (some targets) body
  | .leave span => lowerJump loop LoopTargets.exit "break" span
  | .again span => lowerJump loop LoopTargets.header "continue" span
  | .block body _ => lowerBlock r frame loop body

def lowerAlternative (r : Resolver) (frame : Frame) (loop : Option LoopTargets) :
    Alternative → Analysis Unit
  | .absent => return ()
  | .block body => lowerBlock r frame loop body
  | .branch next => lowerStmt r frame loop next

def lowerBlock (r : Resolver) (frame : Frame) (loop : Option LoopTargets) :
    Block → Analysis Unit
  | .mk stmts span => inBlock span (lowerStmts r frame loop stmts)

def lowerStmts (r : Resolver) (frame : Frame) (loop : Option LoopTargets) :
    List Stmt → Analysis Unit
  | [] => return ()
  | s :: ss => do
    leaveTerminated
    lowerStmt r frame loop s
    lowerStmts r frame loop ss

end

end Stencil
