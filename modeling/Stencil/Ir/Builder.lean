import Stencil.Diagnostic.Report
import Stencil.Ir.Reach

/-!
Building a module of intermediate code, one instruction at a time. Instructions go to the end of
the insertion block; stack slots go to the head of the entry block of the current function.
Without an insertion block an instruction is dropped, but its temporary still counts.
-/

namespace Stencil.Ir

structure Builder where
  module : Module
  function : Option Nat := none
  block : Option Nat := none
  nextTemp : Nat := 0
  nextString : Nat := 0
  /-- The number of instructions that were put behind the end of a block. -/
  late : Nat := 0
  deriving DecidableEq, Repr, Inhabited

abbrev Build := StateM Builder

namespace Builder

abbrev functions (b : Builder) : List Function := b.module.functions

def new (name : String) : Builder :=
  { module := { name } }

def declareStruct (name : String) : Build Unit :=
  modify fun b =>
    if (b.module.struct? name).isSome then b
    else { b with module.structs := b.module.structs ++ [⟨name, none⟩] }

def setFields (name : String) (fields : List Ty) : List Struct → List Struct
  | [] => []
  | s :: ss =>
    if s.name = name then { s with fields := some fields } :: ss
    else s :: setFields name fields ss

def defineStruct (name : String) (fields : List Ty) : Build Unit := do
  declareStruct name
  modify fun b => { b with module.structs := setFields name fields b.module.structs }

def structFields? (b : Builder) (name : String) : Option (List Ty) := do
  (← b.module.struct? name).fields

def addGlobal (g : Global) : Build Unit :=
  modify fun b => { b with module.globals := b.module.globals ++ [g] }

def addString (content : List UInt8) : Build (Value × Ty) := do
  let b ← get
  let name := ".str." ++ toString b.nextString
  let type := Ty.array (.int 8) content.length
  addGlobal { name, type, init := some (.bytes content), constant := true }
  modify fun b => { b with nextString := b.nextString + 1 }
  return (.global name, type)

def declareFunction (name : String) (params : List Ty) (result : Ty) (exported : Bool) :
    Build Nat := do
  let b ← get
  let declared : Function := { name, params, result, exported }
  set { b with module.functions := b.module.functions ++ [declared] }
  return b.functions.length

def functionId? (b : Builder) (name : String) : Option Nat :=
  b.functions.findIdx? (·.name = name)

def modifyFunction (b : Builder) (id : Nat) (change : Function → Function) : Builder :=
  { b with module.functions := b.module.functions.modify id change }

def currentFunction? (b : Builder) : Option Function := do
  b.functions[← b.function]?

def block? (b : Builder) (id : Nat) : Option Block := do
  (← b.currentFunction?).blocks[id]?

def modifyBlock (b : Builder) (id : Nat) (change : Block → Block) : Builder :=
  match b.function with
  | some f => b.modifyFunction f fun f => { f with blocks := f.blocks.modify id change }
  | none => b

/-- Adds a block to the current function and gives its number. All but the entry have their number
in their name. -/
def appendBlock (name : String) : Build (Option Nat) := do
  let b ← get
  match b.function, b.currentFunction? with
  | some f, some current =>
    let id := current.size
    let name := if id = 0 then name else name ++ toString id
    set (b.modifyFunction f fun f => { f with blocks := f.blocks ++ [{ id, name }] })
    return some id
  | _, _ => return none

def position (id : Nat) : Build Unit :=
  modify fun b => { b with block := some id }

def beginBody (id : Nat) : Build (Option Nat) := do
  modify fun b =>
    { b.modifyFunction id (fun f => { f with blocks := [] }) with function := some id, nextTemp := 0 }
  let entry ← appendBlock "entry"
  modify fun b => { b with block := entry }
  return entry

def endBody : Build Unit :=
  modify fun b => { b with function := none, block := none }

def discardBody (id : Nat) : Build Unit := do
  modify fun b => b.modifyFunction id fun f => { f with blocks := [] }
  endBody

def isBlockEmpty (b : Builder) (id : Nat) : Bool :=
  (b.block? id).any Block.isEmpty

def isTerminated (b : Builder) (id : Nat) : Bool :=
  (b.block? id).any Block.isTerminated

def isCurrentTerminated (b : Builder) : Bool :=
  b.block.any b.isTerminated

def isReachable (b : Builder) (id : Nat) : Bool :=
  b.currentFunction?.any (·.isReachable id)

def newTemp : Build Nat := do
  let b ← get
  set { b with nextTemp := b.nextTemp + 1 }
  return b.nextTemp

def emit (inst : Inst) : Build Unit :=
  modify fun b =>
    match b.block with
    | some id =>
      { b.modifyBlock id fun block => { block with insts := block.insts ++ [inst] } with
        late := if b.isTerminated id then b.late + 1 else b.late }
    | none => b

def emitInto (inst : Nat → Inst) : Build Value := do
  let dst ← newTemp
  emit (inst dst)
  return .temp dst

def insertSlot (slot : Inst) (insts : List Inst) : List Inst :=
  insts.takeWhile Inst.isAlloca ++ slot :: insts.dropWhile Inst.isAlloca

def entryAlloca (type : Ty) : Build Value := do
  let dst ← newTemp
  modify fun b => b.modifyBlock 0 fun entry =>
    { entry with insts := insertSlot (.alloca dst type) entry.insts }
  return .temp dst

def load (type : Ty) (addr : Value) : Build Value :=
  emitInto fun dst => .load dst type addr

def store (type : Ty) (addr src : Value) : Build Unit :=
  emit (.store type addr src)

def binary (op : BinOp) (type : Ty) (signed : Bool) (left right : Value) : Build Value :=
  emitInto fun dst => .binary dst op type signed left right

def compare (op : CmpOp) (type : Ty) (signed : Bool) (left right : Value) : Build Value :=
  emitInto fun dst => .compare dst op type signed left right

def unary (op : UnOp) (type : Ty) (src : Value) : Build Value :=
  emitInto fun dst => .unary dst op type src

def cast (kind : CastKind) (source target : Ty) (src : Value) : Build Value :=
  emitInto fun dst => .cast dst kind source target src

def fieldAddr (struct : String) (base : Value) (index : Nat) : Build Value :=
  emitInto fun dst => .fieldAddr dst struct base index

def elemAddr (element : Ty) (base index : Value) : Build Value :=
  emitInto fun dst => .elemAddr dst element base index

def call (callee : Value) (args : List Value) (result : Ty) : Build Value :=
  if result.isVoid then do
    emit (.call none callee args result)
    return .undef
  else emitInto fun dst => .call (some dst) callee args result

/-- Ends the insertion block, which must not have ended yet. -/
def terminate (t : Terminator) (b : Builder) : Except Problem Builder :=
  match b.block with
  | none => .error .noInsertionBlock
  | some id =>
    match b.block? id with
    | none => .error .missingInsertionBlock
    | some block =>
      if block.isTerminated then .error (.alreadyTerminated block.name)
      else .ok (b.modifyBlock id fun block => { block with terminator := some t })

end Builder

end Stencil.Ir
