import Stencil.Lowering.Stmt

namespace Stencil

open Analysis

def bindParam (name : String) (type : Ty) (constant : Bool) (index : Nat) (span : Span) :
    Analysis Unit := do
  let slot ← temporary type
  storeAt type slot (.param index)
  bindSlot name type slot constant span

def bindParams : Nat → List Param → List Ty → Analysis Unit
  | index, param :: params, type :: types => do
    requireStorable type param.span
    bindParam param.name type false index param.span
    bindParams (index + 1) params types
  | _, _, _ => return ()

/-- Binds `self`, if the function takes an instance, and gives the number of parameters that this
takes. -/
def bindSelf (function : ScopeId) (decl : FuncDecl) (member : Bool) : Analysis Nat := do
  if member then
    let t ← tree
    match t.selfType? ((t.parent? function).getD ScopeTree.root) with
    | some type =>
      bindParam "self" (.pointer type) true 0 decl.nameSpan
      return 1
    | none => fail .selfWithoutTemplate decl.nameSpan
  else return 0

def newFrame (result : Ty) (returns : Nat) : Analysis Frame := do
  if returns < 2 then return { result }
  let slot ← if result.isVoid then pure none else some <$> temporary result
  let exit ← newBlock "return"
  return { result, slot, exit := some exit }

def fallThrough (frame : Frame) (decl : FuncDecl) : Analysis Ir.Terminator := do
  if frame.result.isVoid then
    match frame.exit with
    | some exit => return .jump exit
    | none => return .ret none
  else
    let b := (← get).builder
    if b.block.any b.isReachable then fail (.mayNotReturn decl.name) decl.nameSpan
    return .unreachable

def finishBody (frame : Frame) (decl : FuncDecl) : Analysis Unit := do
  unless (← get).builder.isCurrentTerminated do
    terminate (← fallThrough frame decl)
  if let some exit := frame.exit then
    build (Ir.Builder.position exit)
    let value ← match frame.slot with
      | some slot => some <$> loadFrom frame.result slot
      | none => pure none
    terminate (.ret (value.map (·.value)))

/-- Binds the parameters of a function with so many `return` statements. -/
def openBody (function : ScopeId) (decl : FuncDecl) (signature : Signature) (returns : Nat) :
    Analysis Frame := do
  let first ← bindSelf function decl signature.member
  bindParams first decl.params signature.params
  if returns = 0 && !signature.result.isVoid then fail (.neverReturns decl.name) decl.nameSpan
  newFrame signature.result returns

def lowerStatements (r : Resolver) (function : ScopeId) (decl : FuncDecl) (signature : Signature)
    (body : Block) : Analysis Frame := do
  let frame ← openBody function decl signature body.returns
  lowerBlock r frame none body
  return frame

def lowerBody (r : Resolver) (function : ScopeId) (decl : FuncDecl) (signature : Signature)
    (body : Block) : Analysis Unit := do
  finishBody (← lowerStatements r function decl signature body) decl

def lowerFunction (function : ScopeId) : Analysis Unit := do
  let s ← get
  match s.tree.kind function with
  | .function { decl, signature, code := some code, .. } =>
    if let some body := decl.body then
      let _ ← build (Ir.Builder.beginBody code)
      match ← attempt (within function (lowerBody s.resolver function decl signature body)) with
      | .ok _ => build Ir.Builder.endBody
      | .error d =>
        build (Ir.Builder.discardBody code)
        throw d
  | _ => return ()

end Stencil
