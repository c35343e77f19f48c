import Stencil.Ir.Verify
import Stencil.Lowering.Walk

/-!
The analysis of a whole source file. Names of types come first, then aliases and constants,
templates, functions and actions, and at last the bodies of functions. A failure ends only the
declaration that it is in.
-/

namespace Stencil

open Analysis

def AliasDecl.scopeKind (d : AliasDecl) : ScopeKind :=
  .typeAlias { decl := some d, target := none, resolving := false, instanceOf := none }

def registerAliases (spec : ScopeId) : List AliasDecl → Analysis Unit
  | [] => return ()
  | d :: ds => do
    let _ ← reporting (addChild spec d.name d.scopeKind d.span)
    registerAliases spec ds

def registerDecl (parent : ScopeId) (span : Span) : Decl → Analysis (Option ScopeId)
  | .template d => do
    let structName := (← tree).qualify parent d.name
    if d.generics.isEmpty then build (Ir.Builder.declareStruct structName)
    some <$> addChild parent d.name (.template
      { decl := d, structName, instanceOf := none, implemented := [], actions := [] }) span
  | .typeAlias d => some <$> addChild parent d.name d.scopeKind span
  | .spec d => do
    let node ← addChild parent d.name (.spec d) span
    registerAliases node d.aliases
    return some node
  | .action d => do
    modify fun s => { s with actions := s.actions ++ [⟨d, parent, false⟩] }
    return none
  | .func _ | .const _ => return none

mutual

def registerItem (parent : ScopeId) : Item → Analysis Unit
  | .decl decl exported span => do
    match ← reporting (registerDecl parent span decl) with
    | none => return ()
    | some node =>
      if let some node := node then modifyTree (·.setExported node exported)
      modify fun s => { s with decls := s.decls ++ [{ decl, exported, span, parent, node }] }
  | .package name items _ exported span => do
    match ← reporting (addChild parent name .package span) with
    | none => return ()
    | some node =>
      modifyTree (·.setExported node exported)
      registerItems node items

def registerItems (parent : ScopeId) : List Item → Analysis Unit
  | [] => return ()
  | item :: items => do
    registerItem parent item
    registerItems parent items

end

def constantValue (r : Resolver) (d : ConstDecl) (parent : ScopeId) : Analysis TypedValue := do
  match d.type with
  | none => within parent (d.value.lower r none)
  | some type =>
    let type ← r.type parent type
    let v ← within parent (d.value.lower r (some type))
    convertTo v type true d.value.span

def Ir.Value.init? : Ir.Value → Option Ir.Init
  | .int n => some (.int n)
  | .float x => some (.float x)
  | _ => none

def addConstant (d : ConstDecl) (parent : ScopeId) (exported : Bool) (v : TypedValue) :
    Analysis Unit := do
  requireStorable v.type d.span
  match v.value.init? with
  | none => fail (.constantInitializer d.name) d.value.span
  | some init =>
    let global := (← tree).qualify parent d.name
    build (Ir.Builder.addGlobal
      { name := global, type := v.type.ir, init := some init, constant := true })
    let entry : VariableEntry := { type := v.type, storage := .known global v.value, constant := true }
    let node ← addChild parent d.name (.var entry) d.span
    modifyTree (·.setExported node exported)

def defineConstant (r : Resolver) (d : ConstDecl) (parent : ScopeId) (exported : Bool) :
    Analysis Unit := do
  if ((← tree).findChild? parent d.name).isSome then fail (.duplicate d.name) d.span
  addConstant d parent exported (← constantValue r d parent)

def DeclRecord.resolve (d : DeclRecord) : Analysis Unit := do
  let r ← resolver
  match d.decl, d.node with
  | .typeAlias decl, some node =>
    if decl.generics.isEmpty then
      let _ ← r.aliasTarget node d.span
  | .const decl, _ => defineConstant r decl d.parent d.exported
  | _, _ => return ()

def DeclRecord.defineTemplate (d : DeclRecord) : Analysis Unit := do
  match d.decl, d.node with
  | .template decl, some node =>
    if decl.generics.isEmpty then (← resolver).defineTemplate node decl d.exported
  | _, _ => return ()

def DeclRecord.declare (d : DeclRecord) : Analysis Unit := do
  match d.decl, d.node with
  | .func decl, _ => (← resolver).declareFunction d.parent decl d.exported
  | .spec _, some node => (← resolver).declareSpec node
  | _, _ => return ()

def forEachDecl (work : DeclRecord → Analysis Unit) : List DeclRecord → Analysis Unit
  | [] => return ()
  | d :: ds => do
    let _ ← reporting (work d)
    forEachDecl work ds

def applyActions : List Nat → Analysis Unit
  | [] => return ()
  | index :: rest => do
    let s ← get
    match s.actions[index]? with
    | some pending =>
      unless pending.applied do
        modify (·.markApplied index)
        let _ ← reporting (s.resolver.registerAction pending.decl pending.scope)
    | none => pure ()
    applyActions rest

/-- Builds queued bodies, at most so many. More bodies may be queued on the way. -/
def lowerBodies : Nat → Analysis Unit
  | 0 => do
    unless (← get).bodies.isEmpty do
      let _ : Option Unit ← reporting (exhausted {})
  | limit + 1 => do
    let s ← get
    match s.bodies with
    | [] => return ()
    | function :: rest =>
      set { s with bodies := rest }
      if s.tree.isAlive function then
        let _ ← reporting (lowerFunction function)
      lowerBodies limit

/-- All that is done about a module before the first body is lowered, and the number of bodies that
may be lowered then. Declarations of files before it are gone through again. -/
def declareModule (m : Module) : Analysis Nat := do
  registerItems ScopeTree.root m.items
  forEachDecl DeclRecord.resolve (← get).decls
  forEachDecl DeclRecord.defineTemplate (← get).decls
  forEachDecl DeclRecord.declare (← get).decls
  applyActions (List.range (← get).actions.length)
  let s ← get
  return s.bodies.length + s.limits.bodies

def analyzeModule (m : Module) : Analysis Unit := do
  lowerBodies (← declareModule m)

namespace Lowering

def constantValue (r : Resolver) (d : ConstDecl) (parent : ScopeId) : Lowering TypedValue := do
  match d.type with
  | none => within parent (lower r none d.value)
  | some type =>
    let type ← r.type parent type
    let v ← within parent (lower r (some type) d.value)
    convertTo v type true d.value.span

def defineConstant (r : Resolver) (d : ConstDecl) (parent : ScopeId) (exported : Bool) :
    Lowering Unit := do
  if ((← tree).findChild? parent d.name).isSome then fail (.duplicate d.name) d.span
  addConstant d parent exported (← constantValue r d parent)

def resolve (d : DeclRecord) : Lowering Unit := do
  match d.decl with
  | .const decl => defineConstant (← resolver) decl d.parent d.exported
  | _ => d.resolve

def resolveEach : List DeclRecord → Lowering Unit
  | [] => return ()
  | d :: ds => do
    let _ ← reporting (resolve d)
    resolveEach ds

def lowerBodies : Nat → Lowering Unit
  | 0 => Stencil.lowerBodies 0
  | limit + 1 => do
    let s := (← get).session
    match s.bodies with
    | [] => return ()
    | function :: rest =>
      modify ({ · with session := { s with bodies := rest } })
      if s.tree.isAlive function then
        let _ ← reporting (lowerFunction function)
      lowerBodies limit

def declareModule (m : Module) : Lowering Nat := do
  registerItems ScopeTree.root m.items
  resolveEach (← get).session.decls
  forEachDecl DeclRecord.defineTemplate (← get).session.decls
  forEachDecl DeclRecord.declare (← get).session.decls
  applyActions (List.range (← get).session.actions.length)
  let s := (← get).session
  return s.bodies.length + s.limits.bodies

def analyzeModule (m : Module) : Lowering Unit := do
  lowerBodies (← declareModule m)

end Lowering

namespace Session

def run (s : Session) (m : Module) : Session :=
  match Lowering.analyzeModule m { session := s } with
  | .ok _ l => l.session
  | .error d l => { l.session with report := l.session.report.push d }

/-- Everything that was reported. Code is checked only if nothing else was found wrong, since
declarations that were given up leave gaps in it. -/
def finalReport (s : Session) : Report :=
  if s.report.isEmpty then
    s.report.extend (s.builder.module.defects.map fun d => (Problem.defectiveCode d.text).at {})
  else s.report

end Session

def analyze (moduleName : String) (m : Module) (limits : Limits := {}) : Session :=
  (Session.new moduleName limits).run m

end Stencil
