import Stencil.Scope.Tree
import Stencil.Ty.Convert

/-!
The state of an analysis and the steps that all of it is made of. A step that fails keeps what it
has changed so far; only the declaration that it belongs to is given up.
-/

namespace Stencil

/-- A declaration, the scope that it is in, and the scope that it has introduced. -/
structure DeclRecord where
  decl : Decl
  exported : Bool
  span : Span
  parent : ScopeId
  node : Option ScopeId
  deriving Inhabited

structure PendingAction where
  decl : ActionDecl
  scope : ScopeId
  applied : Bool
  deriving Inhabited

/-- How far an analysis goes with a program that asks for ever more. Instances may be nested so much
deeper than there are scopes, and so many more bodies are lowered than are queued at first. -/
structure Limits where
  depth : Nat := 1000
  bodies : Nat := 100000
  deriving DecidableEq, Repr, Inhabited

structure Session where
  tree : ScopeTree
  builder : Ir.Builder
  report : Report := {}
  /-- The instances of generic declarations for their arguments. -/
  instances : List ((ScopeId × List Ty) × Ty) := []
  /-- Functions whose bodies are still to be lowered. -/
  bodies : List ScopeId := []
  decls : List DeclRecord := []
  actions : List PendingAction := []
  declaredSpecs : List ScopeId := []
  limits : Limits := {}
  exhausted : Bool := false
  deriving Inhabited

abbrev Analysis := EStateM Diagnostic Session

namespace Session

def new (moduleName : String) (limits : Limits := {}) : Session :=
  { tree := .new moduleName, builder := .new moduleName, limits }

end Session

namespace Analysis

def fail {α : Type} (p : Problem) (span : Span) : Analysis α :=
  throw (p.at span)

def attempt {α : Type} (step : Analysis α) : Analysis (Except Diagnostic α) := fun s =>
  match step s with
  | .ok a s => .ok (.ok a) s
  | .error d s => .ok (.error d) s

def fromExcept {α : Type} : Except Diagnostic α → Analysis α
  | .ok a => return a
  | .error d => throw d

def pushDiagnostic (d : Diagnostic) : Analysis Unit :=
  modify fun s => { s with report := s.report.push d }

def reporting {α : Type} (step : Analysis α) : Analysis (Option α) := do
  match ← attempt step with
  | .ok a => return some a
  | .error d =>
    pushDiagnostic d
    return none

def exhausted {α : Type} (span : Span) : Analysis α := do
  modify fun s => { s with exhausted := true }
  fail .endlessInstances span

def tree : Analysis ScopeTree := do
  return (← get).tree

def modifyTree (change : ScopeTree → ScopeTree) : Analysis Unit :=
  modify fun s => { s with tree := change s.tree }

def addChild (parent : ScopeId) (name : String) (kind : ScopeKind) (span : Span) :
    Analysis ScopeId := do
  let (id, t) ← fromExcept ((← tree).addChild parent name kind span)
  modifyTree fun _ => t
  return id

def add (name : String) (kind : ScopeKind) (span : Span) : Analysis ScopeId := do
  addChild (← tree).current name kind span

def generateName (stem : String) : Analysis String := do
  let (name, t) := (← tree).generateName stem
  modifyTree fun _ => t
  return name

def within {α : Type} (scope : ScopeId) (step : Analysis α) : Analysis α := do
  let previous := (← tree).current
  modifyTree (·.moveTo scope)
  let result ← attempt step
  modifyTree (·.moveTo previous)
  fromExcept result

def modifyTemplate (id : ScopeId) (change : TemplateEntry → TemplateEntry) : Analysis Unit :=
  modifyTree fun t => match t.kind id with
    | .template e => t.setKind id (.template (change e))
    | _ => t

def modifyAlias (id : ScopeId) (change : AliasEntry → AliasEntry) : Analysis Unit :=
  modifyTree fun t => match t.kind id with
    | .typeAlias e => t.setKind id (.typeAlias (change e))
    | _ => t

def build {α : Type} (step : Ir.Build α) : Analysis α := do
  let s ← get
  let (a, b) := step s.builder
  set { s with builder := b }
  return a

def newBlock (name : String) : Analysis Nat := do
  match ← build (Ir.Builder.appendBlock name) with
  | some id => return id
  | none => fail .noInsertionBlock {}

def terminate (t : Ir.Terminator) : Analysis Unit := do
  let s ← get
  match Ir.Builder.terminate t s.builder with
  | .ok b => set { s with builder := b }
  | .error p => fail p {}

def convertTo (v : TypedValue) (target : Ty) (implicit : Bool) (span : Span) :
    Analysis TypedValue := do
  let s ← get
  match convert v target implicit s.builder with
  | .ok (v, b) =>
    set { s with builder := b }
    return v
  | .error p => fail p span

end Analysis

end Stencil
