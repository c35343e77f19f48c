import Stencil.Analysis.Conformance

/-!
Instances of generic declarations. An instance is a scope beside the generic one, in which the
generic parameters are aliases of the arguments; it is declared like any other declaration.
-/

namespace Stencil

open Analysis

inductive Generic where
  | template (d : TemplateDecl)
  | typeAlias (d : AliasDecl)

namespace Generic

def name : Generic → String
  | template d => d.name
  | typeAlias d => d.name

def params : Generic → List GenericParam
  | template d => d.generics
  | typeAlias d => d.generics

def instanceKind (g : Generic) (id : ScopeId) (structName : String) : ScopeKind :=
  match g with
  | template decl => .template
    { decl, structName, instanceOf := some id, implemented := [], actions := [] }
  | typeAlias decl => .typeAlias
    { decl := some decl, target := none, resolving := false, instanceOf := some id }

end Generic

def ScopeTree.generic? (t : ScopeTree) (id : ScopeId) : Option Generic :=
  match t.kind id with
  | .template e => if e.isGeneric then some (.template e.decl) else none
  | .typeAlias e => if e.isGeneric then e.decl.map .typeAlias else none
  | _ => none

/-- The first of the names `name#n`, `name#(n+1)`, … that a scope does not have, of so many. -/
def ScopeTree.numberedName (t : ScopeTree) (parent : ScopeId) (name : String) :
    Nat → Nat → String
  | 0, n => name ++ "#" ++ toString n
  | more + 1, n =>
    let numbered := name ++ "#" ++ toString n
    if (t.findChild? parent numbered).isSome then t.numberedName parent name more (n + 1)
    else numbered

def ScopeTree.instanceName (t : ScopeTree) (parent : ScopeId) (generic : String)
    (args : List Ty) : String :=
  let name := generic ++ "<" ++ ", ".intercalate (args.map Ty.text) ++ ">"
  if (t.findChild? parent name).isSome then
    t.numberedName parent name (t.node parent).names.length 2
  else name

def Session.forget (s : Session) (generic : ScopeId) (args : List Ty) : Session :=
  { s with instances := s.instances.filter (·.1 != (generic, args)) }

def Session.remember (s : Session) (generic : ScopeId) (args : List Ty) (type : Ty) : Session :=
  { s with instances := ((generic, args), type) :: (s.forget generic args).instances }

/-- The constraints that arguments did not meet, and the place of the first unimplemented one. -/
structure ConstraintFailures where
  failures : List Diagnostic := []
  first : Option Span := none
  deriving Inhabited

namespace Resolver

def checkConstraint (r : Resolver) (scope : ScopeId) (span : Span) (param : String) (arg : Ty)
    (constraint : TypeSyntax) (found : ConstraintFailures) : Analysis ConstraintFailures := do
  let fails (d : Diagnostic) : ConstraintFailures :=
    { found with failures := found.failures ++ [d.recoverable] }
  match ← attempt (r.specOrType scope constraint) with
  | .error d => return fails d
  | .ok (.inr type) => return fails ((Problem.notSpec type.text).at constraint.span)
  | .ok (.inl spec) =>
    if ← r.implements arg spec then return found
    let problem := Problem.constraintNotMet arg.text ((← tree).qualifiedName spec) param
    return { fails ((problem.at span).withNote "constraint declared here" constraint.span) with
      first := found.first <|> some constraint.span }

def checkParam (r : Resolver) (scope : ScopeId) (span : Span) (param : String) (arg : Ty) :
    List TypeSyntax → ConstraintFailures → Analysis ConstraintFailures
  | [], found => return found
  | constraint :: constraints, found => do
    let found ← r.checkConstraint scope span param arg constraint found
    r.checkParam scope span param arg constraints found

def checkParams (r : Resolver) (scope : ScopeId) (span : Span) :
    List GenericParam → List Ty → ConstraintFailures → Analysis ConstraintFailures
  | param :: params, arg :: args, found => do
    let found ← r.checkParam scope span param.name arg param.constraints found
    r.checkParams scope span params args found
  | _, _, found => return found

/-- Checks the arguments of a generic declaration. Each failure is reported on its own, and one more
problem says that there were any. -/
def checkConstraints (r : Resolver) (generic : Generic) (args : List Ty) (scope : ScopeId)
    (span : Span) : Analysis Unit := do
  let found ← r.checkParams scope span generic.params args {}
  unless found.failures.isEmpty do
    modify fun s => { s with report := s.report.extend found.failures }
    let d := (Problem.cannotInstantiate generic.name found.failures.length).at span
    throw (match found.first with
      | some constraint => d.withNote "constraint declared here" constraint
      | none => d)

def bindParams (node : ScopeId) : List GenericParam → List Ty → Analysis Unit
  | param :: params, arg :: args => do
    let entry : AliasEntry :=
      { decl := none, target := some arg, resolving := false, instanceOf := none }
    let _ ← addChild node param.name (.typeAlias entry) param.span
    bindParams node params args
  | _, _ => return ()

def replayActions (r : Resolver) (node : ScopeId) :
    List (ActionDecl × ScopeId) → Analysis Unit
  | [] => return ()
  | (action, scope) :: actions => do
    r.applyAction node action scope
    r.replayActions node actions

/-- Declares what is in an instance. The instance of a template is known from the start, so that its
fields can refer to it. -/
def declareInstance (r : Resolver) (generic : ScopeId) (decl : Generic) (args : List Ty)
    (node : ScopeId) (structName : String) (span : Span) : Analysis Ty := do
  bindParams node decl.params args
  match decl with
  | .template d =>
    let type := Ty.struct structName node
    modify (·.remember generic args type)
    build (Ir.Builder.declareStruct structName)
    r.defineTemplate node d ((← tree).node node).exported
    r.replayActions node ((((← tree).kind generic).template?.map (·.actions)).getD [])
    return type
  | .typeAlias _ => r.aliasTarget node span

/-- Makes the instance of a generic declaration for some arguments. An instance that fails leaves
no scope behind. -/
def makeInstance (r : Resolver) (generic : ScopeId) (args : List Ty) (span : Span) :
    Analysis Ty := do
  let t ← tree
  match t.generic? generic with
  | none => fail (.notGeneric (t.name generic)) span
  | some decl =>
    if decl.params.length != args.length then
      fail (.argumentCount decl.name decl.params.length args.length) span
    let parent := (t.parent? generic).getD ScopeTree.root
    r.checkConstraints decl args parent span
    let t ← tree
    let name := t.instanceName parent decl.name args
    let structName := t.qualify parent name
    let node ← addChild parent name (decl.instanceKind generic structName) span
    modifyTree (·.setExported node (t.node generic).exported)
    match ← attempt (r.declareInstance generic decl args node structName span) with
    | .ok type =>
      modify (·.remember generic args type)
      return type
    | .error d =>
      modify (·.forget generic args)
      modifyTree (·.remove node)
      throw d

mutual

def aliasWithin : Nat → ScopeId → Span → Analysis Ty
  | 0, _, span => exhausted span
  | depth + 1, id, span =>
    Resolver.resolveAlias ⟨aliasWithin depth, instanceWithin depth⟩ id span

def instanceWithin : Nat → ScopeId → List Ty → Span → Analysis Ty
  | 0, _, _, span => exhausted span
  | depth + 1, generic, args, span =>
    Resolver.makeInstance ⟨aliasWithin depth, instanceWithin depth⟩ generic args span

end

def within (depth : Nat) : Resolver :=
  ⟨aliasWithin depth, instanceWithin depth⟩

end Resolver

/-- Resolution in the present state. No chain of aliases is longer than the number of scopes. -/
def Session.resolver (s : Session) : Resolver :=
  Resolver.within (s.tree.size + 1 + s.limits.depth)

def Analysis.resolver : Analysis Resolver := do
  return (← get).resolver

end Stencil
