import Stencil.Analysis.Declare

namespace Stencil

open Analysis

def ScopeTree.signature? (t : ScopeTree) (parent : ScopeId) (name : String) : Option Signature := do
  let id ← t.findChild? parent name
  let e ← (t.kind id).function?
  return e.signature

/-- What a spec type means for a template: the template itself for the spec, the template's choice
for an associated type of the spec. -/
def ScopeTree.chosen? (t : ScopeTree) (spec template scope : ScopeId) : Option Ty :=
  if scope = spec then
    (t.kind template).template?.map fun e => .struct e.structName template
  else if t.parent? scope = some spec then do
    let id ← t.findChild? template (t.name scope)
    let e ← (t.kind id).alias?
    e.target
  else none

namespace Ty

mutual

def substitute (choose : ScopeId → Option Ty) : Ty → Ty
  | .spec name scope => (choose scope).getD (.spec name scope)
  | .pointer target => .pointer (substitute choose target)
  | .array element length => .array (substitute choose element) length
  | .function params result member =>
    .function (substituteAll choose params) (substitute choose result) member
  | .void => .void
  | .int bits signed => .int bits signed
  | .float bits => .float bits
  | .struct name scope => .struct name scope

def substituteAll (choose : ScopeId → Option Ty) : List Ty → List Ty
  | [] => []
  | type :: types => substitute choose type :: substituteAll choose types

end

end Ty

def Signature.substitute (choose : ScopeId → Option Ty) (s : Signature) : Signature :=
  { s with params := Ty.substituteAll choose s.params, result := s.result.substitute choose }

def differingParam? (function spec : String) :
    List Ty → List Ty → List Param → Option Problem
  | want :: wants, given :: givens, param :: params =>
    if want = given then differingParam? function spec wants givens params
    else some (.parameterDiffers param.name function given.text spec want.text)
  | _, _, _ => none

def Signature.mismatch? (provided : FuncDecl) (spec : String) (required found : Signature) :
    Option Problem :=
  if required.member != found.member then
    some (.receiverDiffers provided.name required.member spec)
  else if required.params.length != found.params.length then
    some (.parameterCountDiffers provided.name found.params.length spec required.params.length)
  else
    match differingParam? provided.name spec required.params found.params provided.params with
    | some problem => some problem
    | none =>
      if required.result = found.result then none
      else some (.resultDiffers provided.name found.result.text spec required.result.text)

def ActionDecl.missingTypes (action : ActionDecl) (spec : SpecDecl) (specName : String) :
    List Diagnostic :=
  (spec.aliases.filter fun required => !action.aliases.any (·.name = required.name)).map
    fun required => (((Problem.typeNotImplemented required.name specName).at action.span).withNote
      "required here" required.span).recoverable

def ScopeTree.functionFailure? (t : ScopeTree) (template spec : ScopeId) (action : ActionDecl)
    (required : FuncDecl) : Option Diagnostic :=
  let specName := t.qualifiedName spec
  let failure (problem : Problem) (span : Span) : Diagnostic :=
    ((problem.at span).withNote "required here" required.nameSpan).recoverable
  match action.methods.find? (·.name = required.name) with
  | none => some (failure (.functionNotImplemented required.name specName) action.span)
  | some provided => do
    let wanted ← t.signature? spec required.name
    let found ← t.signature? template provided.name
    let problem ← Signature.mismatch? provided specName
      (wanted.substitute (t.chosen? spec template)) found
    return failure problem provided.nameSpan

def ScopeTree.conformanceFailures (t : ScopeTree) (template spec : ScopeId) (action : ActionDecl)
    (decl : SpecDecl) : List Diagnostic :=
  action.missingTypes decl (t.qualifiedName spec) ++
    decl.methods.filterMap (t.functionFailure? template spec action)

def TypeSyntax.lastName? : TypeSyntax → Option String
  | .named path _ _ => path.getLast?
  | _ => none

def ScopeTree.instancesOf (t : ScopeTree) (generic : ScopeId) : List ScopeId :=
  match t.parent? generic with
  | none => []
  | some parent => (t.children parent).filter fun id =>
    (t.kind id).template?.any (·.instanceOf = some generic)

def ScopeTree.isGenericTemplate (t : ScopeTree) (id : ScopeId) : Bool :=
  (t.kind id).template?.any (·.isGeneric)

def ScopeTree.isBound (t : ScopeTree) (template spec : ScopeId) : Bool :=
  (t.kind template).template?.any (·.implemented.contains spec)

/-- Whether an action, by the names that it uses, may make a template implement a spec. -/
def PendingAction.mayBind (p : PendingAction) (template spec : String) : Bool :=
  !p.applied && p.decl.target.lastName? = some template &&
    p.decl.spec.any fun s => s.lastName? = some spec

/-- The numbers of the actions that are still to be applied and may bind a template to a spec. -/
def Session.candidates (s : Session) (template spec : String) : List Nat :=
  (List.range s.actions.length).filter fun index =>
    s.actions[index]?.any (·.mayBind template spec)

def Session.markApplied (s : Session) (index : Nat) : Session :=
  { s with actions := s.actions.modify index fun p => { p with applied := true } }

namespace Resolver

def specOrType (r : Resolver) (scope : ScopeId) (type : TypeSyntax) :
    Analysis (ScopeId ⊕ Ty) := do
  let resolved ← r.type scope type
  match resolved with
  | .spec _ id => return if ((← tree).kind id).spec?.isSome then .inl id else .inr resolved
  | _ => return .inr resolved

def actionTarget (r : Resolver) (action : ActionDecl) (scope : ScopeId) : Analysis ScopeId := do
  let direct ← match action.target with
    | .named path [] span => do
      let id ← r.lookupPath path scope span
      pure (if (← tree).isGenericTemplate id then some id else none)
    | _ => pure none
  match direct with
  | some id => return id
  | none =>
    let type ← r.type scope action.target
    match type.structScope? with
    | some id => return id
    | none => fail (.noActions type.text) action.target.span

def defineAssociatedType (r : Resolver) (template : ScopeId) (decl : AliasDecl) :
    Analysis Unit := do
  match decl.target with
  | none => fail (.associatedTypeUndefined decl.name) decl.span
  | some target =>
    let type ← r.type template target
    let entry : AliasEntry :=
      { decl := some decl, target := some type, resolving := false, instanceOf := none }
    let _ ← addChild template decl.name (.typeAlias entry) decl.span

def defineAssociatedTypes (r : Resolver) (template : ScopeId) : List AliasDecl → Analysis Unit
  | [] => return ()
  | decl :: decls => do
    let _ ← reporting (r.defineAssociatedType template decl)
    r.defineAssociatedTypes template decls

/-- Checks an action against a spec. Each failure is reported on its own, and one more problem says
that there were any. -/
def checkAction (r : Resolver) (template spec : ScopeId) (action : ActionDecl) :
    Analysis Unit := do
  if let .spec decl := (← tree).kind spec then
    r.declareSpec spec
    let t ← tree
    let failures := t.conformanceFailures template spec action decl
    if failures.isEmpty then
      modifyTemplate template fun e => { e with implemented := e.implemented ++ [spec] }
    else
      modify fun s => { s with report := s.report.extend failures }
      fail (.specNotSatisfied (t.qualifiedName template) (t.qualifiedName spec) failures.length)
        action.span

/-- Adds the members of an action to a template and checks them against the action's spec. -/
def applyAction (r : Resolver) (template : ScopeId) (action : ActionDecl) (scope : ScopeId) :
    Analysis Unit := do
  let spec ← match action.spec with
    | none => pure none
    | some written => do
      match ← r.specOrType scope written with
      | .inl spec => pure (some spec)
      | .inr type => fail (.notSpec type.text) written.span
  r.defineAssociatedTypes template action.aliases
  r.declareFunctions template ((← tree).node template).exported action.methods
  match spec with
  | some spec => r.checkAction template spec action
  | none => return ()

def applyToEach (r : Resolver) (action : ActionDecl) (scope : ScopeId) :
    List ScopeId → Analysis Unit
  | [] => return ()
  | template :: templates => do
    let _ ← reporting (r.applyAction template action scope)
    r.applyToEach action scope templates

/-- Applies an action to its template; for a generic template, to its instances and later to each
new one. -/
def registerAction (r : Resolver) (action : ActionDecl) (scope : ScopeId) : Analysis Unit := do
  let target ← r.actionTarget action scope
  if (← tree).isGenericTemplate target then
    modifyTemplate target fun e => { e with actions := e.actions ++ [(action, scope)] }
    r.applyToEach action scope ((← tree).instancesOf target)
  else
    r.applyAction target action scope

def bindCandidates (r : Resolver) (template : ScopeId) (generic : Option ScopeId) :
    List Nat → Analysis Unit
  | [] => return ()
  | index :: rest => do
    if let some pending := (← get).actions[index]? then
      match ← attempt (r.actionTarget pending.decl pending.scope) with
      | .error _ => pure ()
      | .ok target =>
        if target = template || generic = some target then
          modify (·.markApplied index)
          let _ ← reporting (r.registerAction pending.decl pending.scope)
    r.bindCandidates template generic rest

def bindPending (r : Resolver) (template spec : ScopeId) : Analysis Unit := do
  let s ← get
  if let .template e := s.tree.kind template then
    r.bindCandidates template e.instanceOf (s.candidates e.decl.name (s.tree.name spec))

/-- Whether a type implements a spec. Numbers and truth values implement every spec, templates
those that an action binds them to. -/
def implements (r : Resolver) (type : Ty) (spec : ScopeId) : Analysis Bool :=
  match type with
  | .int .. | .float _ => return true
  | .struct _ template => do
    if (← tree).isBound template spec then return true
    r.bindPending template spec
    return (← tree).isBound template spec
  | _ => return false

end Resolver

end Stencil
