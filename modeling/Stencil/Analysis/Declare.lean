import Stencil.Analysis.Containment
import Stencil.Analysis.Resolve

namespace Stencil

open Analysis

def ScopeTree.receiverType? (t : ScopeTree) (parent : ScopeId) : Option Ty :=
  match t.kind parent with
  | .template e => some (.struct e.structName parent)
  | .spec _ => some (.spec (t.qualifiedName parent) parent)
  | _ => none

namespace Resolver

def paramTypes (r : Resolver) (scope : ScopeId) (params : List Param) : Analysis (List Ty) :=
  r.types scope (params.map (·.type))

/-- Declares a function in a scope and queues its body. The functions of a spec have a signature
only. -/
def declareFunction (r : Resolver) (parent : ScopeId) (decl : FuncDecl) (exported : Bool) :
    Analysis Unit := do
  let t ← tree
  if (t.findChild? parent decl.name).isSome then fail (.duplicate decl.name) decl.nameSpan
  let receiver := if decl.hasSelf then t.receiverType? parent else none
  if decl.hasSelf && receiver.isNone then fail (.selfOutsideTemplate decl.name) decl.nameSpan
  let params ← r.paramTypes parent decl.params
  let result ← r.resultType parent decl.result
  let signature : Signature := { params, result, member := decl.hasSelf }
  let t ← tree
  let codeName := t.qualify parent decl.name
  let code ←
    if (t.kind parent).spec?.isSome then pure none
    else
      let params := (receiver.map fun type => Ir.Ty.pointer type.ir).toList ++ params.map Ty.ir
      some <$> build (Ir.Builder.declareFunction codeName params result.ir exported)
  let node ← addChild parent decl.name (.function { decl, signature, code, codeName }) decl.span
  modifyTree (·.setExported node exported)
  if code.isSome && decl.body.isSome then
    modify fun s => { s with bodies := s.bodies ++ [node] }

def declareFunctions (r : Resolver) (parent : ScopeId) (exported : Bool) :
    List FuncDecl → Analysis Unit
  | [] => return ()
  | decl :: decls => do
    let _ ← reporting (r.declareFunction parent decl exported)
    r.declareFunctions parent exported decls

def declareFields (r : Resolver) (template : ScopeId) : List FieldDecl → Analysis (List Ir.Ty)
  | [] => return []
  | field :: fields => do
    let type ← r.type template field.type
    requireStorable type field.span
    let entry : VariableEntry := { type, storage := .field, constant := false }
    let _ ← addChild template field.name (.var entry) field.span
    return type.ir :: (← r.declareFields template fields)

def defineTemplate (r : Resolver) (template : ScopeId) (decl : TemplateDecl) (exported : Bool) :
    Analysis Unit := do
  let layout ← r.declareFields template decl.fields
  let t ← tree
  if let some way := t.selfContainment? template then
    fail (.recursiveTemplate decl.name (" -> ".intercalate (way.map t.name))) decl.span
  let structName := match t.kind template with
    | .template e => e.structName
    | _ => t.qualifiedName template
  build (Ir.Builder.defineStruct structName layout)
  r.declareFunctions template exported decl.methods

def declareSpec (r : Resolver) (spec : ScopeId) : Analysis Unit := do
  let s ← get
  if let .spec decl := s.tree.kind spec then
    unless spec ∈ s.declaredSpecs do
      set { s with declaredSpecs := spec :: s.declaredSpecs }
      r.declareFunctions spec false decl.methods

end Resolver

end Stencil
