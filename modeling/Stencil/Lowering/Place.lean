import Stencil.Analysis.Instance

namespace Stencil

open Analysis

structure Place where
  addr : Ir.Value
  type : Ty
  /-- The constant that the place belongs to. It cannot be assigned to. -/
  constant : Option String := none
  deriving DecidableEq, Repr, Inhabited

inductive Meaning where
  | value (v : TypedValue)
  | place (p : Place)
  /-- A function, with the address of the instance that it was reached through. -/
  | function (id : ScopeId) (receiver : Option Ir.Value)
  | scope (id : ScopeId)
  deriving DecidableEq, Repr, Inhabited

def temporary (type : Ty) : Analysis Ir.Value :=
  build (Ir.Builder.entryAlloca type.ir)

def storeAt (type : Ty) (addr value : Ir.Value) : Analysis Unit :=
  build (Ir.Builder.store type.ir addr value)

def loadFrom (type : Ty) (addr : Ir.Value) : Analysis TypedValue := do
  return ⟨← build (Ir.Builder.load type.ir addr), type⟩

namespace Place

def follow (p : Place) : Analysis Place := do
  match p.type with
  | .pointer target => return { addr := (← loadFrom p.type p.addr).value, type := target }
  | _ => return p

end Place

namespace Meaning

def asValue (m : Meaning) (span : Span) : Analysis TypedValue := do
  match m with
  | .value v => return v
  | .place p => loadFrom p.type p.addr
  | .function id receiver =>
    let t ← tree
    match t.kind id with
    | .function e =>
      if receiver.isSome || e.signature.member || e.code.isNone then
        fail (.memberFunctionValue e.decl.name) span
      else return ⟨.function e.codeName, e.signature.type⟩
    | _ => fail (.notFunction (t.name id)) span
  | .scope id => fail (.namespaceValue ((← tree).name id)) span

/-- The place of an expression. Pointers are followed, and other values are put on the stack. -/
def asPlace (m : Meaning) (span : Span) : Analysis Place := do
  match m with
  | .place p => return p
  | .value v =>
    match v.type with
    | .pointer target => return { addr := v.value, type := target }
    | type =>
      let slot ← temporary type
      storeAt type slot v.value
      return { addr := slot, type }
  | .function id _ | .scope id => fail (.notValue ((← tree).name id)) span

end Meaning

/-- What a declared name means. With `reference`, a constant is a place as well. -/
def nodeMeaning (reference : Bool) (id : ScopeId) (name : String) (span : Span) :
    Analysis Meaning := do
  match (← tree).kind id with
  | .var e =>
    match e.storage with
    | .field => fail (.fieldWithoutInstance name) span
    | .slot addr =>
      return .place { addr, type := e.type, constant := if e.constant then some name else none }
    | .known global value =>
      if reference then
        return .place { addr := .global global, type := e.type, constant := some name }
      else return .value ⟨value, e.type⟩
  | .function _ => return .function id none
  | .module | .package | .template _ | .spec _ | .typeAlias _ => return .scope id
  | .block => fail (.unknownName name) span

def nameMeaning (reference : Bool) (name : String) (span : Span) : Analysis Meaning := do
  match (← tree).find? name with
  | some id => nodeMeaning reference id name span
  | none => fail (.unknownName name) span

def instanceMember (reference : Bool) (p : Place) (member : String) (span : Span) :
    Analysis Meaning := do
  let p ← p.follow
  match p.type with
  | .struct struct scope =>
    let t ← tree
    match t.findChild? scope member with
    | none => fail (.unknownName member) span
    | some child =>
      match t.kind child with
      | .function _ => return .function child (some p.addr)
      | .var e =>
        if e.storage = .field then
          match t.indexOf? scope member with
          | none => fail (.unknownName member) span
          | some index =>
            let addr ← build (Ir.Builder.fieldAddr struct p.addr index)
            return .place { addr, type := e.type, constant := p.constant }
        else nodeMeaning reference child member span
      | _ => nodeMeaning reference child member span
  | type => fail (.notInstance type.text member) span

def memberMeaning (r : Resolver) (reference : Bool) (base : Meaning) (member : String)
    (span : Span) : Analysis Meaning := do
  match base with
  | .scope id =>
    let scope ← r.namespaceScope id span
    match (← tree).findChild? scope member with
    | some child => nodeMeaning reference child member span
    | none => fail (.unknownName member) span
  | .function id _ => fail (.functionMember ((← tree).name id) member) span
  | base => instanceMember reference (← base.asPlace span) member span

end Stencil
