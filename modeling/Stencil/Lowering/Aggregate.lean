import Stencil.Lowering.Place

namespace Stencil

open Analysis

structure Slot where
  index : Nat
  type : Ty
  deriving DecidableEq, Repr, Inhabited

def arraySlots (type : Ty) (count : Nat) (span : Span) : Except Diagnostic (List Slot) :=
  match type with
  | .array element length =>
    if count = length then .ok ((List.range count).map (⟨·, element⟩))
    else .error ((Problem.argumentCount type.text length count).at span)
  | _ => .error ((Problem.notArray type.text).at span)

def ScopeTree.layout (t : ScopeTree) (template : ScopeId) : List (String × Ty) :=
  (t.fields template).filterMap fun (id, e) =>
    if e.storage = .field then some (t.name id, e.type) else none

/-- The field that an entry at a position is for: the one it names, or else that of the position. -/
def fieldFor? (layout : List (String × Ty)) (position : Nat) :
    Option String → Option (Nat × String × Ty)
  | some name => do
    let index ← layout.findIdx? (·.1 = name)
    return (index, ← layout[index]?)
  | none => layout[position]?.map (position, ·)

/-- The fields that entries are for, in the order of the entries, until one of them names no field
or a field that an entry before it has filled. -/
def fieldSlots (layout : List (String × Ty)) : Nat → List Nat → List (Option String × Span) →
    List (Except Diagnostic Slot)
  | _, _, [] => []
  | position, filled, (name, span) :: rest =>
    match fieldFor? layout position name with
    | none => [.error ((Problem.unknownName (name.getD "")).at span)]
    | some (index, field, type) =>
      if index ∈ filled then [.error ((Problem.duplicate field).at span)]
      else .ok ⟨index, type⟩ :: fieldSlots layout (position + 1) (index :: filled) rest

def ScopeTree.initializerSlots (t : ScopeTree) (type : Ty) (entries : List (Option String × Span))
    (span : Span) : Except Diagnostic (List (Except Diagnostic Slot)) :=
  match type with
  | .struct _ template =>
    let layout := t.layout template
    if layout.length < entries.length then
      .error ((Problem.argumentCount (t.qualifiedName template) layout.length entries.length).at span)
    else .ok (fieldSlots layout 0 [] entries)
  | .array .. =>
    match entries.find? (·.1.isSome) with
    | some (_, span) => .error (Problem.namedArrayEntries.at span)
    | none => (arraySlots type entries.length span).map (·.map .ok)
  | _ => .error ((Problem.notBuiltFromList type.text).at span)

def Place.entryAddr (base : Place) (index : Nat) : Analysis Ir.Value :=
  match base.type with
  | .struct name _ => build (Ir.Builder.fieldAddr name base.addr index)
  | .array element _ => build (Ir.Builder.elemAddr element.ir base.addr (.int index))
  | _ => return .undef

end Stencil
