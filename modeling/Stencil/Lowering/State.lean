import Stencil.Lowering.Aggregate

/-!
The state that lowering keeps beside the session: what the context of an expression asks for, where
the entries of a list go, the function under construction and the loops around it. What changes the
state for a part of a program puts it back afterwards, also where the part fails.
-/

namespace Stencil

/-- How the current function returns. With several `return` statements they share one exit block,
and the result is handed over in a slot. -/
structure Frame where
  result : Ty
  slot : Option Ir.Value := none
  exit : Option Nat := none
  deriving DecidableEq, Repr, Inhabited

structure LoopTargets where
  header : Nat
  exit : Nat
  deriving DecidableEq, Repr, Inhabited

/-- The function under construction, with the `return` statements that have been lowered and those
that there are in its body. -/
structure CurrentFunction extends Frame where
  returned : Nat := 0
  expected : Nat
  deriving DecidableEq, Repr, Inhabited

structure LowerState where
  /-- Whether places are wanted rather than values. -/
  reference : Bool := false
  hint : Option Ty := none
  aggregate : Option Place := none
  function : Option CurrentFunction := none
  /-- The loops around the current statement, the innermost first. -/
  loops : List LoopTargets := []
  deriving DecidableEq, Repr, Inhabited

def LowerState.enter (st : LowerState) (frame : Frame) (returns : Nat) : LowerState :=
  { st with function := some { frame with expected := returns } }

def LowerState.counting (st : LowerState) (returns : Nat) : LowerState :=
  { st with function := st.function.map fun f => { f with returned := f.returned + returns } }

structure Lowerer where
  session : Session
  state : LowerState := {}
  deriving Inhabited

abbrev Lowering := EStateM Diagnostic Lowerer

namespace Lowering

variable {α : Type}

/-- A step that does not look at the state. -/
def lift (step : Analysis α) : Lowering α := fun l =>
  match step l.session with
  | .ok a s => .ok a { l with session := s }
  | .error d s => .error d { l with session := s }

instance : MonadLift Analysis Lowering := ⟨lift⟩

def state : Lowering LowerState := do
  return (← get).state

def modifyState (change : LowerState → LowerState) : Lowering Unit :=
  modify fun l => { l with state := change l.state }

/-- Makes a step in another state, and then puts back what was changed for it. -/
def during (enter : LowerState → LowerState) (leave : LowerState → LowerState → LowerState)
    (step : Lowering α) : Lowering α := fun l =>
  match step { l with state := enter l.state } with
  | .ok a l' => .ok a { l' with state := leave l.state l'.state }
  | .error d l' => .error d { l' with state := leave l.state l'.state }

def hinted (hint : Option Ty) : Lowering α → Lowering α :=
  during ({ · with reference := false, hint }) fun before after =>
    { after with reference := before.reference, hint := before.hint }

def referring : Lowering α → Lowering α :=
  during ({ · with reference := true }) fun before after =>
    { after with reference := before.reference }

def withAggregate (base : Place) : Lowering α → Lowering α :=
  during ({ · with aggregate := some base }) fun before after =>
    { after with aggregate := before.aggregate }

def inLoop (targets : LoopTargets) : Lowering α → Lowering α :=
  during (fun st => { st with loops := targets :: st.loops }) fun _ after =>
    { after with loops := after.loops.tail }

def entryAddr (index : Nat) : Lowering Ir.Value := do
  match (← state).aggregate with
  | some base => base.entryAddr index
  | none => return .undef

def attempt (step : Lowering α) : Lowering (Except Diagnostic α) := fun l =>
  match step l with
  | .ok a l => .ok (.ok a) l
  | .error d l => .ok (.error d) l

def reporting (step : Lowering α) : Lowering (Option α) := do
  match ← attempt step with
  | .ok a => return some a
  | .error d =>
    Analysis.pushDiagnostic d
    return none

def within (scope : ScopeId) (step : Lowering α) : Lowering α := do
  let previous := (← Analysis.tree).current
  Analysis.modifyTree (·.moveTo scope)
  let result ← attempt step
  Analysis.modifyTree (·.moveTo previous)
  Analysis.fromExcept result

end Lowering

end Stencil
