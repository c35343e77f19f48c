import Stencil.Program
import Stencil.Proofs.Lowering.Walk

/-!
An analysis goes through the same sessions whether it keeps the state of lowering or not, and the
state is what it was at the beginning whenever a declaration has been dealt with.
-/

namespace Stencil

open Analysis

namespace Lowering

variable {α : Type} {l : Lowerer}

theorem Lifts.reporting {step : Lowering α} {plain : Analysis α} (inner : Lifts step plain l) :
    Lifts (Lowering.reporting step) (Analysis.reporting plain) l := by
  refine .bind ?_ fun result _ => by cases result <;> rfl
  change attempt step _ = lift (Analysis.attempt plain) _
  rw [attempt, show step _ = _ from inner]
  unfold lift Analysis.attempt
  cases plain _ <;> rfl

theorem constantValue_lifts (r : Resolver) (d : ConstDecl) (parent : ScopeId) :
    Lifts (constantValue r d parent) (Stencil.constantValue r d parent) l := by
  unfold constantValue Stencil.constantValue
  cases d.type with
  | none => exact .within fun _ => lower_lifts r
  | some => exact .seq fun _ _ => .bind (.within fun _ => lower_lifts r) fun _ _ => rfl

theorem resolve_lifts (d : DeclRecord) : Lifts (resolve d) d.resolve l := by
  obtain ⟨decl, exported, span, parent, node⟩ := d
  cases decl with
  | const decl =>
    refine .seq fun r s => .seq fun t s => ?_
    cases (t.findChild? parent decl.name).isSome with
    | true => rfl
    | false => exact .bind (constantValue_lifts r decl parent) fun _ _ => rfl
  | _ => rfl

theorem resolveEach_lifts : ∀ ds l, Lifts (resolveEach ds) (forEachDecl DeclRecord.resolve ds) l
  | [], _ => rfl
  | d :: ds, _ => .bind (.reporting (resolve_lifts d)) fun _ _ => resolveEach_lifts ds _

theorem lowerBodies_lifts : ∀ limit s, Lifts (lowerBodies limit) (Stencil.lowerBodies limit) ⟨s, {}⟩
  | 0, _ => rfl
  | limit + 1, s => by
    refine .get_bind ?_
    dsimp only
    cases s.bodies with
    | nil => rfl
    | cons function rest =>
    refine @Lifts.bind _ _ _ _ (set { s with bodies := rest }) _ _ rfl fun _ u => ?_
    split
    · exact .bind (.reporting (lowerFunction_lifts function u)) fun _ v => lowerBodies_lifts limit v
    · exact lowerBodies_lifts limit u

theorem declareModule_lifts (m : Module) : Lifts (declareModule m) (Stencil.declareModule m) l := by
  refine .seq fun _ _ => .get_bind (.bind (resolveEach_lifts _ _) fun _ _ => ?_)
  exact .get_bind (.seq fun _ _ => .get_bind (.seq fun _ _ => .get_bind (.seq fun _ _ => rfl)))

theorem analyzeModule_lifts (m : Module) (s : Session) :
    Lifts (analyzeModule m) (Stencil.analyzeModule m) ⟨s, {}⟩ :=
  .bind (declareModule_lifts m) fun limit s => lowerBodies_lifts limit s

end Lowering

/-- What an analysis finds does not depend on the state of lowering. -/
theorem Session.run_eq (s : Session) (m : Module) : s.run m =
    match analyzeModule m s with
    | .ok _ s => s
    | .error d s => { s with report := s.report.push d } := by
  rw [Session.run, show Lowering.analyzeModule m ⟨s, {}⟩ = _ from Lowering.analyzeModule_lifts m s,
    Lowering.lift]
  cases analyzeModule m s <;> rfl

end Stencil
