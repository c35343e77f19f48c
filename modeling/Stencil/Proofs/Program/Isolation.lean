import Stencil.Proofs.Program.Code

/-!
A failure stays inside the body that it is in. Bodies are built in turns, one function after the
other, and what a turn leaves in the builder and in the state of lowering means nothing to the next.
-/

namespace Stencil

open Analysis ScopeTree DeclRecord Session Ir.Builder

namespace Session

/-- The session in which all declarations of a module have been gone through. -/
def beforeBodies (moduleName : String) (m : Module) (limits : Limits := {}) : Session :=
  match declareModule m (.new moduleName limits) with
  | .ok _ s => s
  | .error _ s => s

def Reached (moduleName : String) (m : Module) (limits : Limits) (s : Session) : Prop :=
  (beforeBodies moduleName m limits).Turns s

end Session

section

variable (moduleName : String) (m : Module) (limits : Limits)

theorem declareModule_run : ∃ limit, declareModule m (.new moduleName limits) =
    .ok limit (.beforeBodies moduleName m limits) := by
  have leads := declareModule_leads moduleName m limits
  unfold beforeBodies
  cases run : declareModule m (.new moduleName limits) with
  | ok limit => exact ⟨limit, rfl⟩
  | error =>
    rw [Leads, run] at leads
    exact leads.elim

theorem beforeBodies_standing : ∃ start,
    (beforeBodies moduleName m limits).Standing (Item.AllPlain m.items) start [] := by
  obtain ⟨_, run⟩ := declareModule_run moduleName m limits
  have leads := declareModule_leads moduleName m limits
  rw [Leads, run] at leads
  obtain ⟨start, standing, -⟩ := leads
  exact ⟨start, standing⟩

theorem analyze_reached : ∃ s, Session.Reached moduleName m limits s ∧
    s.Rests (analyze moduleName m limits) := by
  obtain ⟨limit, run⟩ := declareModule_run moduleName m limits
  have leads : Leads (analyzeModule m) (.new moduleName limits)
      (fun _ s' => ∃ s, Session.Reached moduleName m limits s ∧ s.Rests s') fun _ _ => False := by
    rw [analyzeModule, leads_bind, Leads, run]
    exact lowerBodies_turns limit _
  exact analyze_leads leads

end

namespace Session

variable {s : Session} {id : ScopeId}

theorem Ready.undisturbed {e : FunctionEntry} {code : Nat} {body : Block} {f : Ir.Function}
    {receiver : List Ir.Ty} (ready : s.Ready id e code body f receiver)
    (function block : Option Nat) (nextTemp : Nat) :
    lowerFunction id (s.withBuilder { s.builder with function, block, nextTemp }) =
      lowerFunction id s := by
  have begin_run : build (beginBody code) s = .ok (some 0) (s.begun code f) :=
    Spot.build_run (beginBody_eq ready.present)
  have begin_run' : build (beginBody code)
      (s.withBuilder { s.builder with function, block, nextTemp }) =
        .ok (some 0) (s.begun code f) :=
    Spot.build_run (beginBody_eq ready.present)
  have kind : (s.withBuilder { s.builder with function, block, nextTemp }).tree.kind id =
      .function e := ready.kind
  rw [lowerFunction_run kind ready.coded ready.body, bind_run begin_run',
    lowerFunction_run ready.kind ready.coded ready.body, bind_run begin_run]
  rfl

def taken (s : Session) (id : ScopeId) : Session := { s with bodies := s.bodies.erase id }

theorem Reached.isolated {moduleName : String} {m : Module} {limits : Limits}
    (reached : Reached moduleName m limits s) (queued : id ∈ s.bodies)
    (alive : s.tree.isAlive id) :
    ∃ e code, s.tree.kind id = .function e ∧ e.code = some code ∧
      Leads (lowerFunction id) (s.taken id) (fun _ s' => (s.taken id).Builds s' code)
        (fun _ s' => (s.taken id).Builds s' code ∧
          ∃ f, s'.builder.functions[code]? = some f ∧ f.blocks = []) ∧
      (∀ function block nextTemp, lowerFunction id
        ((s.taken id).withBuilder { s.builder with function, block, nextTemp }) =
          lowerFunction id (s.taken id)) ∧
      ∀ s', s.Turns s' → s.report.entries <+: s'.report.entries := by
  obtain ⟨_, standing⟩ := beforeBodies_standing moduleName m limits
  have bodied := reached.bodied standing.valid standing.idle
  obtain ⟨e, code, body, f, receiver, ready⟩ := bodied.valid.ready bodied.idle queued
    List.erase_sublist bodied.valid.queue.not_mem_erase alive
  have leads := ready.lowerFunction_leads (fun _ _ _ => True) fun u w frame y starts sound =>
    (starts.lowerBlock_keeps (Resolver.sound_within _) sound).mono fun _ _ _ _ => trivial
  refine ⟨e, code, ready.kind, ready.coded, ?_, ready.undisturbed, ?_⟩
  · exact leads.mono (fun _ _ h => h.1) fun _ _ h => h.2
  · exact fun s' turns => (turns.bodied bodied.valid bodied.idle).report

end Session

theorem Lowering.Lifts.ok {α : Type} {step : Lowering α} {plain : Analysis α} {l l' : Lowerer} {a : α}
    (lifts : Lifts step plain l) (run : step l = .ok a l') :
    plain l.session = .ok a l'.session ∧ l'.state = l.state := by
  rw [show step l = _ from lifts, lift] at run
  cases got : plain l.session with
  | ok =>
    rw [got] at run
    cases run
    exact ⟨rfl, rfl⟩
  | error =>
    rw [got] at run
    cases run

namespace Lowerer

def taken (l : Lowerer) (id : ScopeId) : Lowerer := { l with session := l.session.taken id }

/-- One turn: the next function in the queue, unless its scope is gone. -/
inductive Turn : Lowerer → Lowerer → Prop
  | skips {l : Lowerer} {id : ScopeId} {rest : List ScopeId} (queue : l.session.bodies = id :: rest)
      (gone : l.session.tree.isAlive id = false) : Turn l { l with session.bodies := rest }
  | lowers {l l' : Lowerer} {id : ScopeId} {rest : List ScopeId} {result : Option Unit}
      (queue : l.session.bodies = id :: rest) (alive : l.session.tree.isAlive id)
      (run : Lowering.reporting (Lowering.lowerFunction id) { l with session.bodies := rest } =
        .ok result l') : Turn l l'

abbrev Turns : Lowerer → Lowerer → Prop := Relation.ReflTransGen Turn

def beforeBodies (moduleName : String) (m : Module) (limits : Limits := {}) : Lowerer :=
  match Lowering.declareModule m ⟨.new moduleName limits, {}⟩ with
  | .ok _ l => l
  | .error _ l => l

/-- What the analysis of a module goes through while it builds bodies. -/
def Reached (moduleName : String) (m : Module) (limits : Limits) (l : Lowerer) : Prop :=
  (beforeBodies moduleName m limits).Turns l

variable {moduleName : String} {m : Module} {limits : Limits} {l l' : Lowerer} {id : ScopeId}

theorem Turns.plain (start : l.state = {}) (turns : l.Turns l') :
    l'.state = {} ∧ l.session.Turns l'.session := by
  induction turns with
  | refl => exact ⟨start, .refl⟩
  | tail _ turn ih =>
    obtain ⟨state, turns⟩ := ih
    cases turn with
    | skips queue gone => exact ⟨state, turns.tail (.skips queue gone)⟩
    | lowers queue alive run =>
      obtain ⟨run, same⟩ := (state ▸ (Lowering.lowerFunction_lifts _ _).reporting).ok run
      exact ⟨same.trans state, turns.tail (.lowers queue alive run)⟩

theorem beforeBodies_eq (moduleName : String) (m : Module) (limits : Limits) :
    beforeBodies moduleName m limits = ⟨Session.beforeBodies moduleName m limits, {}⟩ := by
  rw [beforeBodies, show Lowering.declareModule m ⟨.new moduleName limits, {}⟩ = _ from
    Lowering.declareModule_lifts m, Lowering.lift, Session.beforeBodies]
  cases declareModule m (.new moduleName limits) <;> rfl

theorem Reached.plain (reached : Reached moduleName m limits l) :
    l.state = {} ∧ l.session.Reached moduleName m limits := by
  unfold Reached at reached
  rw [beforeBodies_eq] at reached
  exact Turns.plain rfl reached

/-- Whatever becomes of the body of a queued function, nothing else is affected, and lowering is in
no expression, no list, no function and no loop. -/
theorem Reached.lowerFunction_isolated (reached : Reached moduleName m limits l)
    (queued : id ∈ l.session.bodies) (alive : l.session.tree.isAlive id = true) :
    ∃ e code, l.session.tree.kind id = .function e ∧ e.code = some code ∧
      (match Lowering.lowerFunction id (l.taken id) with
        | .ok _ l' => (l.session.taken id).Builds l'.session code ∧ l'.state.reference = false ∧
            l'.state.hint = none ∧ l'.state.aggregate = none ∧ l'.state.function = none ∧
              l'.state.loops = []
        | .error _ l' => (l.session.taken id).Builds l'.session code ∧ l'.state = {} ∧
            ∃ f, l'.session.builder.functions[code]? = some f ∧ f.blocks = []) ∧
      (∀ function block nextTemp, Lowering.lowerFunction id { l with
        session := (l.session.taken id).withBuilder
          { l.session.builder with function, block, nextTemp } } =
            Lowering.lowerFunction id (l.taken id)) ∧
      ∀ l', l.Turns l' → l.session.report.entries <+: l'.session.report.entries := by
  obtain ⟨state, reached⟩ := reached.plain
  obtain ⟨s, _⟩ := l
  obtain rfl : _ = _ := state
  obtain ⟨e, code, kind, coded, leads, undisturbed, report⟩ := reached.isolated queued alive
  have lifts := Lowering.lowerFunction_lifts id
  refine ⟨e, code, kind, coded, ?_, fun function block nextTemp => ?_, fun l' turns => ?_⟩
  · unfold Leads at leads
    rw [show Lowering.lowerFunction id (taken ⟨s, {}⟩ id) = _ from lifts (s.taken id), Lowering.lift]
    dsimp only
    cases run : lowerFunction id (s.taken id) with
    | ok =>
      rw [run] at leads
      exact ⟨leads, rfl, rfl, rfl, rfl, rfl⟩
    | error =>
      rw [run] at leads
      exact ⟨leads.1, rfl, leads.2⟩
  · rw [show Lowering.lowerFunction id _ = _ from lifts _, Lowering.lift,
      show Lowering.lowerFunction id (taken ⟨s, {}⟩ id) = _ from lifts (s.taken id), Lowering.lift]
    dsimp only
    rw [undisturbed]
  · exact report _ (Turns.plain rfl turns).2

def brokenLoop : Module :=
  Module.ofText ("func first() => int { return 1 } " ++
    "func broken() { let a = [1, 2] while true { a[0] = first() a[1] = &missing } } " ++
    "func last() => int { return first() }")

theorem Reached.lowerFunction_isolated_brokenLoop :
    ∃ d l', Lowering.lowerFunction 2 ((beforeBodies "m" brokenLoop).taken 2) = .error d l' ∧
      l'.state = {} ∧ l'.session.builder.function = none ∧ l'.session.builder.block = none ∧
        l'.session.tree.current = ScopeTree.root ∧
          ∃ f, l'.session.builder.functions[1]? = some f ∧ f.blocks = [] := by
  obtain ⟨queued, alive, snd, root, fails⟩ :
      2 ∈ (beforeBodies "m" brokenLoop).session.bodies ∧
      (beforeBodies "m" brokenLoop).session.tree.isAlive 2 ∧
      ((beforeBodies "m" brokenLoop).session.tree.kind 2).function?.bind (·.code) = some 1 ∧
      (beforeBodies "m" brokenLoop).session.tree.current = ScopeTree.root ∧
      ((Lowering.lowerFunction 2).run' ((beforeBodies "m" brokenLoop).taken 2)).isNone := by
    decide +kernel
  obtain ⟨e, code, kind, coded, leads, -⟩ := Reached.lowerFunction_isolated .refl queued alive
  rw [kind, show (ScopeKind.function e).function? = some e from rfl, Option.bind_some, coded] at snd
  obtain rfl := Option.some.inj snd
  unfold EStateM.run' EStateM.run at fails
  cases run : Lowering.lowerFunction 2 ((beforeBodies "m" brokenLoop).taken 2) with
  | ok =>
    rw [run] at fails
    cases fails
  | error d l' =>
    rw [run] at leads
    obtain ⟨builds, state, bare⟩ := leads
    exact ⟨d, l', rfl, state, builds.idle, builds.block, builds.current.trans root, bare⟩

end Lowerer

end Stencil
