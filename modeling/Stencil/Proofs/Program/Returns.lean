import Stencil.Proofs.Lowering.Exits
import Stencil.Proofs.Program.Isolation

namespace Stencil

open Analysis Ir.Builder

def statementsOf (id : ScopeId) (e : FunctionEntry) (code : Nat) (body : Block) :
    Analysis Frame := do
  let r := (← get).resolver
  let _ ← build (beginBody code)
  modifyTree (·.moveTo id)
  lowerStatements r id e.decl e.signature body

namespace Session

variable {s : Session} {id : ScopeId} {e : FunctionEntry} {code : Nat} {body : Block}
  {f : Ir.Function} {receiver : List Ir.Ty}

def closed (s t : Session) : Session :=
  { t.withTree (t.tree.moveTo s.tree.current) with builder := (endBody.run t.builder).2 }

theorem lowerFunction_leads_of (kind : s.tree.kind id = .function e) (coded : e.code = some code)
    (has : e.decl.body = some body) {done : Session → Prop} {failed : Diagnostic → Prop}
    (leads : Leads (statementsOf id e code body) s (fun given t =>
      Leads (finishBody given e.decl) t (fun _ u => done (s.closed u)) fun d _ => failed d)
      fun d _ => failed d) :
    Leads (lowerFunction id) s (fun _ s' => done s') fun d _ => failed d := by
  unfold Leads
  rw [lowerFunction_run kind coded has, bind_run (build_eq (beginBody code) s)]
  refine leads_bind.mpr ((leads_attempt _ _).mpr (leads_within.mpr ?_))
  exact leads_bind.mpr leads

structure Stated (e : FunctionEntry) (code : Nat) (body : Block) (frame : Frame) (t : Session)
    (z : Junction) (places : List Nat) : Prop where
  session : z.session = t
  count : places.length = body.returns
  result : frame.result = e.signature.result
  shared : frame.exit = none ↔ body.returns < 2
  attached : t.builder.function = some code
  sound : frame.Sound z.toSite
  waiting : z.waiting = frame.exit.toList
  completes : ∀ y, z.Follows y → z.Finishes y frame → frame.Completes z y places

theorem opening_ended (f : Ir.Function) (i : Nat) (code : List Ir.Inst) (t : Ir.Terminator) :
    ¬(opening f).Ended i code t := by
  rintro ⟨b, has, -, done⟩
  cases i with
  | zero =>
    cases has
    cases done
  | succ => cases has

theorem Ready.statementsOf_leads (ready : s.Ready id e code body f receiver) :
    Leads (statementsOf id e code body) s
      (fun frame t => ∃ z places, Stated e code body frame t z places)
      fun _ _ => True := by
  have begin_run : build (beginBody code) s = .ok (some 0) (s.begun code f) :=
    Spot.build_run (beginBody_eq ready.present)
  have run : statementsOf id e code body s =
      lowerStatements s.resolver id e.decl e.signature body ready.junction.session := by
    rw [statementsOf, get_bind, bind_run begin_run]
    rfl
  have keeps : Keeps (lowerStatements s.resolver id e.decl e.signature body) ready.junction.toSite _ :=
    lowerStatements_keeps ready.isOpen rfl ready.begins.1 ready.params ready.result ready.begins.2
      (fun frame y z => frame.Builds y.toSite z.toSite body.returns)
      fun u w frame y starts sound => starts.lowerBlock_keeps (Resolver.sound_within _) sound
  unfold Leads
  rw [run]
  refine Leads.mono keeps ?_ fun _ _ _ => trivial
  rintro frame _ ⟨_, rfl, reached, u, w, y, z, rfl, built⟩
  obtain ⟨_, frames⟩ := built.starts.frame
  obtain ⟨places, length, tally⟩ := built.holds.counts
  have links : (opening f).Links y.draft fun _ => True :=
    (built.starts.self.1.inside.links.mono fun _ _ => trivial).trans
      ((built.starts.params.2.inside.links.mono fun _ _ => trivial).trans frames.links)
  refine ⟨z, places, rfl, length, frames.result, frames.shared,
    reached.lowers.function, built.sound, built.waiting, fun _ more finishes => ?_⟩
  refine ⟨tally.distinct, fun i place => (tally.gives i place).2, ?_, built.sound, built.waiting,
    more, finishes⟩
  intro i code t ended
  rcases tally.new ended with early | place | goes
  · rcases links.new early with none | ⟨on, -⟩
    · exact absurd none (opening_ended f i code t)
    · exact .inr ⟨on, frames.apart i code t early⟩
  · exact .inl place
  · exact .inr goes

variable {t : Session}

theorem Stated.closed {frame : Frame} {z : Junction} {places : List Nat}
    (stated : Stated e code body frame t z places) {y : Site} (reached : z.Follows y) :
    (s.closed y.session).builder.functions[code]? = some y.draft := by
  have attached : y.session.builder.function = some code := by
    rw [reached.lowers.function, stated.session]
    exact stated.attached
  exact (y.linked.here attached).1

/-- Nothing has ended the insertion block of a function, and control may get there. -/
def OpenEnd (t : Session) (code : Nat) : Prop :=
  t.builder.isCurrentTerminated = false ∧ ∃ f last, t.builder.functions[code]? = some f ∧
    t.builder.block = some last ∧ f.Reaches 0 last

theorem Stated.openEnd {frame : Frame} {z : Junction} {places : List Nat}
    (stated : Stated e code body frame t z places) (some : e.signature.result.isVoid = false) :
    z.Lost frame ↔ t.OpenEnd code := by
  obtain rfl := stated.session
  obtain ⟨has, current⟩ := z.linked.here stated.attached
  constructor
  · rintro ⟨isOpen, -, reaches⟩
    exact ⟨z.isOpen_iff.mp isOpen, z.draft, z.block, has, current, reaches⟩
  rintro ⟨running, f, _, present', current', reaches⟩
  cases has.symm.trans present'
  cases current.symm.trans current'
  exact ⟨z.isOpen_iff.mpr running, stated.result ▸ some, reaches⟩

theorem Ready.finishes_leads (ready : s.Ready id e code body f receiver) :
    Leads (lowerFunction id) s
      (fun _ s' => ∃ frame t z places y, statementsOf id e code body s = .ok frame t ∧
        Stated e code body frame t z places ∧ ¬z.Lost frame ∧ frame.Completes z y places ∧
          s'.builder.functions[code]? = some y.draft)
      fun d _ => ∀ frame t, statementsOf id e code body s = .ok frame t →
        ∃ z places, Stated e code body frame t z places ∧ z.Lost frame ∧
          d.problem = .mayNotReturn e.decl.name := by
  refine lowerFunction_leads_of ready.kind ready.coded ready.body
    (.mono (leads_run ready.statementsOf_leads) ?_ ?_)
  · rintro frame _ ⟨states, z, places, stated⟩
    obtain rfl := stated.session
    refine .mono (.and (finishBody_keeps stated.sound stated.waiting)
      (finishBody_leads stated.sound stated.waiting)) ?_ ?_
    · rintro _ _ ⟨⟨y, rfl, reached, finishes⟩, kept⟩
      exact ⟨frame, _, z, places, y, states, stated, kept, stated.completes y reached finishes,
        stated.closed reached⟩
    rintro d _ ⟨-, lost, problem⟩ _ t again
    rw [states] at again
    cases again
    exact ⟨z, places, stated, lost, problem⟩
  rintro d _ ⟨fails, -⟩ _ t again
  rw [fails] at again
  cases again

variable {moduleName : String} {m : Module} {limits : Limits}

theorem Reached.ready (reached : Reached moduleName m limits s) (queued : id ∈ s.bodies)
    (alive : s.tree.isAlive id) :
    ∃ e code body f receiver, (s.taken id).Ready id e code body f receiver := by
  obtain ⟨_, standing⟩ := beforeBodies_standing moduleName m limits
  have bodied := reached.bodied standing.valid standing.idle
  exact bodied.valid.ready bodied.idle queued List.erase_sublist bodied.valid.queue.not_mem_erase alive

def entryLeadsOn (s : Session) (code : Nat) : Bool :=
  !s.builder.isCurrentTerminated && s.builder.functions[code]?.any fun f =>
    s.builder.block.any fun last => f.blocks[0]?.any fun b => b.taken.contains last

theorem openEnd_of_entryLeadsOn (leads : t.entryLeadsOn code) : t.OpenEnd code := by
  rw [entryLeadsOn, Bool.and_eq_true, Bool.not_eq_true'] at leads
  obtain ⟨running, leads⟩ := leads
  obtain ⟨f, has, leads⟩ := (Option.any_eq_true _ _).mp leads
  obtain ⟨last, current, leads⟩ := (Option.any_eq_true _ _).mp leads
  obtain ⟨b, entry, leads⟩ := (Option.any_eq_true _ _).mp leads
  exact ⟨running, f, last, has, current,
    .step ⟨b, entry, List.contains_iff_mem.mp leads⟩ (.here last)⟩

end Session

namespace Lowering

def statementsOf (id : ScopeId) (e : FunctionEntry) (code : Nat) (body : Block) : Lowering Unit := do
  let r := (← get).session.resolver
  let _ ← build (beginBody code)
  modifyTree (·.moveTo id)
  lowerStatements r id e.decl e.signature body

variable {s : Session} {id : ScopeId} {e : FunctionEntry} {code : Nat} {body : Block} {t : Lowerer}

theorem statementsOf_leaves (s : Session) (id : ScopeId) (e : FunctionEntry) (code : Nat)
    (body : Block) : Leaves (statementsOf id e code body) (Stencil.statementsOf id e code body) ⟨s, {}⟩
      fun frame => (LowerState.enter {} frame body.returns).counting body.returns :=
  lowerStatements_leaves (l := ⟨_, {}⟩) rfl

def stated (body : Block) (frame : Frame) : LowerState :=
  { function := some { frame with returned := body.returns, expected := body.returns } }

theorem statementsOf_run {frame : Frame} {u : Session}
    (run : Stencil.statementsOf id e code body s = .ok frame u) :
    statementsOf id e code body ⟨s, {}⟩ = .ok () ⟨u, stated body frame⟩ := by
  have leaves := statementsOf_leaves s id e code body
  rw [Leaves, run] at leaves
  rw [leaves, stated, LowerState.enter, LowerState.counting, Option.map_some]
  simp only [Nat.zero_add]

theorem statementsOf_ok (run : statementsOf id e code body ⟨s, {}⟩ = .ok () t) :
    ∃ frame, Stencil.statementsOf id e code body s = .ok frame t.session := by
  have leaves := statementsOf_leaves s id e code body
  unfold Leaves at leaves
  cases plain : Stencil.statementsOf id e code body s with
  | ok frame =>
    rw [plain] at leaves
    cases leaves.symm.trans run
    exact ⟨frame, rfl⟩
  | error =>
    rw [plain] at leaves
    obtain ⟨_, leaves⟩ := leaves
    cases leaves.symm.trans run

end Lowering

namespace Lowerer

variable {moduleName : String} {m : Module} {limits : Limits} {l : Lowerer} {id : ScopeId}

/-- However the `return` statements of a body are nested, as many are lowered as there are. Two or
more meet in one exit, and a single one that gives something back is the only way out. -/
theorem Reached.returns_meet (reached : Reached moduleName m limits l) (queued : id ∈ l.session.bodies)
    (alive : l.session.tree.isAlive id = true) :
    ∃ e code body, l.session.tree.kind id = .function e ∧ e.code = some code ∧
      e.decl.body = some body ∧
      ∀ l', Lowering.lowerFunction id (l.taken id) = .ok () l' →
        ∃ (frame : Frame) (t : Lowerer) (f : Ir.Function),
        Lowering.statementsOf id e code body (l.taken id) = .ok () t ∧
        t.state.function =
          some { frame with returned := body.returns, expected := body.returns } ∧
        frame.result = e.signature.result ∧ l'.session.builder.functions[code]? = some f ∧
        (2 ≤ body.returns → ∃ exit, frame.exit = some exit ∧
          frame.Meets f exit body.returns (!t.session.builder.isCurrentTerminated)) ∧
        (e.signature.result.isVoid = false → body.returns = 1 → frame.exit = none ∧
          ∃ place, ∀ i, (∃ code value, f.Ended i code (.ret value)) ↔ i = place) := by
  obtain ⟨state, reached⟩ := reached.plain
  obtain ⟨s, _⟩ := l
  obtain rfl : _ = _ := state
  obtain ⟨e, code, body, f, receiver, ready⟩ := reached.ready queued alive
  refine ⟨e, code, body, ready.kind, ready.coded, ready.body, fun l' run => ?_⟩
  have leads := ready.finishes_leads
  rw [Leads, ((Lowering.lowerFunction_lifts id (s.taken id)).ok run).1] at leads
  obtain ⟨frame, t, z, places, y, states, stated, -, completes, has⟩ := leads
  refine ⟨frame, _, y.draft, Lowering.statementsOf_run states, rfl, stated.result, has,
    fun several => ?_, fun some one => ?_⟩
  · cases shared : frame.exit with
    | none => exact absurd several (Nat.not_le.mpr (stated.shared.mp shared))
    | some exit =>
      refine ⟨exit, rfl, stated.count ▸ completes.meets shared ?_⟩
      rw [z.isOpen_iff, stated.session, Bool.not_eq_true']
  · have alone : frame.exit = none := stated.shared.mpr (by omega)
    exact ⟨alone, completes.single alone (stated.result ▸ some) (stated.count.trans one)⟩

def twoReturns : Module :=
  Module.ofText "func pick(a: bool) => int { if a { return 1 } return 2 }"

theorem Reached.returns_meet_twoReturns : ∃ (l' : Lowerer) (frame : Frame) (f : Ir.Function)
    (exit : Nat) (falls : Bool),
      Lowering.lowerFunction 1 ((beforeBodies "m" twoReturns).taken 1) = .ok () l' ∧
        frame.exit = some exit ∧ frame.Meets f exit 2 falls := by
  obtain ⟨queued, alive, two, succeeds⟩ :
      1 ∈ (beforeBodies "m" twoReturns).session.bodies ∧
      (beforeBodies "m" twoReturns).session.tree.isAlive 1 ∧
      (((beforeBodies "m" twoReturns).session.tree.kind 1).function?.bind (·.decl.body)).map
        Block.returns = some 2 ∧
      ((Lowering.lowerFunction 1).run' ((beforeBodies "m" twoReturns).taken 1)).isSome := by
    decide +kernel
  obtain ⟨e, code, body, kind, coded, has, meet⟩ := Reached.returns_meet .refl queued alive
  rw [kind, show (ScopeKind.function e).function? = some e from rfl, Option.bind_some, has,
    Option.map_some, Option.some_inj] at two
  unfold EStateM.run' EStateM.run at succeeds
  cases run : Lowering.lowerFunction 1 ((beforeBodies "m" twoReturns).taken 1) with
  | error =>
    rw [run] at succeeds
    cases succeeds
  | ok _ l' =>
    obtain ⟨frame, t, f, -, -, -, -, several, -⟩ := meet l' run
    obtain ⟨exit, shared, meets⟩ := several (Nat.le_of_eq two.symm)
    exact ⟨l', frame, f, exit, _, rfl, shared, two ▸ meets⟩

/-- A body that has to give something back, and whose statements can be lowered, is refused exactly
if control may get to its end. Otherwise nothing that control reaches ends in nothing. -/
theorem Reached.missingReturn_exact (reached : Reached moduleName m limits l)
    (queued : id ∈ l.session.bodies) (alive : l.session.tree.isAlive id = true) :
    ∃ e code body, l.session.tree.kind id = .function e ∧ e.code = some code ∧
      e.decl.body = some body ∧
      ∀ t, Lowering.statementsOf id e code body (l.taken id) = .ok () t →
        e.signature.result.isVoid = false →
          ((∃ d l', Lowering.lowerFunction id (l.taken id) = .error d l' ∧ d.kind = .missingReturn) ↔
            t.session.OpenEnd code) ∧
          (∀ d l', Lowering.lowerFunction id (l.taken id) = .error d l' →
            d.problem = .mayNotReturn e.decl.name) ∧
          ∀ l', Lowering.lowerFunction id (l.taken id) = .ok () l' → ∃ f,
            l'.session.builder.functions[code]? = some f ∧
              ∀ i, f.Reaches 0 i → ∀ code, ¬f.Ended i code .unreachable := by
  obtain ⟨state, reached⟩ := reached.plain
  obtain ⟨s, _⟩ := l
  obtain rfl : _ = _ := state
  obtain ⟨e, code, body, f, receiver, ready⟩ := reached.ready queued alive
  refine ⟨e, code, body, ready.kind, ready.coded, ready.body, fun t states some => ?_⟩
  obtain ⟨frame, states⟩ := Lowering.statementsOf_ok states
  have leads := ready.finishes_leads
  rw [show Lowering.lowerFunction id (taken ⟨s, {}⟩ id) = _ from
    Lowering.lowerFunction_lifts id (s.taken id), Lowering.lift]
  dsimp only
  cases run : lowerFunction id (s.taken id) with
  | ok _ s' =>
    rw [Leads, run] at leads
    obtain ⟨frame', t', z, places, y, states', stated, kept, completes, has⟩ := leads
    obtain ⟨rfl, rfl⟩ : frame' = frame ∧ t' = t.session := by
      rw [states'] at states
      exact EStateM.Result.ok.inj states
    refine ⟨⟨?_, fun openEnd => absurd ((stated.openEnd some).mpr openEnd) kept⟩, ?_, ?_⟩
    · rintro ⟨_, _, ⟨⟩, -⟩
    · rintro _ _ ⟨⟩
    · rintro _ ⟨⟩
      exact ⟨y.draft, has, fun i reaches code => completes.reachable reaches⟩
  | error d s' =>
    rw [Leads, run] at leads
    obtain ⟨z, places, stated, lost, problem⟩ := leads frame t.session states
    refine ⟨⟨fun _ => (stated.openEnd some).mp lost, fun _ => ⟨d, _, rfl, ?_⟩⟩, ?_, ?_⟩
    · rw [Diagnostic.kind, problem]
      rfl
    · rintro _ _ ⟨⟩
      exact problem
    · rintro _ ⟨⟩

def halfReturned : Module :=
  Module.ofText "func half(a: bool) => int { if a { return 1 } }"

theorem Reached.missingReturn_exact_halfReturned : ∃ (d : Diagnostic) (l' : Lowerer),
    Lowering.lowerFunction 1 ((beforeBodies "m" halfReturned).taken 1) = .error d l' ∧
      d.problem = .mayNotReturn "half" := by
  obtain ⟨queued, alive, states⟩ :
      1 ∈ (beforeBodies "m" halfReturned).session.bodies ∧
      (beforeBodies "m" halfReturned).session.tree.isAlive 1 ∧
      ((beforeBodies "m" halfReturned).session.tree.kind 1).function?.any (fun e =>
        e.code.any fun code => e.decl.body.any fun body =>
          e.decl.name == "half" && !e.signature.result.isVoid &&
            EStateM.run' (do
              Lowering.statementsOf 1 e code body
              return (← get).session.entryLeadsOn code)
                ((beforeBodies "m" halfReturned).taken 1) == some true) := by
    decide +kernel
  obtain ⟨e, code, body, kind, coded, has, exact⟩ := Reached.missingReturn_exact .refl queued alive
  rw [kind, show (ScopeKind.function e).function? = some e from rfl, Option.any_some, coded,
    Option.any_some, has, Option.any_some, Bool.and_eq_true, Bool.and_eq_true, Bool.not_eq_true',
    beq_iff_eq, beq_iff_eq] at states
  obtain ⟨⟨name, some⟩, states⟩ := states
  unfold EStateM.run' EStateM.run at states
  split at states
  · rename_i leads _ run
    obtain ⟨_, t, stated, next⟩ := bind_ok run
    have same : t.session.entryLeadsOn code = leads := (EStateM.Result.ok.inj next).1
    obtain ⟨refused, named, -⟩ := exact t stated some
    obtain ⟨d, l', run, -⟩ := refused.mpr
      (Session.openEnd_of_entryLeadsOn (same.trans (Option.some.inj states)))
    exact ⟨d, l', run, name ▸ named d l' run⟩
  · cases states

end Lowerer

end Stencil
