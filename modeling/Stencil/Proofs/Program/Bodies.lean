import Mathlib.Logic.Relation
import Stencil.Program
import Stencil.Proofs.Lowering.Function

namespace Stencil

open Analysis Tracked List ScopeKind Ir Ir.Builder ScopeTree

namespace ScopeTree

variable {t : ScopeTree}

theorem Shaped.outer_ancestors (shaped : t.Shaped) (id : ScopeId)
    (outer : (t.kind id).isOuter) : ∀ a ∈ t.ancestors id, (t.kind a).isBody = false := by
  induction id using Nat.strongRecOn with
  | ind id ih =>
  intro a mem
  rcases mem_ancestors mem with rfl | ⟨p, up, below, more⟩
  · exact isBody_of_isOuter outer
  refine ih p below ?_ a more
  have admits := shaped.admitted id p up
  cases kind : t.kind id <;> rw [kind] at outer admits <;>
    first | exact isOuter_of_isNamespace admits | cases admits | cases outer

theorem Shaped.function_ancestors (shaped : t.Shaped) {id : ScopeId} {e : FunctionEntry}
    (function : t.kind id = .function e) :
    ∀ a ∈ t.ancestors id, (t.kind a).isBody → a = id := by
  intro a mem body
  rcases mem_ancestors mem with same | ⟨p, up, -, more⟩
  · exact same
  have admits := shaped.admitted id p up
  rw [function] at admits
  rw [shaped.outer_ancestors p admits a more] at body
  cases body

end ScopeTree

theorem Ir.Function.pending_opening (f : Function) : (opening f).Pending 0 [] where
  inside := Nat.zero_lt_one
  waits := nofun
  distinct := .nil
  ended i _ has other := by
    cases i with
    | zero => exact absurd rfl other
    | succ i => cases has

namespace Session

def Idle (s : Session) : Prop := s.builder.function = none

section

variable {s : Session} {code : Nat} {f g : Function} {b : Builder}

theorem Valid.replaced (valid : s.Valid) (has : s.builder.functions[code]? = some f)
    (same : g.name = f.name ∧ g.params = f.params ∧ g.result = f.result)
    (quiet : ∀ i, s.builder.function = some i → i = code)
    (functions : b.functions = (s.builder.replace code g).functions)
    (globals : b.module.globals = s.builder.module.globals)
    (structs : b.module.structs = s.builder.module.structs)
    (strings : b.nextString = s.builder.nextString) (late : b.late = s.builder.late)
    (ended : b.function = some code ∨ g.blocks = [] ∨ g.Finished s.context) :
    (s.withBuilder b).Valid ∧ s.Extends [] (s.withBuilder b) := by
  have extended : s.Extends [] (s.withBuilder b) := by
    refine .recoded ?_ (globals ▸ prefix_rfl) (fun orderly =>
      orderly.congr structs globals strings) structs
    intro i h got
    rw [functions]
    by_cases here : i = code
    · subst here
      cases has.symm.trans got
      exact ⟨g, replace_here has g, same⟩
    · exact ⟨h, by rw [replace_other here, got], rfl, rfl, rfl⟩
  refine ⟨valid.withBuilder extended ?_ (late.trans valid.late), extended⟩
  intro i h got other
  rw [functions] at got
  by_cases here : i = code
  · subst here
    cases (replace_here has g).symm.trans got
    rcases ended with attached | declared | finished
    · exact absurd attached other
    · exact .inl declared
    · exact .inr (finished.mono extended.context)
  rw [replace_other here] at got
  exact (valid.finished i h got fun attached => here (quiet i attached)).imp_right
    fun h => h.mono extended.context

end

/-- A declared function whose body is to be built next. -/
structure Ready (s : Session) (id : ScopeId) (e : FunctionEntry) (code : Nat) (body : Block)
    (f : Function) (receiver : List Ir.Ty) : Prop where
  valid : s.Valid
  idle : s.Idle
  kind : s.tree.kind id = .function e
  coded : e.code = some code
  body : e.decl.body = some body
  present : s.builder.functions[code]? = some f
  params : f.params = receiver ++ e.signature.params.map Ty.ir
  result : f.result = e.signature.result.ir
  receives : s.Receives id e.signature.member receiver
  alive : s.tree.isAlive id
  unqueued : id ∉ s.bodies
  childless : ∀ child, s.tree.parent? child ≠ some id

section

variable {s : Session} {id : ScopeId} {e : FunctionEntry} {code : Nat} {body : Block}
  {f : Function} {receiver : List Ir.Ty}

def begun (s : Session) (code : Nat) (f : Function) : Session :=
  s.withBuilder { s.builder.replace code (opening f) with
    function := some code, block := some 0, nextTemp := 0 }

theorem Ready.begun (ready : s.Ready id e code body f receiver) :
    (s.begun code f).Valid ∧ s.Extends [] (s.begun code f) := by
  refine ready.valid.replaced ready.present (g := opening f) ⟨rfl, rfl, rfl⟩ ?_ rfl rfl
    rfl rfl rfl (.inl rfl)
  intro i attached
  rw [ready.idle] at attached
  cases attached

theorem Ready.around (ready : s.Ready id e code body f receiver) :
    ((s.begun code f).withTree (s.tree.moveTo id)).Visible (opening f) id s.tree.size where
  old := .refl
  slots child p _ _ around _ _ ours := by
    rcases ours with rfl | young
    · exact absurd around (ready.childless child)
    exact absurd (ready.valid.shaped.parent_lt around) (Nat.not_lt.mpr young)
  around a mem isBody := by
    change a ∈ (s.tree.moveTo id).ancestors id at mem
    rw [ancestors_moveTo] at mem
    exact .inl (ready.valid.shaped.function_ancestors ready.kind a mem isBody)
  unqueued := ready.unqueued

def Ready.junction (ready : s.Ready id e code body f receiver) : Junction where
  session := (s.begun code f).withTree (s.tree.moveTo id)
  draft := opening f
  block := 0
  supply _ _ := False
  types _ := none
  waiting := []
  owner := id
  start := s.tree.size
  assigns := true
  valid := (ready.begun.1.relocated (t := s.tree.moveTo id) rfl ready.alive).1
  linked := Or.inl ⟨code, rfl, replace_here ready.present _, rfl⟩
  built := .opening _ f 0 ⟨"entry", by simp, rfl⟩
  pending := Ir.Function.pending_opening f
  visible := ready.around
  between := ⟨⟨code, rfl⟩, congrArg isBody ready.kind, fun _ _ h => h, rfl⟩

theorem Ready.isOpen (ready : s.Ready id e code body f receiver) : ready.junction.IsOpen :=
  ⟨_, rfl, rfl⟩

end

/-- A session in which a body has been dealt with. -/
structure Builds (s s' : Session) (code : Nat) : Prop extends s.Extends [] s' where
  valid : s'.Valid
  idle : s'.Idle
  block : s'.builder.block = none
  current : s'.tree.current = s.tree.current
  others : ∀ i f, i ≠ code → s.builder.functions[i]? = some f →
    s'.builder.functions[i]? = some f
  fresh : ∀ i f, i ≠ code → s.builder.functions.length ≤ i →
    s'.builder.functions[i]? = some f → f.blocks = []
  bodies : ∃ new, s'.bodies = s.bodies ++ new ∧ ∀ id ∈ new, s.tree.size ≤ id
  lowered : ∀ id e, s.tree.size ≤ id → s'.tree.kind id = .function e →
    e.code.isSome → e.decl.body.isSome → id ∈ s'.bodies

section

variable {s : Session} {id : ScopeId} {e : FunctionEntry} {code : Nat} {body : Block}
  {f : Function} {receiver : List Ir.Ty}

/-- The insertion point is back where it was, and the function is done with. -/
theorem Ready.builds (ready : s.Ready id e code body f receiver) {t : Session} (valid : t.Valid)
    (lowers : ready.junction.session.Lowers t) {h g : Function}
    (has : t.builder.functions[code]? = some h)
    (same : g.name = h.name ∧ g.params = h.params ∧ g.result = h.result) {b : Builder}
    (functions : b.functions = (t.builder.replace code g).functions)
    (globals : b.module.globals = t.builder.module.globals)
    (structs : b.module.structs = t.builder.module.structs)
    (strings : b.nextString = t.builder.nextString) (late : b.late = t.builder.late)
    (idle : b.function = none) (block : b.block = none)
    (ended : g.blocks = [] ∨ g.Finished t.context) :
    s.Builds ((t.withTree (t.tree.moveTo s.tree.current)).withBuilder b) code := by
  obtain ⟨begunValid, begun⟩ := ready.begun
  have moved := (begunValid.relocated (t := s.tree.moveTo id) rfl ready.alive).2
  have inner := moved.trans lowers
  have alive : t.tree.isAlive s.tree.current := by
    rw [inner.tree.alive _ (lt_of_alive ready.valid.current)]
    exact ready.valid.current
  obtain ⟨backValid, back⟩ :=
    valid.relocated (t := t.tree.moveTo s.tree.current) rfl alive
  have finished : g.blocks = [] ∨ g.Finished (t.withTree (t.tree.moveTo s.tree.current)).context :=
    ended.imp_right fun done => done.mono back.context
  obtain ⟨doneValid, done⟩ := backValid.replaced (b := b) has same
    (fun i attached => Option.some.inj (attached.symm.trans lowers.function)) functions globals
    structs strings late (.inr finished)
  have whole := inner.trans back
  refine { begun.trans (whole.toExtends.trans done) with
    valid := doneValid, idle := idle, block := block, current := rfl, others := ?_, fresh := ?_
    bodies := whole.bodies, lowered := whole.lowered }
  · intro i f' other got
    change b.functions[i]? = _
    rw [functions, replace_other other]
    refine whole.others i f' (fun attached => other (Option.some.inj attached).symm) ?_
    exact (replace_other other _).trans got
  intro i f' other young got
  change b.functions[i]? = _ at got
  rw [functions, replace_other other] at got
  refine whole.fresh i f' (fun attached => other (Option.some.inj attached).symm) ?_ got
  exact (Nat.le_of_eq length_set).trans young

structure Ready.Built (ready : s.Ready id e code body f receiver) (s' : Session)
    (during : Frame → Junction → Junction → Prop) (u w : Spot) (frame : Frame) (y z : Junction)
    (last : Site) : Prop where
  starts : BodyStarts (ready.junction.spot ready.isOpen) e.decl e.signature body.returns
    receiver.length u w frame y
  passes : y.Passes z
  holds : during frame y z
  reached : z.Follows last
  finishes : z.Finishes last frame
  function : s'.builder.functions[code]? = some last.draft

theorem lowerFunction_run (kind : s.tree.kind id = .function e) (coded : e.code = some code)
    (has : e.decl.body = some body) : lowerFunction id s = (do
      let _ ← build (beginBody code)
      match ← attempt (within id (lowerBody s.resolver id e.decl e.signature body)) with
        | .ok _ => build endBody
        | .error d => do
          build (discardBody code)
          throw d : Analysis Unit) s := by
  obtain ⟨decl, _, _, _⟩ := e
  obtain rfl : _ = some code := coded
  obtain ⟨_, _, _, _, _, _⟩ := decl
  obtain rfl : _ = some body := has
  have read : ∀ next : Session → Analysis Unit, (get >>= next) s = next s s := fun _ => rfl
  rw [lowerFunction, read]
  generalize s.tree.kind id = present at kind ⊢
  subst kind
  rfl

theorem Ready.begins (ready : s.Ready id e code body f receiver) :
    ready.junction.session.Receives id e.signature.member receiver ∧
      (∀ type ∈ e.signature.params, type.Known ready.junction.tree) ∧
        e.signature.result.Known ready.junction.tree := by
  have accounts := ready.valid.accounts id
  rw [ready.kind] at accounts
  obtain ⟨params, result, -⟩ := accounts
  have started := ready.begun.2.trans
    (ready.begun.1.relocated (t := s.tree.moveTo id) rfl ready.alive).2.toExtends
  exact ⟨ready.receives.mono started.toIncludes (lt_of_alive ready.alive),
    fun type mem => (params type mem).mono started.tree, result.mono started.tree⟩

theorem Ready.lowerFunction_leads (ready : s.Ready id e code body f receiver)
    (during : Frame → Junction → Junction → Prop)
    (builds : ∀ u w frame y, BodyStarts (ready.junction.spot ready.isOpen) e.decl e.signature
      body.returns receiver.length u w frame y → frame.Sound y.toSite →
        Keeps (lowerBlock s.resolver frame none body) y fun _ z => during frame y z) :
    Leads (lowerFunction id) s (fun _ s' => s.Builds s' code ∧
        ∃ u w frame y z last, ready.Built s' during u w frame y z last)
      (fun d s' => d.Regular ∧ s.Builds s' code ∧
        ∃ g, s'.builder.functions[code]? = some g ∧ g.blocks = []) := by
  have inner := lowerBody_keeps
    ready.isOpen rfl ready.begins.1 ready.params ready.result ready.begins.2 during builds
  unfold Leads
  rw [lowerFunction_run ready.kind ready.coded ready.body]
  change Leads (do
    let _ ← build (beginBody code)
    match ← attempt (within id (lowerBody s.resolver id e.decl e.signature body)) with
      | .ok _ => build endBody
      | .error d => do
        build (discardBody code)
        throw d) s _ _
  have begin_run : build (beginBody code) s = .ok (some 0) (s.begun code f) :=
    Spot.build_run (beginBody_eq ready.present)
  rw [leads_bind, Leads, begin_run]
  refine leads_bind.mpr ((leads_attempt _ _).mpr (leads_within.mpr (.mono inner ?_ ?_)))
  · rintro _ _ ⟨last, rfl, way, u, w, frame, y, z, built, more, finishes⟩
    have attached := way.lowers.function
    obtain ⟨has, -⟩ := last.linked.here attached
    have replaced : (last.session.builder.replace code last.draft).functions =
        last.session.builder.functions := by
      obtain ⟨lies, here⟩ := List.getElem?_eq_some_iff.mp has
      exact here ▸ set_getElem_self lies
    refine ⟨ready.builds last.valid way.lowers has ⟨rfl, rfl, rfl⟩ replaced.symm rfl rfl rfl
      rfl rfl rfl (.inr ⟨⟨_, _, _, last.built⟩, finishes.ended⟩),
      u, w, frame, y, z, last, built.starts, built.passes, built.holds, more, finishes, has⟩
  rintro d t ⟨excused, valid, lowers⟩
  obtain ⟨h, has, -⟩ := lowers.heads code (opening f) (replace_here ready.present _)
  have discard_run : build (discardBody code) (t.withTree (t.tree.moveTo s.tree.current)) =
        .ok () ((t.withTree (t.tree.moveTo s.tree.current)).withBuilder
          { t.builder.replace code (Ir.Builder.declared h) with function := none, block := none }) :=
    Spot.build_run (discardBody_eq has)
  refine leads_bind.mpr ?_
  unfold Leads
  rw [show (s.begun code f).tree.current = s.tree.current from rfl, discard_run]
  exact ⟨excused.1, ready.builds (g := Ir.Builder.declared h) valid lowers has ⟨rfl, rfl, rfl⟩
    rfl rfl rfl rfl rfl rfl rfl (.inl rfl), _, replace_here has _, rfl⟩

end

def Lowered (s : Session) (id : ScopeId) : Prop :=
  ∃ (s0 s1 : Session) (e : FunctionEntry) (code : Nat) (body : Block) (f : Function)
    (receiver : List Ir.Ty), s0.Ready id e code body f receiver ∧
      lowerFunction id s0 = .ok () s1 ∧ s0.Extends [] s ∧
        s.builder.functions[code]? = s1.builder.functions[code]?

def Settled (s : Session) : Prop :=
  s.report.entries = [] → ∀ id e, s.tree.kind id = .function e → e.code.isSome →
    e.decl.body.isSome → s.tree.isAlive id → id ∈ s.bodies ∨ s.Lowered id

/-- One turn: the next function in the queue, unless its scope is gone. -/
inductive Turn : Session → Session → Prop
  | skips {s : Session} {id : ScopeId} {rest : List ScopeId} (queue : s.bodies = id :: rest)
      (gone : s.tree.isAlive id = false) : Turn s { s with bodies := rest }
  | lowers {s s' : Session} {id : ScopeId} {rest : List ScopeId} {result : Option Unit}
      (queue : s.bodies = id :: rest) (alive : s.tree.isAlive id)
      (run : reporting (lowerFunction id) { s with bodies := rest } = .ok result s') : Turn s s'

abbrev Turns : Session → Session → Prop := Relation.ReflTransGen Turn

def overrun (s : Session) : Session :=
  { s with exhausted := true, report := s.report.push (Problem.endlessInstances.at {}) }

def Rests (s s' : Session) : Prop :=
  s.bodies = [] ∧ s' = s ∨ s.bodies ≠ [] ∧ s' = s.overrun

variable {s s' : Session} {id : ScopeId} {rest : List ScopeId}

theorem extends_dequeued (s : Session) (rest : List ScopeId) :
    s.Extends [] { s with bodies := rest } :=
  .congr rfl rfl rfl rfl prefix_rfl (.of_eq rfl)

theorem Valid.dequeued (valid : s.Valid) (fewer : rest.Sublist s.bodies) :
    ({ s with bodies := rest } : Session).Valid :=
  valid.congr rfl rfl fewer valid.instances valid.regular

theorem Valid.ready (valid : s.Valid) (idle : s.Idle) (queued : id ∈ s.bodies)
    (fewer : rest.Sublist s.bodies) (unqueued : id ∉ rest) (alive : s.tree.isAlive id) :
    ∃ e code body f receiver,
      ({ s with bodies := rest } : Session).Ready id e code body f receiver := by
  obtain ⟨⟨e, kind, coded, bodied⟩, childless⟩ := valid.queued id queued
  obtain ⟨code, coded⟩ := Option.isSome_iff_exists.mp coded
  obtain ⟨body, bodied⟩ := Option.isSome_iff_exists.mp bodied
  have accounts := (valid.dequeued fewer).accounts id
  rw [show ({ s with bodies := rest } : Session).tree.kind id = _ from kind] at accounts
  obtain ⟨-, -, -, -, declared⟩ := accounts
  obtain ⟨f, receiver, has, -, params, result, receives⟩ := declared code coded
  exact ⟨e, code, body, f, receiver, valid.dequeued fewer, idle, kind, coded, bodied, has, params,
    result, receives, alive, unqueued, childless⟩

theorem Lowered.mono (lowered : s.Lowered id) (h : s.Extends [] s')
    (same : ∀ e code, s.tree.kind id = .function e → e.code = some code →
      s'.builder.functions[code]? = s.builder.functions[code]?) :
    s'.Lowered id := by
  obtain ⟨s0, s1, e, code, body, f, receiver, ready, run, extended, unchanged⟩ := lowered
  have kind := extended.tree.kind id (lt_of_alive ready.alive)
  rw [ready.kind] at kind
  exact ⟨s0, s1, e, code, body, f, receiver, ready, run, extended.trans h,
    (same e code kind.function_eq ready.coded).trans unchanged⟩

theorem Settled.step (valid : s.Valid) (settled : s.Settled) (queue : s.bodies = id :: rest)
    {e : FunctionEntry} {code : Nat} {body : Block} {f : Function} {receiver : List Ir.Ty}
    (ready : ({ s with bodies := rest } : Session).Ready id e code body f receiver)
    (run : lowerFunction id { s with bodies := rest } = .ok () s')
    (builds : ({ s with bodies := rest } : Session).Builds s' code) : s'.Settled := by
  intro clean id' e' kind' coded bodied alive
  obtain ⟨_, bodies, -⟩ := builds.bodies
  have before := builds.clean clean
  by_cases same : id' = id
  · subst same
    exact .inr ⟨_, s', e, code, body, f, receiver, ready, run, builds.toExtends, rfl⟩
  by_cases old : id' < s.tree.size
  · have kind : s.tree.kind id' = .function e' :=
      function_of_refined (builds.tree.kind id' old) kind'
    have alive' : s.tree.isAlive id' := by
      rw [← builds.tree.alive id' old]
      exact alive
    rcases settled before id' e' kind coded bodied alive' with queued | lowered
    · refine .inl ?_
      rw [queue] at queued
      rw [bodies]
      exact mem_append_left _ ((mem_cons.mp queued).resolve_left same)
    refine .inr (lowered.mono ((s.extends_dequeued rest).trans builds.toExtends) ?_)
    intro e'' code' has coded'
    have apart : code' ≠ code := by
      rintro rfl
      exact same (valid.codes id' id e'' e code' has ready.kind coded' ready.coded)
    have accounts := valid.accounts id'
    rw [has] at accounts
    obtain ⟨g, -, got, -⟩ := accounts.2.2.2.2 code' coded'
    rw [got]
    exact builds.others code' g apart got
  · exact .inl (builds.lowered id' e' (Nat.le_of_not_lt old) kind' coded bodied)

structure Bodied (s s' : Session) : Prop extends s.Extends [] s' where
  valid : s'.Valid
  idle : s'.Idle
  settled : s.Settled → s'.Settled

def Drained (s : Session) : Prop :=
  s.bodies = [] ∨ s.exhausted ∧ s.report.entries ≠ []

theorem Bodied.trans {s'' : Session} (fst : s.Bodied s') (snd : s'.Bodied s'') :
    s.Bodied s'' :=
  ⟨fst.toExtends.trans snd.toExtends, snd.valid, snd.idle,
    fun settled => snd.settled (fst.settled settled)⟩

theorem Bodied.skip (valid : s.Valid) (idle : s.Idle) (queue : s.bodies = id :: rest)
    (gone : s.tree.isAlive id = false) : s.Bodied { s with bodies := rest } where
  toExtends := s.extends_dequeued rest
  valid := valid.dequeued (queue ▸ sublist_cons_self id rest)
  idle := idle
  settled settled clean id' e kind coded bodied alive := by
    rcases settled clean id' e kind coded bodied alive with queued | lowered
    · rw [queue] at queued
      refine .inl ((mem_cons.mp queued).resolve_left ?_)
      rintro rfl
      exact Bool.false_ne_true (gone.symm.trans alive)
    · exact .inr (lowered.mono (s.extends_dequeued rest) fun _ _ _ _ => rfl)

theorem lowerNext_leads (valid : s.Valid) (idle : s.Idle) (queue : s.bodies = id :: rest)
    (alive : s.tree.isAlive id) :
    Leads (reporting (lowerFunction id)) { s with bodies := rest }
      (fun _ s' => s.Bodied s') (fun _ _ => False) := by
  have distinct := valid.queue
  rw [queue] at distinct
  obtain ⟨e, code, body, f, receiver, ready⟩ := valid.ready idle (queue ▸ .head _)
    (queue ▸ sublist_cons_self id rest) (nodup_cons.mp distinct).1 alive
  have popped := s.extends_dequeued rest
  have built := ready.lowerFunction_leads (fun _ _ _ => True) fun u w frame y starts sound =>
    (starts.lowerBlock_keeps (Resolver.sound_within _) sound).mono fun _ _ _ _ => trivial
  rw [leads_reporting]
  unfold Leads at built ⊢
  split at built
  · rename_i run
    obtain ⟨builds, -⟩ := built
    exact ⟨popped.trans builds.toExtends, builds.valid, builds.idle,
      fun settled => settled.step valid queue ready run builds⟩
  obtain ⟨regular, builds, -⟩ := built
  obtain ⟨reported, grows⟩ := builds.valid.reported [] regular
  refine ⟨popped.trans (builds.toExtends.trans grows.toExtends), reported, builds.idle, ?_⟩
  intro _ clean
  exact absurd clean (concat_ne_nil _ _)

theorem Turn.bodied (turn : s.Turn s') (valid : s.Valid) (idle : s.Idle) : s.Bodied s' := by
  cases turn with
  | skips queue gone => exact .skip valid idle queue gone
  | lowers queue alive run =>
    have leads := lowerNext_leads valid idle queue alive
    rw [Leads, run] at leads
    exact leads

theorem Turns.bodied (turns : s.Turns s') (valid : s.Valid) (idle : s.Idle) : s.Bodied s' := by
  induction turns with
  | refl => exact ⟨.refl [] s, valid, idle, fun settled => settled⟩
  | tail _ turn ih => exact ih.trans (turn.bodied ih.valid ih.idle)

theorem Bodied.overrun (valid : s.Valid) (idle : s.Idle) : s.Bodied s.overrun := by
  have flagged : s.Extends [] { s with exhausted := true } :=
    .congr rfl rfl rfl rfl prefix_rfl (.of_eq rfl)
  have valid' : ({ s with exhausted := true } : Session).Valid :=
    valid.congr rfl rfl (.refl _) valid.instances valid.regular
  obtain ⟨reported, grows⟩ := valid'.reported [] (nofun : (Problem.endlessInstances.at {}).Regular)
  refine ⟨flagged.trans grows.toExtends, reported, idle, fun _ clean => ?_⟩
  exact absurd clean (concat_ne_nil _ _)

theorem lowerBodies_turns (limit : Nat) : ∀ s,
    Leads (lowerBodies limit) s (fun _ s' => ∃ t, s.Turns t ∧ t.Rests s') fun _ _ => False := by
  induction limit with
  | zero =>
    intro s
    refine leads_get.mpr ?_
    cases queue : s.bodies with
    | nil => exact ⟨s, .refl, .inl ⟨queue, rfl⟩⟩
    | cons id rest =>
      refine ⟨s, .refl, .inr ⟨?_, rfl⟩⟩
      rw [queue]
      exact cons_ne_nil id rest
  | succ limit ih =>
  intro s
  have continues : ∀ s', s.Turn s' →
      Leads (lowerBodies limit) s' (fun _ s'' => ∃ t, s.Turns t ∧ t.Rests s'') fun _ _ => False := by
    intro s' turn
    refine (ih s').mono ?_ fun _ _ h => h
    rintro _ _ ⟨t, turns, rests⟩
    exact ⟨t, .head turn turns, rests⟩
  refine leads_get.mpr ?_
  cases queue : s.bodies with
  | nil => exact ⟨s, .refl, .inl ⟨queue, rfl⟩⟩
  | cons id rest =>
  refine leads_bind.mpr ?_
  split
  · rename_i alive
    refine leads_bind.mpr ?_
    cases run : reporting (lowerFunction id) { s with bodies := rest } with
    | ok result s' =>
      rw [Leads, run]
      exact continues s' (.lowers queue alive run)
    | error =>
      have never := reporting_succeeds (s := { s with bodies := rest }) (lowerFunction id)
      rw [Leads, run] at never
      exact never.elim
  rename_i gone
  exact continues _ (.skips queue (Bool.eq_false_iff.mpr gone))

theorem lowerBodies_leads (limit : Nat) (valid : s.Valid) (idle : s.Idle) :
    Leads (lowerBodies limit) s (fun _ s' => s.Bodied s' ∧ s'.Drained) fun _ _ => False := by
  refine (lowerBodies_turns limit s).mono ?_ fun _ _ h => h
  rintro _ _ ⟨t, turns, ⟨drained, rfl⟩ | ⟨-, rfl⟩⟩
  · exact ⟨turns.bodied valid idle, .inl drained⟩
  have bodied := turns.bodied valid idle
  refine ⟨bodied.trans (.overrun bodied.valid bodied.idle), .inr ⟨rfl, ?_⟩⟩
  exact concat_ne_nil _ _

end Session

end Stencil
