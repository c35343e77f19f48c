import Stencil.Proofs.Lowering.Stmt
import Stencil.Proofs.Meaning.Value

/-!
What it means that code does what a statement says. While the source has a result the machine gets
where the outcome says; when the source runs out of fuel the machine still has as many steps to go.
-/

namespace Stencil

open Analysis Tracked Ir Local Site List Stmt Ir.Memory

def AtBlock (last : Site) (next : Nat) (held : Memory → Env → Prop) (env : Env) (s : State) :
    Prop :=
  ∃ m, s = .running next (last.draft.codeOf next) m ∧ last.Stacked m ∧ held m env

def Behind (last z : Site) (vars : List Local) (env : Env) (s : State) : Prop :=
  z.IsOpen ∧ ∃ m, s = z.state last.draft m ∧ last.Stacked m ∧ Hold m vars env

def After (last : Site) (frame : Frame) (loop : Option LoopTargets) (held : Memory → Env → Prop)
    (behind : Env → State → Prop) : Outcome → Env → State → Prop
  | .normal, env, s => behind env s
  | .leave, env, s => ∃ targets, loop = some targets ∧ AtBlock last targets.exit held env s
  | .again, env, s => ∃ targets, loop = some targets ∧ AtBlock last targets.header held env s
  | .returned v, _, s => v.type.ty = frame.result ∧ s = .returned (some v.cell)

def Ir.Function.Matches (f : Function) (args : List Cell) (fuel : Nat) (s : State)
    (after : Outcome → Env → State → Prop) : Option (Outcome × Env) → Prop
  | none => f.Lasts args fuel s
  | some (outcome, env) => ∃ n s', f.Travels args n s s' ∧ after outcome env s'

section

variable {last : Site} {frame : Frame} {loop : Option LoopTargets} {held held' : Memory → Env → Prop}
  {behind behind' : Env → State → Prop} {f : Function} {args : List Cell} {fuel n : Nat}
  {s s' : State} {after after' : Outcome → Env → State → Prop}
  {given : Option (Outcome × Env)}

theorem AtBlock.mono {next : Nat} {env env' : Env} (there : AtBlock last next held env s)
    (weaker : ∀ m, held m env → held' m env') : AtBlock last next held' env' s := by
  obtain ⟨m, same, stacked, holds⟩ := there
  exact ⟨m, same, stacked, weaker m holds⟩

theorem After.mono {outcome : Outcome} {env env' : Env}
    (done : After last frame loop held behind outcome env s)
    (weaker : ∀ m, held m env → held' m env') (more : behind env s → behind' env' s) :
    After last frame loop held' behind' outcome env' s := by
  cases outcome with
  | normal => exact more done
  | leave | again =>
    obtain ⟨targets, same, there⟩ := done
    exact ⟨targets, same, there.mono weaker⟩
  | returned => exact done

theorem Ir.Function.Matches.before (fst : f.Travels args n s s')
    (rest : f.Matches args fuel s' after given) : f.Matches args fuel s after given := by
  cases given with
  | none => exact (fst.leads.lasts rest).shorter (Nat.le_add_left ..)
  | some =>
    obtain ⟨k, s'', travels, holds⟩ := rest
    exact ⟨n + k, s'', fst.trans travels, holds⟩

theorem Ir.Function.Matches.mono (matched : f.Matches args fuel s after given)
    (weaker : ∀ outcome env s, after outcome env s → after' outcome env s) :
    f.Matches args fuel s after' given := by
  cases given with
  | none => exact matched
  | some =>
    obtain ⟨n, s', travels, holds⟩ := matched
    exact ⟨n, s', travels, weaker _ _ _ holds⟩

end

def Frame.Closed (frame : Frame) (last : Site) : Prop :=
  ∀ e v, frame.exit = some e → frame.slot = some v →
    ∃ k, last.draft.Ended e [.load k frame.result.ir v] (.ret (some (.temp k)))

def Simulates (frame : Frame) (loop : Option LoopTargets) (vars : List Local)
    (held : Memory → Env → Prop) (behind : List Local)
    (run : Nat → Env → Option (Outcome × Env)) (x z : Site) : Prop :=
  ∀ last args fuel m env, z.Advances last →
    frame.Closed last → last.Stacked m → Hold m vars env →
      last.draft.Matches args fuel (x.state last.draft m)
        (After last frame loop held (Behind last z behind)) (run fuel env)

def Holding (vars : List Local) (m : Memory) (env : Env) : Prop := Hold m vars env

def HoldingMore (vars : List Local) (m : Memory) (env : Env) : Prop :=
  ∃ more, vars <:+ more ∧ Hold m more env

section

variable {last x z : Site} {vars : List Local} {env : Env} {m : Memory} {s : State}

theorem Site.state_bare (bare : x.code = []) :
    x.state last.draft m = .running x.block (last.draft.codeOf x.block) m := by
  rw [state, bare]
  rfl

theorem AtBlock.behind (there : AtBlock last z.block (Holding vars) env s) (bare : z.code = [])
    (isOpen : z.IsOpen) : Behind last z vars env s := by
  obtain ⟨m, rfl, stacked, hold⟩ := there
  exact ⟨isOpen, m, (state_bare bare).symm, stacked, hold⟩

theorem Local.Hold.drop {more : List Local} {inner : Env} (hold : Hold m more inner)
    (suffix : vars <:+ more) {n : Nat} (length : vars.length = n) :
    Hold m vars (inner.drop (inner.length - n)) := by
  obtain ⟨front, rfl⟩ := suffix
  have whole := List.Forall₂.length_eq hold
  rw [length_append] at whole
  have back := forall₂_drop front.length hold
  rw [drop_left] at back
  rw [show inner.length - n = front.length by omega]
  exact back

theorem Local.Hold.length (hold : Hold m vars env) : vars.length = env.length :=
  List.Forall₂.length_eq hold

end

section

variable {r : Resolver} {frame : Frame} {loop : Option LoopTargets} {vars : List Local} {x : Junction}
  {e : Expr} {type : ScalarType} {span : Span}

theorem Site.Knows.mono {x y : Site} (knows : x.Knows vars) (advanced : x.Advances y)
    (sees : y.tree.Sees y.tree.current vars) : y.Knows vars where
  sees := sees
  written := knows.written
  slots v mem := advanced.draft.slots _ _ (knows.slots v mem)
  distinct := knows.distinct

variable {name : String}

theorem Site.Knows.bind {x : Spot} {z : Site} {k : Nat} (knows : x.toSite.Knows vars)
    (fresh : x.nextTemp ≤ k) (written : isWritten name)
    (advanced : x.toSite.Advances z) (slot : z.draft.HasSlot k type.ty.ir)
    (tree : z.tree = x.tree.grown x.tree.current name (.var (Local.mk name type k).entry) span) :
    z.Knows (⟨name, type, k⟩ :: vars) where
  sees := by
    rw [tree]
    exact knows.sees.bind (ScopeTree.lt_of_alive x.valid.current) ⟨name, type, k⟩ span
  written v mem := by
    rcases mem_cons.mp mem with rfl | old
    · exact written
    · exact knows.written v old
  slots v mem := by
    rcases mem_cons.mp mem with rfl | old
    · exact slot
    · exact advanced.draft.slots _ _ (knows.slots v old)
  distinct := by
    refine nodup_cons.mpr ⟨fun mem => ?_, knows.distinct⟩
    obtain ⟨v, old, same⟩ := mem_map.mp mem
    have below := knows.below v old
    rw [same] at below
    exact Nat.lt_irrefl _ (Nat.lt_of_lt_of_le below fresh)

theorem lowerBinding_simulates (r : Resolver) (frame : Frame) (loop : Option LoopTargets) (span : Span)
    (isOpen : x.IsOpen) {p : Primitive} {at' nameSpan : Span}
    (primitive : ScalarType.ofPrimitive? p = some type) (written : isWritten name)
    (given : e.isScalar (typing vars) type) (knows : x.Knows vars) :
    Keeps (lowerBinding r name nameSpan (some (.primitive p at')) (some e) false) (x.spot isOpen)
      fun _ z => ∃ slot, z.toSite.Knows (⟨name, type, slot⟩ :: vars) ∧ x.tree.Around z.tree ∧
        Simulates frame loop vars (Holding vars) (⟨name, type, slot⟩ :: vars)
          (fun fuel env => (binding name nameSpan (some (.primitive p at')) (some e) false
            span).run fuel env) x.toSite z.toSite := by
  have typed : Ty.ofPrimitive p = type.ty := by
    cases p <;> first | cases primitive; done | (obtain rfl := Option.some.inj primitive; rfl)
  have known : type.ty.Known x.tree := by
    cases type <;> exact Ty.known_int _ (by decide)
  refine .tree_bind ?_
  rw [Resolver.type, pure_bind, typed]
  refine .bind (requireStorable_keeps _ _) ?_
  rintro _ _ - ⟨rfl, storable⟩
  refine .bind (temporary_keeps type.ty) ?_
  rintro _ y way ⟨-, rfl, slot, draft, block, tree, _⟩
  have state : ∀ f m, y.state f m = x.state f m := fun f m =>
    state_congr block ((x.spot isOpen).code_reserved type.ty.ir draft block) f
  have knows' := Site.Knows.flows (x := x.spot isOpen) knows way tree
  refine .bind (Expr.lowerInto_stores given knows' slot) fun _ z reached' stores => ?_
  have before := way.trans reached'
  refine (bindSlot_keeps (before.body x.between.body) (before.known known) storable
    (reached'.draft.slots _ _ slot)).mono ?_
  rintro _ w reached'' ⟨session, beside⟩
  have whole := before.trans reached''
  have grown : w.tree = x.tree.grown x.tree.current name
      (.var (Local.mk name type (x.spot isOpen).session.builder.nextTemp).entry) nameSpan := by
    rw [Site.tree, session]
    change z.tree.grown z.tree.current _ _ _ = _
    rw [stores.tree, tree]
    rfl
  refine ⟨_, Site.Knows.bind (x := x.spot isOpen) knows .refl written whole.advances
    ((reached'.trans reached'').draft.slots _ _ slot) grown, ?_, ?_⟩
  · rw [grown]
    exact ScopeTree.around_grown ..
  intro last args _ m env advanced _ stacked hold
  obtain ⟨v, n, m', evaluated, ofType, travels, stacked', content, others⟩ :=
    stores.runs last args m env (reached''.advances.trans advanced) stacked hold
  rw [state] at travels
  beta_reduce
  rw [run, evaluated]
  refine ⟨n, _, travels, w.isOpen, m', (beside.state last.draft).symm, stacked', ?_⟩
  refine .cons ⟨rfl, ofType, content⟩ (hold.congr fun u mem => ?_)
  have below := knows.below u mem
  exact others _ (Nat.lt_of_lt_of_le below way.lowers.temps) (Nat.ne_of_lt below)

theorem lowerAssignment_simulates (r : Resolver) (frame : Frame) (loop : Option LoopTargets)
    (span : Span) (isOpen : x.IsOpen) {at' : Span} {var : Local} (got : named? vars name = some var)
    (given : e.isScalar (typing vars) var.type) (knows : x.Knows vars) :
    Keeps (lowerAssignment r (.identifier name at') e) (x.spot isOpen) fun _ z =>
      z.tree = x.tree ∧ Simulates frame loop vars (Holding vars) vars
        (fun fuel env => (assign (.identifier name at') e span).run fuel env)
          x.toSite z.toSite := by
  have mem := mem_of_find?_eq_some got
  have place : Keeps ((Expr.identifier name at').lowerPlace r) (x.spot isOpen) fun p y =>
      p = { addr := .temp var.slot, type := var.type.ty } ∧ x.spot isOpen = y := by
    refine .bind (nameMeaning_local knows got true) ?_
    rintro _ _ - ⟨rfl, rfl⟩
    exact .pure ⟨rfl, rfl⟩
  refine .bind place ?_
  rintro _ _ - ⟨rfl, rfl⟩
  refine (Expr.lowerInto_stores (x := x.spot isOpen) given knows (knows.slots var mem)).mono ?_
  intro _ z _ stores
  refine ⟨stores.tree, fun last args _ m env advanced _ stacked hold => ?_⟩
  obtain ⟨v, n, m', evaluated, ofType, travels, stacked', content, others⟩ :=
    stores.runs last args m env advanced stacked hold
  beta_reduce
  rw [run, evaluated]
  refine ⟨n, _, travels, z.isOpen, m', rfl, stacked', ?_⟩
  refine (hold.assign knows.distinct got ofType).congr fun u among => ?_
  by_cases same : u.slot = var.slot
  · rw [same, content, slots_setSlot]
  · exact (others _ (knows.below u among) same).trans (if_neg same).symm

/-- A value is given back, at once or by way of the slot that `return` statements share. -/
theorem Returned.travels {y : Site} {last : Site} {z : Spot} {v : Value} {s : Scalar}
    (returned : Returned frame (some v) z y) (returns : frame.Sound z.toSite)
    (typed : frame.result = type.ty) (scalar : s.type = type) (way : z.toSite.Advances y)
    (advanced : y.Advances last) (closed : frame.Closed last) (args : List Cell) {m : Memory}
    (stacked : last.Stacked m) (given : v.cell? args m type.ty.ir = some s.cell) :
    ∃ n, last.draft.Travels args n (z.state last.draft m) (.returned (some s.cell)) := by
  have result : last.draft.result = type.ty.ir := by
    rw [(way.trans advanced).draft.result, returns.result, typed]
  cases returned with
  | direct exit ends =>
    have ended := advanced.draft.ended ends.ended
    rw [state_end ended]
    exact ⟨1, travels_ret ended (by rwa [result])⟩
  | @stored e slot v w exit held same reached' emits left ends =>
    cases same
    have ended := advanced.draft.ended ends.ended
    have later := left.advances.trans advanced
    obtain ⟨k, rfl, place⟩ := returns.slot slot held
    obtain ⟨n, exits⟩ := closed e (.temp k) exit held
    have address : m.temps k = some (.slot k) :=
      stacked _ _ ((way.trans advanced).draft.slots _ _ place)
    rw [typed] at emits exits
    have stored := emits.step rfl later (run_store address given)
    rw [state_end ended] at stored
    have code : last.draft.codeOf e = [.load n type.ty.ir (.temp k)] := by
      obtain ⟨b, here, code, -⟩ := exits
      rw [Ir.Function.codeOf, here, Option.map_some, Option.getD_some, code]
    have jumped : last.draft.Travels args 1 (.running w.block [] (m.setSlot k s.cell))
        (.running e (last.draft.codeOf e) (m.setSlot k s.cell)) := travels_jump ended
    have loaded : last.draft.Travels args 1 (.running e (last.draft.codeOf e) (m.setSlot k s.cell))
        (.running e [] ((m.setSlot k s.cell).setTemp n s.cell)) := by
      rw [code]
      exact Ir.Function.travels_inst
        (run_load args (m := m.setSlot k s.cell) address (slots_setSlot ..) n _)
    refine ⟨_, stored.trans (jumped.trans (loaded.trans (travels_ret exits ?_)))⟩
    exact temps_setTemp ..
  | bare exit without =>
  exfalso
  rcases without with none | none
  · have void := returns.void (by rw [exit]; rfl) none
    rw [typed] at void
    cases type <;> cases void
  · cases none

end

variable {frame : Frame} {loop : Option LoopTargets} {vars : List Local} {last : Site}
  {args : List Cell} {fuel : Nat} {m : Memory} {env : Env}
  {run run' : Nat → Env → Option (Outcome × Env)}

theorem Side.matches {block : Option Nat} {next : Nat} {u z : Site}
    (side : Side (fun w e => Simulates frame loop vars (Holding vars) vars run w.toSite e.toSite) block
      next u z) (bare : block = none → run fuel env = some (.normal, env))
    (advanced : z.Advances last) (closed : frame.Closed last) (stacked : last.Stacked m)
    (hold : Hold m vars env) :
    last.draft.Matches args fuel
      (.running (block.getD next) (last.draft.codeOf (block.getD next)) m)
      (After last frame loop (Holding vars) (AtBlock last next (Holding vars))) (run fuel env) := by
  cases block with
  | none =>
    rw [bare rfl]
    exact ⟨0, _, .refl _, m, rfl, stacked, hold⟩
  | some id =>
  obtain ⟨w, e, rfl, empty, -, -, -, simulates, way, ended⟩ := side id rfl
  have matched := simulates last args fuel m env (way.advances.trans advanced) closed stacked hold
  rw [state_bare empty] at matched
  cases given : run fuel env with
  | none =>
    rw [given] at matched
    exact matched
  | some done =>
  rw [given] at matched
  obtain ⟨outcome, _⟩ := done
  obtain ⟨n, s, travels, there⟩ := matched
  cases outcome with
  | normal =>
    obtain ⟨isOpen, m', rfl, stacked', hold'⟩ := there
    have closes := advanced.draft.ended (ended isOpen)
    rw [state_end closes] at travels
    exact ⟨n + 1, _, travels.trans (travels_jump closes), m', rfl, stacked', hold'⟩
  | leave | again | returned v => exact ⟨n, s, travels, there⟩

def branchRun (cond : Expr) (fst snd : Nat → Env → Option (Outcome × Env)) (fuel : Nat)
    (env : Env) : Option (Outcome × Env) :=
  match cond.eval env with
  | some (.bool true) => fst fuel env
  | some (.bool false) => snd fuel env
  | _ => none

theorem Branches.simulates {x : Junction} {isOpen : x.IsOpen} {cond : Expr} {bare bare' : Bool}
    {v : TypedValue} {u : Spot} {yes no : Option Nat} {z : Junction} (knows : x.Knows vars)
    (branches : Branches bare bare' (fun v u => Evaluates vars cond .bool (x.spot isOpen) v u)
      (fun w e => Simulates frame loop vars (Holding vars) vars run w.toSite e.toSite)
      (fun w e => Simulates frame loop vars (Holding vars) vars run' w.toSite e.toSite) v u yes no z)
    (idle : bare → ∀ fuel env, run fuel env = some (.normal, env))
    (idle' : bare' → ∀ fuel env, run' fuel env = some (.normal, env)) :
    Simulates frame loop vars (Holding vars) vars (branchRun cond run run') x.toSite z.toSite := by
  intro last args fuel m env advanced closed stacked hold
  obtain ⟨s, evaluated, typed, n, _, travels, kept, stacked', given⟩ :=
    branches.holds.runs last args m env (branches.reached.advances.trans advanced) stacked hold
  obtain ⟨b, rfl⟩ := Scalar.bool_of_type typed
  have hold' := hold.keeps knows.below kept
  have ended := advanced.draft.ended branches.ended
  rw [state_end ended] at travels
  have front := travels.trans (travels_branch ended branches.holds.operand given)
  refine .before front ?_
  have arrived : ∀ {given : Option (Outcome × Env)} {s : State}, last.draft.Matches args fuel s
      (After last frame loop (Holding vars) (AtBlock last z.block (Holding vars))) given →
      last.draft.Matches args fuel s
        (After last frame loop (Holding vars) (Behind last z.toSite vars)) given :=
    fun matched => matched.mono fun _ _ _ done =>
      done.mono (fun _ h => h) fun there => there.behind branches.code branches.isOpen
  rw [branchRun, evaluated]
  cases b with
  | true =>
    refine arrived (branches.first.matches (fun none => idle ?_ _ _) advanced closed stacked' hold')
    rw [← branches.sides.1, none]
    rfl
  | false =>
    refine arrived (branches.second.matches (fun none => idle' ?_ _ _) advanced closed stacked' hold')
    rw [← branches.sides.2, none]
    rfl

section

variable {x h z : Junction} {cond : Expr} {bare : Bool} {v : TypedValue} {u : Spot}
  {lies : Option Nat} (knows : x.Knows vars)
  (loops : Loops bare (fun h v u => ∃ isOpen, Evaluates vars cond .bool (h.spot isOpen) v u)
    (fun targets w e => Simulates frame (some targets) vars (Holding vars) vars run w.toSite e.toSite)
    x h v u lies z)
  (idle : bare → ∀ fuel env, run fuel env = some (.normal, env))

include knows loops idle

theorem Loops.round (args : List Cell) (fuel : Nat) (advanced : z.toSite.Advances last)
    (closed : frame.Closed last) (stacked : last.Stacked m)
    (hold : Hold m vars env) : ∃ b n m', cond.eval env = some (.bool b) ∧
      last.Stacked m' ∧ Hold m' vars env ∧
      last.draft.Travels args (n + 1) (.running h.block (last.draft.codeOf h.block) m)
        (.running (if b then lies.getD h.block else z.block)
          (last.draft.codeOf (if b then lies.getD h.block else z.block)) m') ∧
      last.draft.Matches args fuel
        (.running (lies.getD h.block) (last.draft.codeOf (lies.getD h.block)) m')
        (After last frame (some ⟨h.block, z.block⟩) (Holding vars)
          (AtBlock last h.block (Holding vars))) (run fuel env) := by
  obtain ⟨isOpen, evaluates⟩ := loops.holds
  obtain ⟨s, evaluated, typed, n, m', travels, kept, stacked', given⟩ :=
    evaluates.runs last args m env (loops.reached.advances.trans advanced) stacked hold
  obtain ⟨b, rfl⟩ := Scalar.bool_of_type typed
  have below : ∀ v ∈ vars, v.slot < h.nextTemp := fun v mem =>
    Nat.lt_of_lt_of_le (knows.below v mem) loops.passes.lowers.temps
  have hold' := hold.keeps below kept
  have ended := advanced.draft.ended loops.ended
  rw [state_end ended, show (h.spot isOpen).state last.draft m = _ from
    state_bare loops.heads.code] at travels
  refine ⟨b, n, m', evaluated, stacked', hold',
    travels.trans (travels_branch ended evaluates.operand given), ?_⟩
  refine loops.body.matches (fun none => idle ?_ _ _) advanced closed stacked' hold'
  rw [← loops.side, none]
  rfl

theorem Loops.rounds (args : List Cell) (fuel : Nat) (loop : Option LoopTargets)
    (advanced : z.toSite.Advances last) (closed : frame.Closed last) :
    ∀ limit m env, limit ≤ fuel → last.Stacked m → Hold m vars env → last.draft.Matches args limit
        (.running h.block (last.draft.codeOf h.block) m)
        (After last frame loop (Holding vars) (Behind last z.toSite vars))
        (iterate (fun env => cond.eval env) (fun env => run fuel env) limit env) := by
  intro limit
  induction limit with
  | zero => exact fun m env _ _ _ => rfl
  | succ limit ih =>
  intro m env within stacked hold
  obtain ⟨b, n, m', evaluated, stacked', hold', front, matched⟩ :=
    loops.round knows idle args fuel advanced closed stacked hold
  rw [iterate, evaluated]
  cases b with
  | false =>
    exact ⟨n + 1, _, front, AtBlock.behind ⟨m', rfl, stacked', hold'⟩ loops.code loops.isOpen⟩
  | true =>
  -- The next round begins after one step at least, so that fuel and steps keep pace.
  have again : ∀ {k : Nat} {s : State} {env' : Env}, last.draft.Travels args k
      (.running (lies.getD h.block) (last.draft.codeOf (lies.getD h.block)) m') s →
      AtBlock last h.block (Holding vars) env' s → last.draft.Matches args (limit + 1)
        (.running h.block (last.draft.codeOf h.block) m)
        (After last frame loop (Holding vars) (Behind last z.toSite vars))
        (iterate (fun env => cond.eval env) (fun env => run fuel env) limit env') := by
    rintro k _ env' travels ⟨m'', rfl, stacked'', hold''⟩
    have rest := ih m'' env' (Nat.le_of_succ_le within) stacked'' hold''
    have whole := front.trans travels
    cases given : iterate (fun env => cond.eval env) (fun env => run fuel env) limit env' with
    | none =>
      rw [given] at rest
      exact (whole.leads.lasts rest).shorter (by omega)
    | some =>
      rw [given] at rest
      obtain ⟨_, s', travels', there⟩ := rest
      exact ⟨_, s', whole.trans travels', there⟩
  cases given : run fuel env with
  | none =>
    rw [given] at matched
    exact (front.leads.lasts matched).shorter (by omega)
  | some done =>
  rw [given] at matched
  obtain ⟨outcome, _⟩ := done
  obtain ⟨k, s, travels, there⟩ := matched
  cases outcome with
  | normal => exact again travels there
  | again =>
    obtain ⟨_, same, there⟩ := there
    cases same
    exact again travels there
  | leave =>
    obtain ⟨_, same, there⟩ := there
    cases same
    exact ⟨_, s, front.trans travels, there.behind loops.code loops.isOpen⟩
  | returned => exact ⟨_, s, front.trans travels, there⟩

theorem Loops.simulates : Simulates frame loop vars (Holding vars) vars
      (fun fuel env => iterate (fun env => cond.eval env) (fun env => run fuel env) fuel env)
      x.toSite z.toSite := by
  intro _ args fuel m env advanced closed stacked hold
  have rounds := loops.rounds knows idle args fuel loop advanced closed fuel m env
    .refl stacked hold
  rcases loops.heads.linked with rfl | ended
  · rw [state_bare loops.heads.code]
    exact rounds
  have ended' := (loops.flows.toFollows.trans loops.reached).advances.trans advanced
    |>.draft.ended ended
  rw [state_end ended']
  exact .before (travels_jump ended') rounds

end

theorem nested_simulates {x y e z : Site} {stmts : List Stmt} {span : Span} {behind : List Local}
    (suffix : vars <:+ behind) (before : x.Beside y) (after : e.Beside z) (advances : e.Advances z)
    (inner : Simulates frame loop vars (HoldingMore vars) behind
      (fun fuel env => runAll fuel stmts env) y e) :
    Simulates frame loop vars (Holding vars) vars (fun fuel env => (Block.mk stmts span).run fuel env)
      x z := by
  intro last args fuel m env advanced closed stacked hold
  have matched := inner last args fuel m env (advances.trans advanced) closed stacked hold
  rw [before.state] at matched
  beta_reduce at matched ⊢
  rw [Block.run]
  have outer : ∀ {inner : Env} (m : Memory), HoldingMore vars m inner →
      Holding vars m (inner.drop (inner.length - env.length)) := by
    rintro _ m ⟨_, suffix, hold'⟩
    exact hold'.drop suffix hold.length
  cases given : runAll fuel stmts env with
  | none =>
    rw [given] at matched
    exact matched
  | some =>
  rw [given] at matched
  obtain ⟨n, s, travels, there⟩ := matched
  refine ⟨n, s, travels, there.mono outer ?_⟩
  rintro ⟨isOpen, m', rfl, stacked', hold'⟩
  exact ⟨after.isOpen isOpen, m', (after.state last.draft).symm, stacked', outer m' ⟨_, suffix, hold'⟩⟩

theorem sequence_simulates {x y z : Site} {fst : Stmt} {rest : List Stmt}
    {middle behind : List Local} (suffix : vars <:+ middle) (advances : y.Advances z)
    (one : Simulates frame loop vars (Holding vars) middle (fun fuel env => fst.run fuel env) x y)
    (more : y.IsOpen → Simulates frame loop middle (HoldingMore middle) behind
      (fun fuel env => runAll fuel rest env) y z) :
    Simulates frame loop vars (HoldingMore vars) behind
      (fun fuel env => runAll fuel (fst :: rest) env) x z := by
  intro last args fuel m env advanced closed stacked hold
  have matched := one last args fuel m env (advances.trans advanced) closed stacked hold
  beta_reduce at matched ⊢
  rw [runAll]
  cases given : fst.run fuel env with
  | none =>
    rw [given] at matched
    exact matched
  | some done =>
  rw [given] at matched
  obtain ⟨outcome, env'⟩ := done
  obtain ⟨n, s, travels, there⟩ := matched
  cases outcome with
  | normal =>
    obtain ⟨isOpen, m', rfl, stacked', hold'⟩ := there
    refine .before travels ?_
    refine (more isOpen last args fuel m' env' advanced closed stacked' hold').mono ?_
    refine fun _ _ _ done => done.mono ?_ fun h => h
    rintro m ⟨deeper, suffix', hold''⟩
    exact ⟨deeper, suffix.trans suffix', hold''⟩
  | leave | again =>
    obtain ⟨targets, same, there⟩ := there
    exact ⟨n, s, travels, targets, same, there.mono fun _ h => ⟨vars, suffix_rfl, h⟩⟩
  | returned => exact ⟨n, s, travels, there⟩

end Stencil
