import Stencil.Proofs.Meaning.Stmt
import Stencil.Proofs.Program.Bodies

namespace Stencil

open Analysis Tracked Ir List Option Local Scalar ScalarType FuncDecl

section

variable {f : Function} {args : List Cell}

theorem travels_slots (i : Nat) (rest : List Inst) : ∀ slots m,
    (∀ inst ∈ slots, inst.isAlloca) → ∃ n m',
      f.Travels args n (.running i (slots ++ rest) m) (.running i rest m') ∧
        (∀ k, m.temps k = some (.slot k) → m'.temps k = some (.slot k)) ∧
          ∀ k type, .alloca k type ∈ slots → m'.temps k = some (.slot k)
  | [], m, _ => ⟨0, m, .refl _, fun _ h => h, fun _ _ mem => by cases mem⟩
  | inst :: slots, m, all => by
    cases inst with
    | alloca k =>
      obtain ⟨n, m', travels, kept, made⟩ := travels_slots i rest slots (m.reserve k)
        fun inst mem => all inst (.tail _ mem)
      have here : (m.reserve k).temps k = some (.slot k) := if_pos rfl
      refine ⟨1 + n, m', (Ir.Function.travels_inst rfl).trans travels, fun k' old => kept k' ?_,
        fun k' type' mem => ?_⟩
      · by_cases same : k' = k
        · rw [same]
          exact here
        · exact (if_neg same).trans old
      rcases mem_cons.mp mem with same | later
      · obtain ⟨rfl, -⟩ := Ir.Inst.alloca.inj same
        exact kept _ here
      · exact made k' type' later
    | _ => cases all _ (.head _)

theorem Site.start_block (last : Site) : last.draft.start.block? = some 0 := by
  rw [Ir.Function.start, Ir.Function.enter, getElem?_eq_getElem last.inhabited]
  rfl

theorem Site.travels_start (last : Site) (args : List Cell) : ∃ n m,
    last.draft.Travels args n last.draft.start (.running 0 (last.draft.codeOf 0) m) ∧
      last.Stacked m := by
  obtain ⟨b, here⟩ : ∃ b, last.draft.blocks[0]? = some b :=
    ⟨_, getElem?_eq_getElem last.inhabited⟩
  obtain ⟨slots, rest, whole, all, none⟩ := (last.built.fits 0 b here).slots
  have code : last.draft.codeOf 0 = rest := by
    rw [Ir.Function.codeOf, here, map_some, getD_some, Ir.Block.code, whole,
      filter_append, filter_eq_nil_iff.mpr, filter_eq_self.mpr, nil_append]
    · intro inst mem
      rw [none inst mem]
      rfl
    intro inst mem
    rw [all inst mem]
    simp
  have start : last.draft.start = .running 0 (slots ++ rest) .empty := by
    rw [Ir.Function.start, Ir.Function.enter, here, ← whole]
  obtain ⟨n, m, travels, -, made⟩ := travels_slots 0 rest slots .empty all
  rw [start, code]
  refine ⟨n, m, travels, fun k type slot => ?_⟩
  obtain ⟨_, fst, mem⟩ := slot
  cases here.symm.trans fst
  rw [whole] at mem
  rcases mem_append.mp mem with slot | other
  · exact made k type slot
  · cases none _ other

end

def Local.ofParams : Nat → List Param → List ScalarType → List Local → List Local
  | k, param :: params, type :: types, vars =>
    ofParams (k + 1) params types (⟨param.name, type, k⟩ :: vars)
  | _, _, _, vars => vars

theorem Local.typing_ofParams (params : List Param) : ∀ types k
    (vars : List Local), typing (ofParams k params types vars) =
      ((params.map Param.name).zip types).reverse ++ typing vars := by
  induction params with
  | nil =>
    intro _ k _
    rfl
  | cons param params ih =>
  intro types k _
  cases types with
  | nil => rfl
  | cons =>
    rw [ofParams, ih, map_cons, zip_cons_cons, reverse_cons, append_assoc]
    rfl

section

variable {x y z : Spot} {params : List Param} {vars : List Local}

structure ParamsHeld (params : List Param) (types : List ScalarType) (index : Nat)
    (vars : List Local) (x z : Spot) : Prop where
  knows : z.toSite.Knows (ofParams index params types vars)
  runs : ∀ last args given m env,
    z.toSite.Advances last → last.Stacked m → Hold m vars env →
      args.drop index = given.map cell → given.map Scalar.type = types →
        ∃ n m', last.draft.Travels args n (x.state last.draft m) (z.state last.draft m') ∧
          last.Stacked m' ∧ Hold m' (ofParams index params types vars)
            (((params.map Param.name).zip given).reverse ++ env)

theorem BindsParams.held {index : Nat} {tys : List Ty} (binds : BindsParams index params tys x z) :
    ∀ types vars, tys = types.map ty →
      params.length = types.length → (∀ p ∈ params, isWritten p.name) →
      x.toSite.Knows vars → x.nextTemp = index →
        x.Flows z ∧ ParamsHeld params types index vars x z := by
  induction binds with
  | @done index params tys x exceeded =>
    rintro types vars rfl length - knows -
    obtain ⟨rfl, rfl⟩ : params = [] ∧ types = [] := by
      rcases exceeded with rfl | empty
      · exact ⟨rfl, length_eq_zero_iff.mp length.symm⟩
      obtain rfl := map_eq_nil_iff.mp empty
      exact ⟨length_eq_zero_iff.mp length, rfl⟩
    exact ⟨.refl x, knows, fun last args given m env _ stacked hold _ _ =>
      ⟨0, m, .refl _, stacked, hold⟩⟩
  | @next index param params type tys x y z binds way rest ih =>
  rintro types vars same length written knows rfl
  cases types with
  | nil => cases same
  | cons type types =>
  obtain ⟨rfl, rfl⟩ := List.cons.inj same
  have knows' : y.toSite.Knows (⟨param.name, type, x.nextTemp⟩ :: vars) :=
    knows.bind .refl (written param (.head _)) way.advances binds.slot binds.tree
  obtain ⟨more, held⟩ := ih types _ rfl (Nat.succ.inj length)
    (fun p mem => written p (.tail _ mem)) knows' binds.temps
  refine ⟨way.trans more, held.knows,
    fun last args given m env advanced stacked hold front typed => ?_⟩
  cases given with
  | nil => cases typed
  | cons s given =>
  obtain ⟨scalar, typed⟩ := List.cons.inj typed
  have passed : args[x.nextTemp]? = some s.cell := by
    rw [← head?_drop, front]
    rfl
  have later : args.drop (x.nextTemp + 1) = given.map cell := by
    rw [← tail_drop, front]
    rfl
  have toLast := more.advances.trans advanced
  have address := stacked _ _ (toLast.draft.slots _ _ binds.slot)
  have stored := step_code binds.block binds.code toLast (run_store address passed)
  have hold' : Hold (m.setSlot x.nextTemp s.cell)
      (⟨param.name, type, x.nextTemp⟩ :: vars) ((param.name, s) :: env) :=
    .cons ⟨rfl, scalar, Ir.Memory.slots_setSlot ..⟩
      (hold.congr fun v mem => if_neg (Nat.ne_of_lt (knows.below v mem)))
  obtain ⟨n, m', travels, stacked', hold''⟩ :=
    held.runs last args given _ _ advanced (stacked.setSlot _ _) hold' later typed
  refine ⟨1 + n, m', stored.trans travels, stacked', ?_⟩
  rw [map_cons, zip_cons_cons, reverse_cons, append_assoc]
  exact hold''

end

section

variable {z : Junction} {last : Site} {frame : Frame}

theorem Ir.Terminator.mem_successors {t : Terminator} {target : Nat} (taken : target ∈ t.taken) :
    target ∈ t.successors := by
  cases t with
  | branch cond =>
    cases cond with
    | int =>
      rw [mem_singleton.mp taken]
      split <;> simp [Ir.Terminator.successors]
    | _ => exact taken
  | _ => exact taken

theorem Junction.Finishes.reaches (finishes : z.Finishes last frame) (way : z.Follows last)
    (waiting : ∀ i ∈ z.waiting, frame.exit = some i)
    (slot : ∀ e, frame.exit = some e → ∃ v, frame.slot = some v) {a : Nat}
    (path : last.draft.Reaches a z.block) (lies : a < z.draft.size) :
    z.draft.Reaches a z.block := by
  generalize same : z.block = goal at path ⊢
  induction path with
  | here => exact .here _
  | @step a b c fst more ih =>
  subst same
  obtain ⟨_, there, next⟩ := fst
  have here := getElem?_eq_getElem lies
  generalize z.draft.blocks[a] = block at here
  cases done : block.terminator with
  | some t =>
    have ended : last.draft.Ended a block.code t := way.draft.ended ⟨block, here, rfl, done⟩
    obtain ⟨_, there', -, done'⟩ := ended
    cases there.symm.trans there'
    rw [Ir.Block.taken, done'] at next
    have taken : b ∈ block.taken := by
      rw [Ir.Block.taken, done]
      exact next
    have successor : b ∈ block.successors := by
      rw [Ir.Block.successors, done]
      exact Ir.Terminator.mem_successors next
    exact .step ⟨block, here, taken⟩ (ih ((z.built.fits a block here).targets b successor).2 rfl)
  | none =>
  by_cases end' : a = z.block
  · subst end'
    exact .here _
  -- Only the exit block was left, and it returns.
  have unfinished : a ∈ z.waiting := by
    by_contra other
    have ended := z.pending.ended a block here end' other
    rw [Ir.Block.isTerminated, done] at ended
    cases ended
  have exit := waiting a unfinished
  obtain ⟨v, held⟩ := slot a exit
  obtain ⟨k, _, there', -, returns⟩ := finishes.stored a v exit held
  cases there.symm.trans there'
  rw [Ir.Block.taken, returns] at next
  cases next

end

section

variable {frame : Frame} {vars : List Local} {result : ScalarType} {body : Block} {y z : Junction}
  {last : Site}

/-- The statements of a body end with a `return`, or they go on as long as fuel lasts. -/
theorem Carries.returns (carries : Carries frame none vars vars (fun fuel env => body.run fuel env) y z)
    (typed : frame.result = result.ty) (way : z.Follows last) (finishes : z.Finishes last frame)
    (sound : frame.Sound z.toSite) (waiting : z.waiting = frame.exit.toList) {args : List Cell}
    {n : Nat} {m : Memory} {env : Env}
    (start : last.draft.Travels args n last.draft.start (y.state last.draft m))
    (stacked : last.Stacked m) (hold : Hold m vars env) (fuel : Nat) :
    (body.run fuel env = none ∧ last.draft.Lasts args fuel last.draft.start) ∨
      ∃ v env' n, body.run fuel env = some (.returned v, env') ∧ v.type = result ∧
        last.draft.Leads args n last.draft.start (.returned (some v.cell)) := by
  have notVoid : frame.result.isVoid = false := by
    rw [typed]
    cases result <;> rfl
  have matched := carries.simulates last args fuel m env way.advances finishes.stored stacked hold
  beta_reduce at matched
  cases given : body.run fuel env with
  | none =>
    rw [given] at matched
    exact .inl ⟨rfl, (start.leads.lasts matched).shorter (Nat.le_add_left ..)⟩
  | some done =>
  rw [given] at matched
  obtain ⟨outcome, env'⟩ := done
  obtain ⟨k, s, travels, there⟩ := matched
  have whole := start.trans travels
  cases outcome with
  | normal =>
    exfalso
    obtain ⟨isOpen, _, rfl, -⟩ := there
    obtain ⟨t, falls, -⟩ := finishes.falls isOpen
    obtain ⟨b, fst, path⟩ := whole.reaches z.block rfl
    obtain rfl : 0 = b := Option.some.inj (last.start_block.symm.trans fst)
    have slot : ∀ e, frame.exit = some e → ∃ v, frame.slot = some v := by
      intro e exit
      cases held : frame.slot with
      | some v => exact ⟨v, rfl⟩
      | none =>
        have void := sound.void (by rw [exit]; rfl) held
        rw [notVoid] at void
        cases void
    have exits : ∀ i ∈ z.waiting, frame.exit = some i := fun i mem => by
      rw [waiting] at mem
      exact mem_toList.mp mem
    cases falls with
    | exit void _ | ret void _ =>
      rw [notVoid] at void
      cases void
    | unreachable _ unreached =>
    have got := Ir.Function.isReachable_of_reaches
      (finishes.reaches way exits slot path z.inhabited)
    rw [unreached] at got
    cases got
  | leave | again =>
    obtain ⟨_, none, -⟩ := there
    cases none
  | returned v =>
  obtain ⟨ofType, rfl⟩ := there
  refine .inr ⟨v, env', _, rfl, ?_, whole.leads⟩
  rw [typed] at ofType
  cases of : v.type <;> cases result <;> rw [of] at ofType <;> first | rfl | cases ofType

end

/-- A call of a function gives back what its declaration says, in finitely many steps if and only if
the declaration gives back something, and it never comes to where it should not. -/
structure Ir.Function.Computes (f : Function) (d : FuncDecl) (result : ScalarType)
    (args : List Scalar) : Prop where
  gives : ∀ v, v.type = result → ((∃ n, f.after (args.map cell) n = .returned (some v.cell)) ↔
    ∃ fuel, d.call fuel args = some v)
  safe : ∀ n, f.after (args.map cell) n ≠ .unreachable ∧
    f.after (args.map cell) n ≠ .stuck

section

variable {d : FuncDecl} {body : Block} {args : List Scalar} {fuel : Nat} {f : Function}
  {result : ScalarType}

theorem FuncDecl.call_none (has : d.body = some body) (endless : body.run fuel (d.bind args) = none) :
    d.call fuel args = none := by
  simp [call, has, endless]

theorem FuncDecl.call_returned (has : d.body = some body) {v : Scalar} {env : Env}
    (returned : body.run fuel (d.bind args) = some (.returned v, env)) :
    d.call fuel args = some v := by
  simp [call, has, returned]

theorem computes_of_returns (has : d.body = some body)
    (either : ∀ fuel, (body.run fuel (d.bind args) = none ∧ f.Lasts (args.map cell) fuel f.start) ∨
      ∃ v env n, body.run fuel (d.bind args) = some (.returned v, env) ∧ v.type = result ∧
        f.Leads (args.map cell) n f.start (.returned (some v.cell))) :
    f.Computes d result args where
  gives v typed := by
    constructor
    · rintro ⟨n, returned⟩
      refine ⟨n, ?_⟩
      rcases either n with ⟨-, lasts⟩ | ⟨_, _, k, given, typed', leads⟩
      · rw [Ir.Function.Lasts, show (f.step _)^[n] f.start = _ from returned] at lasts
        cases lasts
      have same := leads.unique returned rfl rfl
      obtain rfl := cell_injective (typed'.trans typed.symm)
        (Option.some.inj (Ir.State.returned.inj same))
      exact call_returned has given
    rintro ⟨fuel, given⟩
    rcases either fuel with ⟨endless, -⟩ | ⟨_, _, n, returned, -, leads⟩
    · rw [call_none has endless] at given
      cases given
    rw [call_returned has returned] at given
    cases given
    exact ⟨n, leads⟩
  safe n := by
    rcases either n with ⟨-, lasts⟩ | ⟨v, _, k, -, -, leads⟩
    · rw [Ir.Function.Lasts] at lasts
      constructor <;>
      · intro bad
        rw [show (f.step _)^[n] f.start = _ from bad] at lasts
        cases lasts
    constructor <;>
    · intro bad
      have same := leads.unique (show f.Leads _ n f.start _ from bad) rfl rfl
      cases same

end

variable {s s' : Session} {id : ScopeId} {e : FunctionEntry} {code : Nat} {body : Block}
  {f : Function} {receiver : List Ir.Ty} {params : List ScalarType} {result : ScalarType}
  {frame : Frame} {u w : Spot} {y : Junction}

structure Junction.Called (x y : Junction) (frame : Frame) (d : FuncDecl) (params : List ScalarType)
    (result : ScalarType) : Prop where
  typed : frame.result = result.ty
  isOpen : y.IsOpen
  waiting : y.waiting = frame.exit.toList ++ x.waiting
  knows : y.Knows (ofParams 0 d.params params [])
  runs : ∀ last args m, y.toSite.Advances last →
    last.Stacked m → args.map Scalar.type = params →
      ∃ n m', last.draft.Travels (args.map cell) n (x.state last.draft m)
        (y.state last.draft m') ∧ last.Stacked m' ∧
          Hold m' (ofParams 0 d.params params []) (d.bind args)

theorem BodyStarts.called {x : Junction} {isOpen : x.IsOpen} {d : FuncDecl} {returns : Nat}
    (starts : BodyStarts (x.spot isOpen) d
      { params := params.map ty, result := result.ty, member := false } returns 0 u w frame y)
    (fst : x.nextTemp = 0) (length : d.params.length = params.length)
    (written : ∀ p ∈ d.params, isWritten p.name) :
    x.Called y frame d params result := by
  obtain ⟨⟨-, same⟩, ⟨binds, -⟩, isOpen', frames⟩ := starts
  obtain rfl := same rfl
  have nothing : (x.spot isOpen).toSite.Knows [] :=
    { sees := fun _ _ _ got => (some_ne_none _ got.symm).elim
      written := fun _ member => (not_mem_nil member).elim
      slots := fun _ member => (not_mem_nil member).elim
      distinct := .nil }
  obtain ⟨flows, held⟩ := binds.held params [] rfl length written nothing fst
  refine ⟨frames.result, isOpen', ?_, held.knows.later frames.tree frames.reached.draft.slots,
    fun last args m advanced stacked typed => ?_⟩
  · rw [show y.waiting = _ from frames.waiting, flows.waiting]
    rfl
  obtain ⟨n, m', travels, stacked', hold⟩ := held.runs last (args.map cell) args m []
    (frames.reached.advances.trans advanced) stacked .nil rfl typed
  rw [append_nil] at hold
  refine ⟨n, m', ?_, stacked', hold⟩
  rw [show y.state last.draft m' = w.state last.draft m' from
    Site.state_congr frames.block frames.code last.draft]
  exact travels

theorem Session.Ready.computes (ready : s.Ready id e code body f receiver)
    (sig : e.signature = { params := params.map ty, result := result.ty, member := false })
    (fragment : e.decl.isScalar params result) (run : lowerFunction id s = .ok () s') :
    ∃ g, s'.builder.functions[code]? = some g ∧
      ∀ args, args.map Scalar.type = params → g.Computes e.decl result args := by
  obtain ⟨fine, lies⟩ := Bool.and_eq_true_iff.mp fragment
  obtain ⟨length, written⟩ := Bool.and_eq_true_iff.mp fine
  have length := of_decide_eq_true length
  have written := List.all_eq_true.mp written
  rw [ready.body, any_some] at lies
  have receives := ready.receives
  rw [sig] at receives
  obtain rfl : receiver = [] := receives
  let vars := ofParams 0 e.decl.params params []
  have built := ready.lowerFunction_leads
    (fun frame y z => Carries frame none vars vars (fun fuel env => body.run fuel env) y z) ?_
  · unfold Leads at built
    rw [run] at built
    obtain ⟨-, u, w, frame, y, z, last, starts, passes, carries, way, finishes, function⟩ := built
    rw [sig] at starts
    have called : ready.junction.Called y frame e.decl params result :=
      starts.called rfl length written
    obtain ⟨_, frames⟩ := starts.frame
    refine ⟨last.draft, function, fun args typed => computes_of_returns ready.body fun fuel => ?_⟩
    obtain ⟨n, m, start, stacked⟩ := last.travels_start (args.map cell)
    obtain ⟨k, _, travels, stacked', hold⟩ := called.runs last args m
      (passes.advances.trans way.advances) stacked typed
    have here : ready.junction.state last.draft m = .running 0 (last.draft.codeOf 0) m :=
      Site.state_bare rfl
    refine carries.returns called.typed way finishes (frames.sound.mono passes.advances) ?_
      (start.trans travels) stacked' hold fuel
    rw [passes.waiting, called.waiting]
    exact append_nil _
  intro u w frame y starts sound
  rw [sig] at starts
  have called : ready.junction.Called y frame e.decl params result :=
    starts.called rfl length written
  refine lowerBlock_carries s.resolver frame called.typed body none vars y called.isOpen sound
    (fun _ same => by cases same) called.knows ?_
  rw [typing_ofParams, show typing [] = [] from rfl, append_nil]
  exact lies

end Stencil
