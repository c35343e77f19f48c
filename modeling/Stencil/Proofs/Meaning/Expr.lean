import Stencil.Proofs.Meaning.Execution

namespace Stencil

open Analysis Tracked Ir Expr ScalarType Scalar Ir.Terminator List Ir.Function Local Ir.Memory
  Ir.Inst BinaryOp

variable {type result : ScalarType} {op : BinaryOp}

theorem ScalarType.result_logical (logical : op.isLogical) (given : type.result? op = some result) :
    type = .bool ∧ result = .bool := by
  cases type <;> cases op <;> first | cases logical; done | cases given; done | skip
  all_goals exact ⟨rfl, (Option.some.inj given).symm⟩

theorem ScalarType.result_ty (plain : op.isLogical = false)
    (given : type.result? op = some result) : op.resultType type.ty = result.ty := by
  cases type <;> cases op <;> first | cases given; done | cases plain; done | skip
  all_goals exact Option.some.inj given ▸ rfl

variable {b : Bool}

section

variable {args : List Cell} {m m' : Memory} {v : Value}

theorem Site.Usable.cell {x : Site} {type : Ir.Ty} (usable : x.Usable v type)
    (kept : m.Keeps x.nextTemp m') (at' : Ir.Ty) :
    v.cell? args m' at' = v.cell? args m at' := by
  cases v with
  | temp k =>
    refine kept.temps k (Nat.lt_of_not_le fun above => ?_)
    have typed : x.types k = some type := usable.2
    rw [x.built.unknown k above] at typed
    cases typed
  | int n | float a | param k | global name | function name | undef => rfl

theorem word_int {a : BitVec 32} (given : v.cell? args m (.int 32) = some (Scalar.int a).cell) :
    v.word? args m 32 = some a := by
  rw [Ir.Value.word?, given]
  exact congrArg some (BitVec.ofNat_toNat ..)

theorem word_bool (given : v.cell? args m .bool = some (Scalar.bool b).cell) :
    v.word? args m 1 = some (.ofBool b) := by
  rw [Ir.Value.word?, given]
  cases b <;> rfl

theorem cell_truth (b : Bool) : (truth b).value.cell? args m .bool = some (Scalar.bool b).cell := by
  cases b <;> rfl

theorem cell_setSlot (k : Nat) (c : Cell) (type : Ir.Ty) :
    v.cell? args (m.setSlot k c) type = v.cell? args m type := by
  cases v <;> rfl

def Operand (type : ScalarType) (v : Value) : Prop :=
  (∃ k, v = .temp k) ∨ type = .bool ∧ ∃ b, v = (truth b).value

theorem travels_branch {last : Site} {i yes no : Nat} {code : List Inst}
    (ended : last.draft.Ended i code (.branch v yes no)) (arg : Operand .bool v)
    (given : v.cell? args m .bool = some (Scalar.bool b).cell) :
    last.draft.Travels args 1 (.running i [] m)
      (.running (if b then yes else no) (last.draft.codeOf (if b then yes else no)) m) := by
  refine travels_end ended ?_ (by cases b <;> simp [successors]) ?_
  · rcases arg with ⟨k, rfl⟩ | ⟨-, b', rfl⟩
    · cases b <;> simp [taken, successors]
    -- A constant decides which way is taken, also in the source.
    have same : b = b' := by
      have inverse := given.symm.trans (cell_truth b')
      cases b <;> cases b' <;> first | rfl | cases inverse
    subst same
    cases b <;> exact mem_singleton_self _
  rw [leave, word_bool given]
  cases b <;> rfl

end

def Computes (last : Site) (args : List Cell) (m : Memory) (x y : Spot) (v : Value)
    (s : Scalar) : Prop :=
  ∃ n m', last.draft.Travels args n (x.state last.draft m) (y.state last.draft m') ∧
    m.Keeps x.nextTemp m' ∧ last.Stacked m' ∧
      v.cell? args m' s.type.ty.ir = some s.cell

structure Evaluates (vars : List Local) (e : Expr) (type : ScalarType) (x : Spot) (v : TypedValue)
    (y : Spot) : Prop where
  sound : v.Sound y
  typed : v.type = type.ty
  shape : (∃ k, v.value = .temp k) ∨ type = .bool ∧ ∃ b, v = truth b
  tree : y.tree = x.tree
  runs : ∀ last args m env,
    y.toSite.Advances last → last.Stacked m → Hold m vars env →
      ∃ s, e.eval env = some s ∧ s.type = type ∧ Computes last args m x y v.value s

section

variable {last : Site} {args : List Cell} {m : Memory} {x y : Spot} {v : Value} {s : Scalar}

theorem computes_into {inst : Inst} (emits : x.Emits y inst) (plain : inst.isAlloca = false)
    (dst : inst.dst? = some x.nextTemp) (advanced : y.toSite.Advances last)
    (stacked : last.Stacked m) (run : inst.run args m = some (m.setTemp x.nextTemp s.cell)) :
    Computes last args m x y (.temp x.nextTemp) s := by
  have mem : inst ∈ last.draft.codeOf y.block := by
    refine advanced.mem ?_
    rw [emits.code plain]
    exact mem_append_right _ (mem_singleton_self _)
  exact ⟨1, _, emits.step plain advanced run, keeps_setTemp .refl _,
    stacked.setTemp mem dst _, temps_setTemp ..⟩

theorem computes_here (stacked : last.Stacked m)
    (given : v.cell? args m s.type.ty.ir = some s.cell) : Computes last args m x x v s :=
  ⟨0, m, .refl _, .refl _ _, stacked, given⟩

end

variable {args : List Cell} {value : Value}

section

variable {x : Spot} {lhs rhs : TypedValue} {span : Span}

theorem binaryOperation_combines {left right : Span} {type : Ty} (fst : lhs.Sound x)
    (snd : rhs.Sound x) (typed : lhs.type = type) (typed' : rhs.type = type)
    (value : type.isPointer = false) (dynamic : lhs.integer? = none) (dynamic' : rhs.integer? = none) :
    Keeps (binaryOperation op lhs rhs left right span) x fun v y => v.Sound y ∧
      Combines op type lhs.value rhs.value x v y := by
  unfold binaryOperation
  simp only [TypedValue.adopt, dynamic, dynamic', typed, typed', value, Bool.false_and, commonType,
    if_true, convertTo_same typed, convertTo_same typed', pure_bind, Bool.false_eq_true, if_false]
  refine .require rfl fun _ => ?_
  exact commonOperation_keeps (typed ▸ fst.usable) (typed' ▸ snd.usable) (typed ▸ fst.known)

variable {left right : Value} {v : TypedValue}

theorem Operand.known {ty : Ty} (fst : Operand type left) (snd : Operand type right)
    (folded : op.fold? ty left right = some value) :
    type = .bool ∧ ∃ p q, left = (truth p).value ∧ right = (truth q).value := by
  unfold fold? at folded
  rcases fst with ⟨k, rfl⟩ | ⟨rfl, p, rfl⟩
  · cases compares : op.compare? <;> rw [compares] at folded <;> cases folded
  rcases snd with ⟨k, rfl⟩ | ⟨-, q, rfl⟩
  · cases compares : op.compare? <;> rw [compares] at folded <;> cases folded
  · exact ⟨rfl, p, q, rfl, rfl⟩

variable {m : Memory}

theorem eq_of_cell_truth {p : Bool} {a : Scalar}
    (bool : a.type = .bool) (given : (truth p).value.cell? args m .bool = some a.cell) :
    a = .bool p :=
  cell_injective bool (Option.some.inj (given.symm.trans (cell_truth p)))

theorem apply_known {p q : Bool} (plain : op.isLogical = false)
    (given : ScalarType.bool.result? op = some result)
    (folded : op.fold? .bool (truth p).value (truth q).value = some value) :
    result = .bool ∧ ∃ b, value = (truth b).value ∧ apply op (.bool p) (.bool q) = some (.bool b) := by
  cases op <;> first | cases given; done | cases plain; done | skip
  all_goals
    cases given
    cases folded
    refine ⟨rfl, _, ?_, rfl⟩
    cases p <;> cases q <;> decide +kernel

/-- Operands that are in temporaries, or at least one of them, are combined when the code runs. -/
theorem run_instruction {k : Nat} {a b : Scalar} (plain : op.isLogical = false)
    (given : type.result? op = some result) (int : a.type = type)
    (int' : b.type = type) (fst : left.cell? args m type.ty.ir = some a.cell)
    (snd : right.cell? args m type.ty.ir = some b.cell) :
    ∃ c, apply op a b = some c ∧ c.type = result ∧
      run args m (op.instruction type.ty left right k) = some (m.setTemp k c.cell) := by
  subst int
  cases a with
  | int a =>
    cases b with
    | bool => cases int'
    | int b =>
    have fst := word_int fst
    have snd := word_int snd
    cases op <;> first | cases given; done | cases plain; done | skip
    all_goals
      cases given
      refine ⟨_, rfl, rfl, ?_⟩
      simp only [instruction, compare?, arithmetic, Scalar.type, ty, Ty.ir, run, fst, snd]
      rfl
  | bool a =>
  cases b with
  | int => cases int'
  | bool b =>
  have fst := word_bool fst
  have snd := word_bool snd
  cases op <;> first | cases given; done | cases plain; done | skip
  all_goals
    cases given
    refine ⟨_, rfl, rfl, ?_⟩
    simp only [instruction, compare?, arithmetic, Scalar.type, ty, Ty.bool, Ty.ir, run, fst, snd]
    cases a <;> cases b <;> rfl

end

variable {vars : List Local} {type' : ScalarType} {x y z : Spot} {e left right : Expr}
  {v w : TypedValue}  {span : Span}

theorem Site.Knows.flows (knows : x.toSite.Knows vars) (way : x.Flows y) (tree : y.tree = x.tree) :
    y.toSite.Knows vars :=
  knows.later tree way.draft.slots

variable {s : Scalar}

theorem Computes.after {last : Site} {m m' : Memory} {n : Nat}
    (fst : last.draft.Travels args n (x.state last.draft m) (y.state last.draft m'))
    (kept : m.Keeps x.nextTemp m') (way : x.Flows y)
    (snd : Computes last args m' y z value s) : Computes last args m x z value s := by
  obtain ⟨k, m'', leads, kept', stacked, given⟩ := snd
  exact ⟨n + k, m'', fst.trans leads, kept.trans (kept'.less way.lowers.temps), stacked, given⟩

theorem Evaluates.operand (evaluates : Evaluates vars e type x v y) : Operand type v.value := by
  rcases evaluates.shape with temp | ⟨bool, b, rfl⟩
  · exact .inl temp
  · exact .inr ⟨bool, b, rfl⟩

theorem Evaluates.dynamic (evaluates : Evaluates vars e type x v y) : v.integer? = none := by
  rcases evaluates.shape with ⟨k, temp⟩ | ⟨-, b, rfl⟩
  · rw [TypedValue.integer?, temp]
    split <;> rfl
  · rfl

theorem Evaluates.both (fst : Evaluates vars left type x v y)
    (snd : Evaluates vars right type' y w z) (knows : x.toSite.Knows vars) (way : x.Flows y)
    (reached' : y.Flows z) (last : Site) (args : List Cell) (m : Memory) (env : Env)
    (advanced : z.toSite.Advances last) (stacked : last.Stacked m) (hold : Hold m vars env) :
    ∃ a b n m', (left.eval env = some a ∧ a.type = type) ∧ (right.eval env = some b ∧ b.type = type') ∧
      last.draft.Travels args n (x.state last.draft m) (z.state last.draft m') ∧
        m.Keeps x.nextTemp m' ∧ last.Stacked m' ∧ v.value.cell? args m' type.ty.ir = some a.cell ∧
            w.value.cell? args m' type'.ty.ir = some b.cell := by
  obtain ⟨a, value, rfl, n, m1, leads, kept, stacked, given⟩ :=
    fst.runs last args m env (reached'.advances.trans advanced) stacked hold
  obtain ⟨b, value', rfl, n', m2, leads', kept', stacked, given'⟩ :=
    snd.runs last args m1 env advanced stacked (hold.keeps knows.below kept)
  refine ⟨a, b, n + n', m2, ⟨value, rfl⟩, ⟨value', rfl⟩, leads.trans leads',
    kept.trans (kept'.less way.lowers.temps), stacked, ?_, given'⟩
  rw [fst.sound.usable.cell kept']
  exact given

theorem Expr.eval_binary (plain : op.isLogical = false) (env : Env) :
    (Expr.binary op left right span).eval env =
      (left.eval env).bind fun a => (right.eval env).bind fun b => apply op a b := by
  cases op <;> first | cases plain; done | rfl

theorem Evaluates.binary {u : TypedValue} {t : Spot} (plain : op.isLogical = false)
    (given : type.result? op = some result) (fst : Evaluates vars left type x v y)
    (snd : Evaluates vars right type y w z) (knows : x.toSite.Knows vars) (way : x.Flows y)
    (reached' : y.Flows z) (more : z.Flows t) (sound : u.Sound t)
    (combines : Combines op type.ty v.value w.value z u t) :
    Evaluates vars (.binary op left right span) result x u t := by
  have front := way.trans reached'
  have tree := snd.tree.trans fst.tree
  have both := fun last args m env (advanced : t.toSite.Advances last) =>
      fst.both snd knows way reached' last args m env (more.advances.trans advanced)
  obtain ⟨typed, ⟨folded, rfl⟩ | ⟨here, emits⟩⟩ := combines
  · obtain ⟨rfl, p, q, known, known'⟩ := fst.operand.known snd.operand folded
    rw [known, known'] at folded
    obtain ⟨rfl, c, value, applied⟩ := apply_known plain given folded
    have same : u = truth c := by
      obtain ⟨_, _⟩ := u
      cases value
      exact congrArg _ (typed.trans (result_ty plain given))
    refine ⟨sound, same ▸ rfl, .inr ⟨rfl, _, same⟩, tree,
      fun last args m env advanced stacked hold => ?_⟩
    obtain ⟨a, b, n, m', ⟨value, bool⟩, ⟨value', bool'⟩, leads, kept, stacked, cell, cell'⟩ :=
      both last args m env advanced stacked hold
    rw [known] at cell
    rw [known'] at cell'
    obtain rfl := eq_of_cell_truth bool cell
    obtain rfl := eq_of_cell_truth bool' cell'
    refine ⟨.bool _, ?_, rfl, n, m', leads, kept, stacked, same ▸ cell_truth _⟩
    rw [eval_binary plain, value, value']
    exact applied
  refine ⟨sound, typed.trans (result_ty plain given), .inl ⟨_, here⟩, emits.tree.trans tree,
    fun last args m env advanced stacked hold => ?_⟩
  obtain ⟨a, b, n, m', ⟨value, typed⟩, ⟨value', typed'⟩, leads, kept, stacked, cell, cell'⟩ :=
    both last args m env advanced stacked hold
  obtain ⟨c, applied, typed, run⟩ := run_instruction plain given typed typed' cell cell'
  refine ⟨c, ?_, typed, .after leads kept front (here ▸ computes_into emits ?_ ?_ advanced stacked run)⟩
  · rw [eval_binary plain, value, value']
    exact applied
  all_goals
    unfold instruction
    split <;> rfl

def BinaryOp.decidedBy (op : BinaryOp) (b : Bool) : Bool := b = decide (op = .or)

theorem Expr.eval_logical (logical : op.isLogical) {env : Env}
    (fst : left.eval env = some (.bool b)) : (Expr.binary op left right span).eval env =
      if op.decidedBy b then some (.bool b) else right.eval env := by
  cases op <;> first | cases logical; done | skip
  all_goals
    rw [eval, fst]
    cases b <;> rfl

section

variable {u : Spot} {lhs rhs given : Value} {last : Site} {m : Memory}

namespace ShortCircuits

variable (code : ShortCircuits op x lhs y rhs u z given)

include code

section

variable (advanced : z.toSite.Advances last)
include advanced

theorem start : y.toSite.Advances last :=
  code.passed.advances.trans (code.joins.reached.advances.trans advanced)

theorem address (stacked : last.Stacked m) : m.temps x.nextTemp = some (.slot x.nextTemp) :=
  stacked _ _ ((code.start advanced).draft.slots _ _ code.forks.slot)

theorem leaves (stacked : last.Stacked m) (arg : Operand .bool lhs)
    (fst : lhs.cell? args m .bool = some (Scalar.bool b).cell) :
    last.draft.Travels args 2 (x.state last.draft m)
      (.running (if op.decidedBy b then z.block else y.block)
        (last.draft.codeOf (if op.decidedBy b then z.block else y.block))
        (m.setSlot x.nextTemp (Scalar.bool b).cell)) := by
  have ended := (code.start advanced).draft.ended code.forks.ended
  unfold circuitEnd at ended
  rw [state_ended ended]
  refine (travels_inst (run_store (code.address advanced stacked) fst)).trans (k := 1) ?_
  have again := (cell_setSlot x.nextTemp (Scalar.bool b).cell .bool).trans fst
  by_cases or : op = .or
  · rw [if_pos or] at ended
    have next := travels_branch ended arg again
    rw [decidedBy, decide_eq_true or]
    cases b <;> exact next
  rw [if_neg or] at ended
  have next := travels_branch ended arg again
  rw [decidedBy, decide_eq_false or]
  cases b <;> exact next

theorem rejoins (stacked : last.Stacked m) {c : Cell} (snd : rhs.cell? args m .bool = some c) :
    last.draft.Travels args 2 (u.state last.draft m) (.running z.block
      (last.draft.codeOf z.block) (m.setSlot x.nextTemp c)) := by
  have ended := advanced.draft.ended code.joins.ended
  rw [state_ended ended]
  refine (travels_inst (run_store (code.address advanced stacked) snd)).trans (travels_jump ended)

end

theorem arrives (args : List Cell) (advanced : z.toSite.Advances last) (stacked : last.Stacked m)
    (content : m.slots x.nextTemp = some s.cell) :
    ∃ m', last.draft.Travels args 1 (.running z.block (last.draft.codeOf z.block) m)
        (z.state last.draft m') ∧
      m.Keeps u.nextTemp m' ∧ last.Stacked m' ∧ given.cell? args m' s.type.ty.ir = some s.cell := by
  obtain ⟨loads, rfl⟩ := code.joins.result
  obtain ⟨_, whole⟩ := advanced.code
  have run := run_load args (code.address advanced stacked) content u.nextTemp .bool
  have mem : .load u.nextTemp .bool (.temp x.nextTemp) ∈
      last.draft.codeOf z.block := advanced.mem (by simp [loads])
  refine ⟨_, ?_, keeps_setTemp .refl s.cell, stacked.setTemp mem rfl _, temps_setTemp ..⟩
  rw [Site.state, ← whole, drop_left, loads]
  exact travels_inst run

end ShortCircuits

end

theorem Evaluates.known (evaluates : Evaluates vars e type x v y) {n : Int}
    (value : v.value = .int n) : ∃ b, v = truth b ∧ n = if b then 1 else 0 := by
  rcases evaluates.shape with ⟨k, temp⟩ | ⟨-, b, rfl⟩
  · rw [temp] at value
    cases value
  · exact ⟨b, rfl, by cases b <;> exact (Ir.Value.int.inj value).symm⟩

theorem decidedBy_iff {n : Int} (known : n = if b then 1 else 0) :
    op.decidedBy b ↔ n = if op = .or then 1 else 0 := by
  subst known
  by_cases or : op = .or <;> cases b <;> simp [decidedBy, or]

theorem Scalar.bool_of_type (typed : s.type = .bool) : ∃ b, s = .bool b := by
  cases s with
  | int => cases typed
  | bool b => exact ⟨b, rfl⟩

theorem Evaluates.logical {u : TypedValue} (logical : op.isLogical)
    (fst : Evaluates vars left .bool x v y) (knows : x.toSite.Knows vars) (way : x.Flows y)
    (sound : u.Sound z)
    (circuit : Circuit op v (fun y w z => y.Flows z ∧ Evaluates vars right .bool y w z) y u z) :
    Evaluates vars (.binary op left right span) .bool x u z := by
  cases circuit with
  | decided value decides =>
    obtain ⟨b, rfl, known⟩ := fst.known value
    refine ⟨fst.sound, fst.typed, fst.shape, fst.tree,
      fun last args m env advanced stacked hold => ?_⟩
    obtain ⟨s, evaluated, typed, computes⟩ := fst.runs last args m env advanced stacked hold
    obtain ⟨n, m', leads, kept, stacked, given⟩ := computes
    rw [typed] at given
    obtain rfl := eq_of_cell_truth typed given
    refine ⟨.bool b, ?_, rfl, n, m', leads, kept, stacked, given⟩
    rw [eval_logical logical evaluated, if_pos ((decidedBy_iff known).mpr decides)]
  | passed value undecided holds =>
    obtain ⟨b, rfl, known⟩ := fst.known value
    obtain ⟨reached', snd⟩ := holds
    refine ⟨snd.sound, snd.typed, snd.shape, snd.tree.trans fst.tree,
      fun last args m env advanced stacked hold => ?_⟩
    obtain ⟨a, c, n, m', ⟨evaluated, typed⟩, ⟨evaluated', typed'⟩, leads, kept, stacked, given, given'⟩ :=
      fst.both snd knows way reached' last args m env advanced stacked hold
    obtain rfl := eq_of_cell_truth typed given
    refine ⟨c, ?_, typed', n, m', leads, kept, stacked, by rwa [typed']⟩
    rw [eval_logical logical evaluated,
      if_neg fun decides => undecided ((decidedBy_iff known).mp decides), evaluated']
  | @branches w u z right' v' value typed holds code =>
  obtain ⟨reached', snd⟩ := holds
  refine ⟨sound, typed, .inl ⟨_, code.joins.result.2⟩,
    code.joins.tree.trans (snd.tree.trans (code.forks.tree.trans fst.tree)),
    fun last args m env advanced stacked hold => ?_⟩
  have toLast := code.start advanced
  obtain ⟨a, evaluated, typed, _, m1, leads1, kept1, stacked1, given⟩ :=
    fst.runs last args m env (code.forks.reached.advances.trans toLast) stacked hold
  obtain ⟨b, rfl⟩ := bool_of_type typed
  have leads2 := leads1.trans (code.leaves advanced stacked1 fst.operand given)
  let m2 := m1.setSlot y.nextTemp (Scalar.bool b).cell
  have stacked2 : last.Stacked m2 := stacked1.setSlot _ _
  have kept2 : m.Keeps x.nextTemp m2 :=
    kept1.trans (keeps_setSlot way.lowers.temps _)
  have more : x.nextTemp ≤ u.nextTemp :=
    Nat.le_trans way.lowers.temps (code.forks.reached.trans reached'.toFollows).lowers.temps
  cases decides : op.decidedBy b with
  | true =>
    rw [decides] at leads2
    obtain ⟨m3, leads3, kept3, stacked3, result⟩ := code.arrives args (s := .bool b)
      advanced stacked2 (slots_setSlot ..)
    refine ⟨.bool b, ?_, rfl, _, m3, leads2.trans leads3, kept2.trans (kept3.less more), stacked3,
      result⟩
    rw [eval_logical logical evaluated, if_pos decides]
  | false =>
  rw [decides] at leads2
  have here : w.state last.draft m2 = .running w.block (last.draft.codeOf w.block) m2 := by
    rw [Site.state, code.forks.code]
    rfl
  obtain ⟨c, evaluated', typed', _, m3, leads3, kept3, stacked3, given'⟩ :=
    snd.runs last args m2 env (code.joins.reached.advances.trans advanced) stacked2
      (hold.keeps knows.below kept2)
  obtain ⟨m5, leads5, kept5, stacked5, result⟩ := code.arrives args (s := c)
    advanced (stacked3.setSlot y.nextTemp c.cell) (slots_setSlot ..)
  rw [typed'] at given'
  have leads4 := code.rejoins advanced stacked3 given'
  rw [here] at leads3
  have temps : x.nextTemp ≤ w.nextTemp :=
    Nat.le_trans way.lowers.temps code.forks.reached.lowers.temps
  refine ⟨c, ?_, typed', _, m5, leads2.trans (leads3.trans (leads4.trans leads5)),
    kept2.trans ((kept3.less temps).trans
      ((keeps_setSlot way.lowers.temps _).trans (kept5.less more))),
    stacked5, result⟩
  rw [eval_logical logical evaluated, decides]
  exact evaluated'

theorem unary_evaluates {arg : Span} (fst : Evaluates vars e .bool x v y) (way : x.Flows y) :
    Keeps (unaryOperation .not v arg span) y fun u z =>
      Evaluates vars (.unary .not e span) .bool x u z := by
  have eval_not : ∀ {env : Env} {b : Bool}, e.eval env = some (.bool b) →
      (Expr.unary .not e span).eval env = some (.bool !b) := by
    intro env b evaluated
    rw [eval, evaluated]
  obtain ⟨_, ty⟩ := v
  obtain rfl : ty = .bool := fst.typed
  have usable := fst.sound.usable
  rcases fst.shape with ⟨k, rfl⟩ | ⟨-, b, same⟩
  · refine .bind (Spot.unary_keeps usable) ?_
    rintro _ z reached' ⟨result, rfl, emits, -⟩
    refine .pure ⟨⟨result, Ty.known_bool⟩, rfl, .inl ⟨_, rfl⟩,
      emits.tree.trans fst.tree, fun last args m env advanced stacked hold => ?_⟩
    obtain ⟨s, evaluated, typed, n, m', leads, kept, stacked, given⟩ :=
      fst.runs last args m env (reached'.advances.trans advanced) stacked hold
    obtain ⟨b, rfl⟩ := bool_of_type typed
    refine ⟨.bool !b, eval_not evaluated, rfl,
      .after leads kept way (computes_into emits rfl rfl advanced stacked ?_)⟩
    rw [show Ty.bool.ir = .int 1 from rfl, run, word_bool given]
    cases b <;> rfl
  obtain rfl := congrArg TypedValue.value same
  have negated : (⟨.int (if (if b then (1 : Int) else 0) = 0 then 1 else 0), .bool⟩ : TypedValue) =
      truth !b := by
    cases b <;> rfl
  have pure' : Keeps (pure (truth !b)) y fun u z =>
      Evaluates vars (.unary .not e span) .bool x u z := by
    refine .pure ⟨truth_sound _ y, rfl, .inr ⟨rfl, _, rfl⟩, fst.tree,
      fun last args m env advanced stacked hold => ?_⟩
    obtain ⟨s, evaluated, typed, n, m', leads, kept, stacked, given⟩ :=
      fst.runs last args m env advanced stacked hold
    rw [typed] at given
    obtain rfl := eq_of_cell_truth typed given
    exact ⟨.bool !b, eval_not evaluated, rfl, n, m', leads, kept, stacked, cell_truth _⟩
  rw [← negated] at pure'
  exact pure'

theorem nameMeaning_local {name : String} {var : Local} (knows : x.toSite.Knows vars)
    (got : named? vars name = some var) (reference : Bool) :
    Keeps (nameMeaning reference name span) x fun m y =>
      m = .place { addr := .temp var.slot, type := var.type.ty } ∧ x = y := by
  have written : isWritten name := by
    rw [← named_name got]
    exact knows.written var (mem_of_find?_eq_some got)
  obtain ⟨id, lookup, kind⟩ := knows.sees name var written got
  refine .tree_bind ?_
  rw [show (session x).tree.find? name = some id from lookup]
  refine .tree_bind ?_
  rw [show (session x).tree.kind id = .var var.entry from kind]
  exact .pure ⟨rfl, rfl⟩

theorem variable_evaluates {name : String} {var : Local} (knows : x.toSite.Knows vars)
    (got : named? vars name = some var) :
    Keeps (loadFrom var.type.ty (.temp var.slot)) x fun v y =>
      Evaluates vars (.identifier name span) var.type x v y := by
  have slot := knows.slots var (mem_of_find?_eq_some got)
  have known : var.type.ty.Known x.tree := by
    cases var.type <;> exact Ty.known_int _ (by decide)
  refine (loadFrom_keeps (x.slot_usable slot) known).mono ?_
  rintro v y way ⟨sound, typed, value, emits, -⟩
  refine ⟨sound, typed, .inl ⟨_, value⟩, emits.tree, fun _ args m _ advanced stacked hold => ?_⟩
  obtain ⟨s, evaluated, type, content⟩ := hold.lookup got
  have address := stacked _ _ ((way.advances.trans advanced).draft.slots _ _ slot)
  refine ⟨s, evaluated, type, ?_⟩
  rw [value]
  exact computes_into emits rfl rfl advanced stacked (run_load args address content _ _)

theorem Expr.lower_bind {α : Type} {r : Resolver} {next : TypedValue → Analysis α}
    {part : TypedValue → Spot → Prop} {post : α → Spot → Prop}
    (inner : Keeps (e.lower r none) x part)
    (after : ∀ v y, x.Flows y → part v y → Keeps (next v) y post) :
    Keeps (meaning r false none e >>= fun m => m.asValue e.span >>= next) x post := by
  have whole := Keeps.bind inner after
  rwa [lower, bind_assoc] at whole

theorem value_lowers {step : Analysis TypedValue} {post : TypedValue → Spot → Prop}
    (inner : Keeps step x post) :
    Keeps ((Meaning.value <$> step) >>= fun m => m.asValue span) x post := by
  rw [bind_map_left]
  exact .bind inner fun _ _ _ holds => Keeps.pure holds

theorem Expr.lower_evaluates {r : Resolver} (given : e.scalar? (typing vars) = some type) :
    ∀ hint x, x.toSite.Knows vars →
      Keeps (e.lower r hint) x fun v y => Evaluates vars e type x v y := by
  fun_induction scalar? (typing vars) e generalizing type with
  | case1 b =>
    cases given
    intro _ x _
    exact .pure ⟨truth_sound b x, rfl, .inr ⟨rfl, b, rfl⟩, rfl, fun _ _ m _ _ stacked _ =>
        ⟨.bool b, rfl, rfl, computes_here stacked (cell_truth b)⟩⟩
  | case2 =>
    intro _ x knows
    rw [lookup_typing] at given
    obtain ⟨_, named, rfl⟩ := Option.map_eq_some_iff.mp given
    refine .bind (nameMeaning_local knows named false) ?_
    rintro _ _ - ⟨rfl, rfl⟩
    exact variable_evaluates knows named
  | case3 _ _ bool ih =>
    cases given
    intro _ x knows
    rw [lower, meaning]
    simp only [negatedLiteral?, bind_assoc]
    refine lower_bind (ih bool none x knows) fun v y way fst => ?_
    exact value_lowers (unary_evaluates fst way)
  | case4 | case6 | case7 | case8 => cases given
  | case5 op left right _ own fst snd ih ih' =>
  intro _ x knows
  cases logical : op.isLogical with
  | true =>
    obtain ⟨rfl, rfl⟩ := result_logical logical given
    rw [lower, meaning, if_pos logical]
    simp only [bind_assoc]
    refine lower_bind (ih fst none x knows) fun v y way left' => ?_
    refine .bind asCondition_keeps ?_
    rintro _ _ - ⟨rfl, rfl, bool⟩
    refine value_lowers ((shortCircuit_keeps left'.sound bool ?_).mono
      fun _ _ _ h => left'.logical logical knows way h.1 h.2.2)
    intro w entered tree
    have knows' : w.toSite.Knows vars :=
      (knows.flows way left'.tree).later tree entered.draft.slots
    refine lower_bind (ih' snd none w knows') fun v u reached' right' => ?_
    refine asCondition_keeps.mono ?_
    rintro _ _ - ⟨rfl, rfl, bool⟩
    exact ⟨right'.sound, bool, reached', right'⟩
  | false =>
  rw [lower, meaning, if_neg (by rw [logical]; simp)]
  simp only [bind_assoc]
  refine lower_bind (ih fst none x knows) fun v y way left' => ?_
  have knows' := knows.flows way left'.tree
  refine lower_bind (ih' snd none y knows') fun w z reached' right' => ?_
  refine value_lowers ((binaryOperation_combines (reached'.value left'.sound) right'.sound
    left'.typed right'.typed (by cases own <;> rfl) left'.dynamic right'.dynamic).mono ?_)
  rintro u t more ⟨sound, combines⟩
  exact left'.binary logical given right' knows way reached' more sound combines

end Stencil
