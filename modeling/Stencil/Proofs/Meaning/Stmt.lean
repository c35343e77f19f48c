import Stencil.Proofs.Meaning.Simulation

namespace Stencil

open Analysis Tracked List

open Option (ite_none_right_eq_some)

/-- What is known behind a statement, and that its code does what it says. -/
structure Carries (frame : Frame) (loop : Option LoopTargets) (vars behind : List Local)
    (run : Nat → Env → Option (Outcome × Env)) (x z : Junction) : Prop where
  knows : z.Knows behind
  around : x.tree.Around z.tree
  simulates : Simulates frame loop vars (Holding vars) behind run x.toSite z.toSite

section

variable {r : Resolver} {frame : Frame} {loop : Option LoopTargets} {vars : List Local} {x : Junction}
  {e : Expr} {result : ScalarType} {span : Span}

theorem lowerReturn_carries (isOpen : x.IsOpen) (returns : frame.Sound x.toSite)
    (typed : frame.result = result.ty) (given : e.isScalar (Local.typing vars) result)
    (knows : x.Knows vars) : Keeps (lowerReturn r frame (some e) span) x fun _ z =>
      Carries frame loop vars vars (fun fuel env => (Stmt.ret (some e) span).run fuel env) x z := by
  have evaluates : Keeps (returnValue r frame.result (some e) span) (x.spot isOpen) fun value z =>
      ((∀ v, value = some v → z.Usable v frame.result.ir) ∧ (value = none → frame.result.isVoid)) ∧
          ∃ v, value = some v ∧ Yields vars e result (x.spot isOpen) v z := by
    rw [typed]
    refine (returnValue_yields given knows).mono ?_
    rintro _ z - ⟨v, rfl, yields⟩
    refine ⟨⟨?_, by simp⟩, v, rfl, yields⟩
    rintro _ ⟨⟩
    exact yields.usable
  refine (lowerReturn_passes isOpen returns _ evaluates).mono ?_
  rintro _ y passes ⟨z, _, way, ⟨v, rfl, yields⟩, left, returned⟩
  have tree := returned.tree.trans yields.tree
  refine ⟨knows.later tree passes.draft.slots, ?_,
    fun last args _ m env advanced closed stacked hold => ?_⟩
  · rw [tree]
    exact .refl _
  obtain ⟨s, evaluated, scalar, n, _, travels, -, stacked', given⟩ :=
    yields.runs last args m env (left.advances.trans advanced) stacked hold
  rw [scalar] at given
  obtain ⟨k, back⟩ := returned.travels (returns.mono way.advances) typed scalar left.advances
    advanced closed args stacked' given
  rw [Stmt.run, evaluated]
  exact ⟨n + k, _, travels.trans back, by rw [scalar, typed], rfl⟩

theorem lowerJump_carries (frame : Frame) (outcome : Outcome) (isOpen : x.IsOpen)
    (loops : LoopSound loop x.toSite)
    {target : LoopTargets → Nat} (has : ∀ targets, targets.Sound x.toSite →
      x.Target (target targets)) {keyword : String} (knows : x.Knows vars)
    (jumps : ∀ last env s targets, loop = some targets →
      AtBlock last (target targets) (Holding vars) env s →
        After last frame loop (Holding vars) (fun _ _ => False) outcome env s) :
    Keeps (lowerJump loop target keyword span) x fun _ z =>
      Carries frame loop vars vars (fun _ env => some (outcome, env)) x z := by
  refine (lowerJump_passes isOpen loops has).mono ?_
  rintro _ z passes ⟨targets, same, ends⟩
  have tree := ends.tree
  refine ⟨knows.later tree passes.draft.slots, ?_, ?_⟩
  · rw [tree]
    exact .refl _
  intro last _ _ m env advanced _ stacked hold
  have ended := advanced.draft.ended ends.ended
  rw [show x.state last.draft m = _ from state_end ended]
  refine ⟨1, _, travels_jump ended, (jumps last env _ targets same ⟨m, rfl, stacked, hold⟩).mono
    (fun _ h => h) fun impossible => impossible.elim⟩

theorem Expr.lowerCondition_evaluates {x : Spot} (bool : e.scalar? (Local.typing vars) = some .bool)
    (knows : x.toSite.Knows vars) : Keeps (e.lowerCondition r) x fun v y =>
      v.Sound y ∧ v.type.isBool ∧ Evaluates vars e .bool x v y := by
  refine .bind (Expr.lower_evaluates bool none x knows) ?_
  intro v y _ evaluates
  refine asCondition_keeps.mono ?_
  rintro _ _ - ⟨rfl, rfl, bool⟩
  exact ⟨evaluates.sound, bool, evaluates⟩

end

theorem Block.run_empty {body : Block} (empty : body.isEmpty) (fuel : Nat) (env : Env) :
    body.run fuel env = some (.normal, env) := by
  obtain ⟨stmts, _⟩ := body
  obtain rfl : stmts = [] := isEmpty_iff.mp empty
  rw [Block.run, Stmt.runAll]
  simp

theorem Alternative.run_empty {a : Alternative} (empty : a.isEmpty) (fuel : Nat) (env : Env) :
    a.run fuel env = some (.normal, env) := by
  cases a with
  | absent => rfl
  | block =>
    exact Block.run_empty empty fuel env
  | branch => cases empty

section

variable {x y e z : Junction} {vars : List Local}

theorem Junction.Nests.knows (nests : x.Nests y) (knows : x.Knows vars) : y.Knows vars := by
  obtain ⟨t, _, span, nodes, mark, tree⟩ := nests.tree
  have lies : x.tree.current < t.size := by
    rw [ScopeTree.size, nodes]
    exact ScopeTree.lt_of_alive x.valid.current
  have seen := (knows.sees.congr nodes).inside lies mark .block span
  refine knows.mono nests.advances ?_
  rw [tree, ScopeTree.size, ← nodes]
  exact seen.congr rfl

/-- Behind a block they can be seen again. -/
theorem Junction.Nests.behind (nests : x.Nests y) (knows : x.Knows vars)
    (up : y.tree.Around e.tree) (advances : x.toSite.Advances z.toSite)
    (tree : z.tree = e.tree.moveTo x.tree.current) : z.Knows vars ∧ x.tree.Around z.tree := by
  obtain ⟨t, _, _, nodes, mark, inner⟩ := nests.tree
  rw [inner] at up
  refine ⟨knows.mono advances ?_, ?_⟩
  · rw [tree]
    exact knows.sees.behind (ScopeTree.lt_of_alive x.valid.current) mark nodes up
  rw [tree]
  exact .nested nodes up

theorem Site.Beside.advances {x y : Site} {scope : ScopeId} (beside : x.Beside y)
    (session : y.session = x.session.withTree (x.tree.moveTo scope)) : x.Advances y where
  lowers := by
    have alive : x.tree.isAlive scope := by
      have current := y.valid.current
      rw [session] at current
      exact current
    rw [session]
    exact (x.valid.relocated (t := x.tree.moveTo scope) rfl alive).2
  draft := by
    rw [beside.draft, beside.supply]
    exact .refl _ _

end

variable {result : ScalarType}

set_option linter.unusedSectionVars false

variable (r : Resolver) (frame : Frame) (typed : frame.result = result.ty)
include r frame typed

mutual

theorem lowerStmt_carries : ∀ s loop vars names x,
      x.IsOpen → frame.Sound x.toSite → LoopSound loop x.toSite → x.Knows vars →
      s.scalar? result (Local.typing vars) = some names →
      Keeps (lowerStmt r frame loop s) x fun _ z => ∃ behind, Local.typing behind = names ∧
        vars <:+ behind ∧ Carries frame loop vars behind (fun fuel env => s.run fuel env) x z
  | .binding name nameSpan type init constant span, loop, vars, names, x, isOpen, _, _, knows,
      given => by
    unfold Stmt.scalar? at given
    split at given <;> rename_i same <;> first | cases given; done | cases same
    split at given <;> first | cases given | skip
    rename_i primitive
    obtain ⟨fine, ⟨⟩⟩ := ite_none_right_eq_some.mp given
    obtain ⟨written, value⟩ := Bool.and_eq_true_iff.mp fine
    refine (lowerBinding_simulates r frame loop span isOpen primitive written value
      knows).straight.mono ?_
    rintro _ z _ ⟨w, same, -, slot, knows', up, simulates⟩
    rw [same] at knows' simulates
    rw [show w.tree = z.tree from congrArg Site.tree same] at up
    exact ⟨_, rfl, suffix_cons .., knows', up, simulates⟩
  | .assign target value span, loop, vars, names, x, isOpen, _, _, knows, given => by
    cases target <;> first | cases given | skip
    rename_i name _
    simp only [Stmt.scalar?, Local.lookup_typing] at given
    cases named : Local.named? vars name with
    | none => rw [named] at given; cases given
    | some var =>
    simp only [named, Option.map_some, ite_none_right_eq_some] at given
    obtain ⟨value, ⟨⟩⟩ := given
    refine (lowerAssignment_simulates r frame loop span isOpen named value knows).straight.mono ?_
    rintro _ z way ⟨w, same, -, tree, simulates⟩
    rw [same] at simulates
    rw [show w.tree = z.tree from congrArg Site.tree same] at tree
    refine ⟨vars, rfl, suffix_rfl, knows.later tree way.draft.slots, ?_, simulates⟩
    rw [tree]
    exact .refl _
  | .expr value span, _, _, _, _, _, _, _, _, given => by
    cases given
  | .ret none span, _, _, _, _, _, _, _, _, given => by
    cases given
  | .ret (some value) span, loop, vars, names, x, isOpen, returns, _, knows, given => by
    obtain ⟨value, ⟨⟩⟩ := ite_none_right_eq_some.mp given
    exact (lowerReturn_carries isOpen returns typed value knows).mono
      fun _ z _ carries => ⟨vars, rfl, suffix_rfl, carries⟩
  | .branch cond body otherwise span, loop, vars, names, x, isOpen, returns, loops, knows,
      given => by
    obtain ⟨fine, ⟨⟩⟩ := ite_none_right_eq_some.mp given
    simp only [Bool.and_eq_true, decide_eq_true_eq] at fine
    obtain ⟨⟨bool, fst⟩, snd⟩ := fine
    refine (branch_keeps (fun t => x.tree.Around t ∧ t.Sees t.current vars)
      (fun v u => Evaluates vars cond .bool (x.spot isOpen) v u)
      (fun w e => Simulates frame loop vars (Holding vars) vars (fun fuel env => body.run fuel env)
        w.toSite e.toSite)
      (fun w e => Simulates frame loop vars (Holding vars) vars
        (fun fuel env => otherwise.run fuel env) w.toSite e.toSite) isOpen ?_ ?_ ?_).mono ?_
    · refine (Expr.lowerCondition_evaluates bool knows).mono ?_
      rintro v u _ ⟨sound, isBool, evaluates⟩
      have tree := evaluates.tree
      refine ⟨sound, isBool, ?_, evaluates⟩
      rw [tree]
      exact ⟨.refl _, knows.sees⟩
    · rintro y isOpen way - ⟨up, sees⟩
      refine (lowerBlock_carries body loop vars y isOpen
        (returns.mono way.advances) (loops.mono way.advances)
        (knows.mono way.advances sees) fst).mono fun _ z _ carries => ?_
      exact ⟨⟨up.trans carries.around, carries.knows.sees⟩, carries.simulates⟩
    · rintro y isOpen way - ⟨up, sees⟩
      refine (lowerAlternative_carries otherwise loop vars y isOpen
        (returns.mono way.advances) (loops.mono way.advances)
        (knows.mono way.advances sees) snd).mono fun _ z _ carries => ?_
      exact ⟨⟨up.trans carries.around, carries.knows.sees⟩, carries.simulates⟩
    rintro _ z passes ⟨⟨up, sees⟩, v, u, _, _, -, branches⟩
    refine ⟨vars, rfl, suffix_rfl, knows.mono passes.advances sees, up, ?_⟩
    exact branches.simulates knows (fun empty => Block.run_empty empty)
      fun empty => Alternative.run_empty empty
  | .loop cond body span, loop, vars, names, x, isOpen, returns, _, knows, given => by
    obtain ⟨fine, ⟨⟩⟩ := ite_none_right_eq_some.mp given
    simp only [Bool.and_eq_true, decide_eq_true_eq] at fine
    obtain ⟨bool, lies⟩ := fine
    refine (loop_keeps (fun targets => lowerBlock r frame (some targets) body)
      (fun t => x.tree.Around t ∧ t.Sees t.current vars)
      (fun h v u => ∃ isOpen, Evaluates vars cond .bool (h.spot isOpen) v u)
      (fun targets w e => Simulates frame (some targets) vars (Holding vars) vars
        (fun fuel env => body.run fuel env) w.toSite e.toSite) isOpen ⟨.refl _, knows.sees⟩
      ?_ ?_).mono ?_
    · rintro h isOpen passes ⟨up, sees⟩
      refine (Expr.lowerCondition_evaluates bool (knows.mono passes.advances sees)).mono ?_
      rintro v u _ ⟨sound, isBool, evaluates⟩
      have tree := evaluates.tree
      refine ⟨sound, isBool, ?_, isOpen, evaluates⟩
      rw [tree]
      exact ⟨up, sees⟩
    · rintro targets y isOpen way sound - ⟨up, sees⟩
      refine (lowerBlock_carries body (some targets) vars y isOpen
        (returns.mono way.advances) (by rintro _ ⟨⟩; exact sound)
        (knows.mono way.advances sees) lies).mono fun _ z _ carries => ?_
      exact ⟨⟨up.trans carries.around, carries.knows.sees⟩, carries.simulates⟩
    rintro _ z passes ⟨⟨up, sees⟩, h, v, u, lies, loops⟩
    exact ⟨vars, rfl, suffix_rfl, knows.mono passes.advances sees, up,
      loops.simulates knows fun empty => Block.run_empty empty⟩
  | .leave span, loop, vars, names, x, isOpen, _, loops, knows, given => by
    cases given
    exact (lowerJump_carries frame .leave isOpen loops (fun _ sound => sound.exit) knows
      fun last env s targets same there => ⟨targets, same, there⟩).mono
        fun _ z _ carries => ⟨vars, rfl, suffix_rfl, carries⟩
  | .again span, loop, vars, names, x, isOpen, _, loops, knows, given => by
    cases given
    exact (lowerJump_carries frame .again isOpen loops (fun _ sound => sound.header) knows
      fun last env s targets same there => ⟨targets, same, there⟩).mono
        fun _ z _ carries => ⟨vars, rfl, suffix_rfl, carries⟩
  | .block body span, loop, vars, names, x, isOpen, returns, loops, knows, given => by
    obtain ⟨lies, ⟨⟩⟩ := ite_none_right_eq_some.mp given
    exact (lowerBlock_carries body loop vars x isOpen returns loops knows lies).mono
      fun _ z _ carries => ⟨vars, rfl, suffix_rfl, carries⟩

theorem lowerAlternative_carries : ∀ a loop vars x,
      x.IsOpen → frame.Sound x.toSite → LoopSound loop x.toSite → x.Knows vars →
      a.isScalar result (Local.typing vars) →
      Keeps (lowerAlternative r frame loop a) x fun _ z =>
        Carries frame loop vars vars (fun fuel env => a.run fuel env) x z
  | .absent, loop, vars, x, isOpen, _, _, knows, _ => by
    exact .pure ⟨knows, .refl _, fun last args fuel m env _ _ stacked hold =>
      ⟨0, _, .refl _, isOpen, m, rfl, stacked, hold⟩⟩
  | .block body, loop, vars, x, isOpen, returns, loops, knows, given => by
    exact lowerBlock_carries body loop vars x isOpen returns loops knows given
  | .branch next, loop, vars, x, isOpen, returns, loops, knows, given => by
    refine (lowerStmt_carries next loop vars _ x isOpen returns loops knows
      (of_decide_eq_true given)).mono ?_
    rintro _ z _ ⟨behind, same, suffix, carries⟩
    have length : vars.length = behind.length := by
      have lengths := congrArg List.length same
      rw [Local.typing, Local.typing, length_map, length_map] at lengths
      exact lengths.symm
    obtain rfl := suffix.eq_of_length length
    exact carries

theorem lowerBlock_carries : ∀ b loop vars x,
      x.IsOpen → frame.Sound x.toSite → LoopSound loop x.toSite → x.Knows vars →
      b.isScalar result (Local.typing vars) →
      Keeps (lowerBlock r frame loop b) x fun _ z =>
        Carries frame loop vars vars (fun fuel env => b.run fuel env) x z
  | .mk stmts span, loop, vars, x, isOpen, returns, loops, knows, given => by
    refine (nest_keeps (fun y e => y.tree.Around e.tree ∧ ∃ behind, vars <:+ behind ∧
      (y.IsOpen → Simulates frame loop vars (HoldingMore vars) behind
        (fun fuel env => Stmt.runAll fuel stmts env) y.toSite e.toSite)) fun y nests => ?_).mono ?_
    · exact lowerStmts_carries stmts loop vars y (returns.mono nests.advances)
        (loops.mono nests.advances) (nests.knows knows) given
    rintro _ z passes ⟨y, e, nests, -, ⟨up, behind, suffix, simulates⟩, beside, session⟩
    have tree : z.tree = e.tree.moveTo x.tree.current := by
      rw [Site.tree, session]
      rfl
    obtain ⟨knows', around'⟩ := nests.behind knows up passes.advances tree
    exact ⟨knows', around', nested_simulates suffix nests.beside beside (beside.advances session)
      (simulates (nests.beside.isOpen isOpen))⟩

theorem lowerStmts_carries :
    ∀ (stmts : List Stmt) (loop : Option LoopTargets) (vars : List Local) (x : Junction),
      frame.Sound x.toSite → LoopSound loop x.toSite → x.Knows vars →
      (Stmt.scalars? result stmts (Local.typing vars)).isSome →
      Keeps (lowerStmts r frame loop stmts) x fun _ z => x.tree.Around z.tree ∧
        ∃ behind, vars <:+ behind ∧ (x.IsOpen → Simulates frame loop vars (HoldingMore vars) behind
          (fun fuel env => Stmt.runAll fuel stmts env) x.toSite z.toSite)
  | [], loop, vars, x, _, _, knows, _ => by
    exact .pure ⟨.refl _, vars, suffix_rfl, fun isOpen last args fuel m env _ _ stacked hold =>
      ⟨0, _, .refl _, isOpen, m, rfl, stacked, hold⟩⟩
  | s :: stmts, loop, vars, x, returns, loops, knows, given => by
    rw [Stmt.scalars?] at given
    cases fst : s.scalar? result (Local.typing vars) with
    | none =>
      rw [fst] at given
      cases given
    | some names =>
    rw [fst] at given
    refine .bind leaveTerminated_keeps ?_
    rintro _ y way ⟨isOpen, tree, same, -⟩
    have knows' := knows.later tree way.draft.slots
    refine .bind (lowerStmt_carries s loop vars names y isOpen
      (returns.mono way.advances) (loops.mono way.advances) knows' fst) ?_
    rintro _ z reached' ⟨middle, rfl, suffix, carries⟩
    have whole := (way.trans reached').advances
    refine (lowerStmts_carries stmts loop middle z (returns.mono whole)
      (loops.mono whole) carries.knows given).mono ?_
    rintro _ w reached'' ⟨up, behind, suffix', simulates⟩
    have front : x.tree.Around z.tree := by
      rw [← tree]
      exact carries.around
    refine ⟨front.trans up, behind, suffix.trans suffix', fun isOpen => ?_⟩
    obtain rfl := same isOpen
    exact sequence_simulates suffix reached''.advances carries.simulates simulates

end

end Stencil
