import Stencil.Proofs.Lowering.Walk
import Stencil.Proofs.Lowering.Returns

namespace Stencil

open Analysis Tracked ScopeTree Frame

section

variable {x : Junction} {step : Analysis Unit} {span : Span}

structure Junction.Nests (x y : Junction) : Prop where
  beside : x.toSite.Beside y.toSite
  advances : x.toSite.Advances y.toSite
  tree : ∃ (t : ScopeTree) (name : String) (span : Span), t.nodes = x.tree.nodes ∧
    '#' ∈ name.toList ∧ y.tree = (t.grown x.tree.current name .block span).moveTo x.tree.size

theorem nest_keeps (during : Junction → Junction → Prop)
    (inner : ∀ y, x.Nests y → Keeps step y fun _ e => during y e) :
    Keeps (inBlock span step) x fun _ z => ∃ y e : Junction, x.Nests y ∧ y.Passes e ∧ during y e ∧
      e.toSite.Beside z.toSite ∧ z.session = e.session.withTree (e.tree.moveTo x.tree.current) := by
  refine .junction (.bind generateName_keeps ?_)
  rintro name x1 to1 ⟨mark, nodes, beside1⟩
  have between1 := x.between.same to1 beside1.block
  refine .bind (add_keeps between1.body (.inl rfl)) ?_
  rintro _ x2 to2 ⟨rfl, grown, beside2⟩
  have bounded := lt_of_alive x1.valid.current
  have scopes : x2.tree = x1.tree.grown x1.tree.current name .block span := by
    rw [Site.tree, grown]
    rfl
  have kind : x2.tree.kind x1.tree.size = .block := by
    rw [scopes]
    exact kind_grown_new bounded
  have parent : x2.tree.parent? x1.tree.size = some x1.tree.current := by
    rw [scopes]
    exact parent_grown_new bounded
  have around : ∀ a ∈ x2.tree.ancestors x1.tree.size,
      (x2.tree.kind a).isBody → a = x2.owner ∨ x2.start ≤ a := by
    intro a mem body
    rcases mem_ancestors mem with rfl | ⟨p, around, -, outer⟩
    · rw [to2.start]
      exact .inr x1.visible.old
    cases parent.symm.trans around
    refine x2.visible.around a ?_ body
    rw [show x2.session.tree.current = _ from to2.current]
    exact outer
  have unqueued : x1.tree.size ∉ x2.session.bodies := by
    intro mem
    obtain ⟨⟨e, function, -⟩, -⟩ := x2.valid.queued _ mem
    rw [show x2.session.tree.kind _ = _ from kind] at function
    cases function
  have alive : x2.tree.isAlive x1.tree.size := by
    rw [scopes]
    exact alive_grown_new bounded
  have whole := to1.trans to2
  have beside := beside1.trans beside2
  have moved := (x2.valid.relocated (t := x2.tree.moveTo x1.tree.size) rfl alive).2
  have inside : ∀ y, x2.Beside y → y.session = x2.session.withTree (x2.tree.moveTo x1.tree.size) →
      Keeps step y fun _ y' => ∃ y e : Junction, e.toSite = y' ∧ x.Nests y ∧ y.Passes e ∧
        during y e := by
    intro y beside3 session
    have tree : y.tree = x2.tree.moveTo x1.tree.size := by
      rw [Site.tree, session]
      rfl
    have between : y.Between := by
      refine ⟨?_, ?_, ?_, (beside.trans beside3).assigns.trans x.between.assigns⟩
      · rw [Site.Attached, beside3.builder]
        exact whole.attached x.between.attached
      · rw [tree]
        exact congrArg ScopeKind.isBody kind
      rw [beside3.code, beside3.supply, beside3.block]
      exact (x.between.same whole beside.block).bare
    have nests : x.Nests ⟨y, between⟩ := by
      refine ⟨beside.trans beside3, ⟨?_, ?_⟩, x1.tree, name, span, nodes, mark, ?_⟩
      · change x.session.Lowers y.session
        rw [session]
        exact whole.lowers.trans moved
      · change x.draft.Continues x.supply y.draft y.supply
        rw [beside3.draft, beside3.supply]
        exact whole.draft
      change y.tree = _
      rw [tree, scopes, ScopeTree.size, nodes, to1.current]
    refine (inner ⟨y, between⟩ nests).around.mono ?_
    rintro _ _ _ ⟨e, rfl, passes, holds⟩
    exact ⟨_, e, rfl, nests, passes, holds⟩
  refine (within_keeps alive around unqueued
    fun y beside session _ _ _ => inside y beside session).mono ?_
  rintro _ z reached ⟨_, -, -, ⟨y, e, rfl, nests, passes, holds⟩, besideEnd, session⟩
  have current := to2.current.trans to1.current
  have between : z.Between := by
    refine x.between.later (whole.trans reached) fun empty k supplied => ?_
    rw [besideEnd.code] at empty
    rw [besideEnd.supply, besideEnd.block] at supplied
    exact e.between.bare empty k supplied
  refine ⟨⟨z, between⟩, rfl, ?_, y, e, nests, passes, holds, besideEnd, ?_⟩
  · exact besideEnd.waiting.trans (passes.waiting.trans nests.beside.waiting)
  rw [← current]
  exact session

end

def LoopSound (loop : Option LoopTargets) (x : Site) : Prop :=
  ∀ targets, loop = some targets → targets.Sound x

theorem LoopSound.mono {loop : Option LoopTargets} {x y : Site} (sound : LoopSound loop x)
    (advanced : x.Advances y) : LoopSound loop y :=
  fun targets same => (sound targets same).mono advanced

variable {r : Resolver} {frame : Frame} {loop : Option LoopTargets}

theorem lowerReturn_passes {x : Junction} (isOpen : x.IsOpen) (returns : frame.Sound x.toSite)
    {value : Option Expr} {span : Span} (post : Option Ir.Value → Spot → Prop)
    (evaluates : Keeps (returnValue r frame.result value span) (x.spot isOpen) fun given z =>
      ((∀ v, given = some v → z.Usable v frame.result.ir) ∧
        (given = none → frame.result.isVoid)) ∧ post given z) :
    Keeps (lowerReturn r frame value span) x fun _ y => ∃ z given,
      (x.spot isOpen).Flows z ∧ post given z ∧ z.Follows y.toSite ∧
        Returned frame given z y.toSite := by
  refine .junction ((lowerReturn_keeps (x := x.spot isOpen) returns evaluates).mono ?_)
  rintro _ y reached ⟨z, given, flows, holds, left, returned⟩
  obtain ⟨w, t, flows', -, ends⟩ := returned.ends
  have between := (Site.Between.flows (x := x.spot isOpen) x.between (flows.trans flows'))
  refine ⟨⟨y, x.between.later reached ?_⟩, rfl, ?_, z, given, flows, holds, left, returned⟩
  · rw [ends.code, ends.supply, ends.block]
    exact between.bare
  · exact ends.waiting.trans (flows'.waiting.trans flows.waiting)

theorem lowerJump_passes {x : Junction} (isOpen : x.IsOpen) (loops : LoopSound loop x.toSite)
    {target : LoopTargets → Nat} (present : ∀ targets, targets.Sound x.toSite →
      x.Target (target targets)) {keyword : String} {span : Span} :
    Keeps (lowerJump loop target keyword span) x fun _ y => ∃ targets, loop = some targets ∧
      (x.spot isOpen).Ends y.toSite (.jump (target targets)) := by
  cases loop with
  | none => exact .fail rfl
  | some targets =>
  refine .junction ((jump_keeps (x := x.spot isOpen) (present targets (loops targets rfl))).mono ?_)
  intro _ y reached ends
  exact ⟨⟨y, x.between.same reached ends.block⟩, rfl, ends.waiting, targets, rfl, ends⟩

structure Frame.Here (frame : Frame) (loop : Option LoopTargets) (x : Junction) : Prop where
  returns : frame.Sound x.toSite
  loops : LoopSound loop x.toSite
  apart : frame.Apart loop x.toSite

theorem Frame.Here.mono {x y : Junction} (here : frame.Here loop x)
    (advanced : x.toSite.Advances y.toSite) (owns : x.Owns y.block) : frame.Here loop y :=
  ⟨here.returns.mono advanced, here.loops.mono advanced, here.apart.mono here.returns owns⟩

section

variable {x : Junction} {first snd : Analysis Unit} {m n : Nat} {bare bare' : Bool}
  (resolves : r.Sound) (here : frame.Here loop x) {cond : Expr}
include here

theorem inBlock_builds {span : Span} (inner : ∀ y, frame.Here loop y →
    Keeps first y fun _ z => frame.Builds y.toSite z.toSite n) :
    Keeps (inBlock span first) x fun _ y => frame.Builds x.toSite y.toSite n := by
  refine (nest_keeps (fun y e => frame.Builds y.toSite e.toSite n) fun y nests => ?_).mono ?_
  · exact inner y (here.mono nests.advances (.inl nests.beside.block))
  rintro _ z _ ⟨y, e, nests, -, builds, beside, -⟩
  refine ⟨?_, ?_⟩
  · rw [beside.draft, ← nests.beside.draft]
    exact builds.counts
  rw [beside.block]
  exact x.owns_trans (nests.beside.draft ▸ .refl) (.inl nests.beside.block) builds.block

theorem next_builds (inFirst : ∀ y, y.IsOpen → frame.Here loop y →
      Keeps first y fun _ z => frame.Builds y.toSite z.toSite m)
    (inSecond : ∀ y, frame.Here loop y → Keeps snd y fun _ z => frame.Builds y.toSite z.toSite n) :
    Keeps (do leaveTerminated; first; snd) x fun _ y => frame.Builds x.toSite y.toSite (m + n) := by
  refine .bind leaveTerminated_keeps ?_
  rintro _ y reached ⟨isOpen, -, -, inside⟩
  refine .bind (inFirst y isOpen (here.mono reached.advances inside.block)) ?_
  intro _ z reached' builds
  have whole := (reached.trans reached').advances
  have before := (builds_of_inside here.returns here.apart inside).trans reached.draft.length builds
  rw [Nat.zero_add] at before
  exact (inSecond z (here.mono whole before.block)).mono fun _ _ _ rest =>
    before.trans whole.draft.length rest

include resolves

theorem branchOn_builds (isOpen : x.IsOpen) (inFirst : ∀ y, y.IsOpen → frame.Here loop y →
      Keeps first y fun _ z => frame.Builds y.toSite z.toSite m)
    (inSecond : ∀ y, y.IsOpen → frame.Here loop y →
      Keeps snd y fun _ z => frame.Builds y.toSite z.toSite n)
    (none : bare → m = 0) (none' : bare' → n = 0) :
    Keeps (branchOn (cond.lowerCondition r) bare bare' first snd) x fun _ y =>
      frame.Builds x.toSite y.toSite (m + n) := by
  refine (branch_keeps (fun _ => True) (fun _ _ => True) (fun w e => frame.Counts w.draft e.draft m)
    (fun w e => frame.Counts w.draft e.draft n) isOpen ?_ ?_ ?_).mono ?_
  · exact (Expr.lowerCondition_keeps resolves).mono fun _ _ _ h => ⟨h.1, h.2, trivial, trivial⟩
  · intro y isOpen reached owns _
    exact (inFirst y isOpen (here.mono reached.advances owns)).mono fun _ _ _ h => ⟨trivial, h.counts⟩
  · intro y isOpen reached owns _
    exact (inSecond y isOpen (here.mono reached.advances owns)).mono fun _ _ _ h => ⟨trivial, h.counts⟩
  rintro _ z _ ⟨-, v, u, _, _, flows, branches⟩
  rw [← Nat.zero_add (m + n)]
  refine (builds_of_inside here.returns here.apart flows.inside).trans flows.draft.length ?_
  exact builds_of_branches (here.returns.mono flows.toFollows.advances)
    (here.apart.mono here.returns flows.inside.block) branches (fun _ _ h => h) none
    (fun _ _ h => h) none'

theorem loopOn_builds {body : LoopTargets → Analysis Unit} (isOpen : x.IsOpen)
    (inBody : ∀ targets y, y.IsOpen → frame.Here (some targets) y →
      Keeps (body targets) y fun _ z => frame.Builds y.toSite z.toSite n)
    (none : bare → n = 0) :
    Keeps (loopOn (cond.lowerCondition r) bare body) x fun _ y =>
      frame.Builds x.toSite y.toSite n := by
  refine (loop_keeps body (fun _ => True) (fun _ _ _ => True)
    (fun _ w e => frame.Counts w.draft e.draft n) isOpen trivial ?_ ?_).mono ?_
  · intro h _ _ _
    exact (Expr.lowerCondition_keeps resolves).mono fun _ _ _ h => ⟨h.1, h.2, trivial, trivial⟩
  · intro targets y isOpen reached sound owns _
    have apart : ∀ id ∈ [y.block, targets.header, targets.exit], _ := fun id mem =>
      here.returns.apart here.apart.here (owns id mem)
    refine (inBody targets y isOpen ⟨here.returns.mono reached.advances, ?_, apart _ (by simp), ?_⟩).mono
      fun _ _ _ h => ⟨trivial, h.counts⟩
    · rintro _ ⟨⟩
      exact sound
    · rintro _ ⟨⟩
      exact ⟨apart _ (by simp), apart _ (by simp)⟩
  rintro _ z _ ⟨-, h, v, u, _, loops⟩
  exact builds_of_loops here.returns here.apart loops (fun _ _ _ h => h) none

end

mutual

theorem lowerStmt_keeps (resolves : r.Sound) (frame : Frame) : ∀ s
    (loop : Option LoopTargets) (x : Junction), x.IsOpen → frame.Here loop x →
      Keeps (lowerStmt r frame loop s) x fun _ y => frame.Builds x.toSite y.toSite s.returns
  | .binding name nameSpan type init constant _, _, x, isOpen, here => by
    exact (lowerBinding_keeps resolves (x := x.spot isOpen) x.between.body).straight.mono
      fun _ _ _ => builds_of_straight here.returns here.apart
  | .assign target value _, _, x, isOpen, here => by
    exact (lowerAssignment_keeps resolves (x := x.spot isOpen) x.between.assigns).straight.mono
      fun _ _ _ => builds_of_straight here.returns here.apart
  | .expr value _, _, x, isOpen, here => by
    refine .bind (Expr.lower_keeps resolves (hintKnown_none (x.spot isOpen))).straight ?_
    exact fun _ _ _ flows => Keeps.pure (builds_of_straight here.returns here.apart flows)
  | .ret value span, _, x, isOpen, here => by
    refine (lowerReturn_passes isOpen here.returns
      (fun given _ => given = none → frame.result.isVoid) ?_).mono ?_
    · exact (returnValue_keeps resolves here.returns.known).mono fun _ _ _ h => ⟨h, h.2⟩
    rintro _ y _ ⟨z, _, flows, void, _, returned⟩
    have start := builds_of_inside here.returns here.apart flows.inside
    have apart' := here.apart.mono here.returns flows.inside.block
    have rest := counts_of_returned (here.returns.mono flows.toFollows.advances) apart'.here void
      returned
    refine ⟨start.counts.trans rest, ?_⟩
    obtain ⟨w, t, -, block, ends⟩ := returned.ends
    rw [ends.block, block]
    exact flows.inside.block
  | .branch cond body otherwise _, loop, x, isOpen, here => by
    rw [lowerStmt, Stmt.returns]
    exact branchOn_builds resolves here isOpen
      (fun y _ here => lowerBlock_keeps resolves frame body loop y here)
      (fun y isOpen here => lowerAlternative_keeps resolves frame otherwise loop y isOpen here)
      Block.returns_of_isEmpty Alternative.returns_of_isEmpty
  | .loop cond body _, loop, x, isOpen, here => by
    rw [lowerStmt, Stmt.returns]
    exact loopOn_builds resolves here isOpen
      (fun targets y _ here => lowerBlock_keeps resolves frame body (some targets) y here)
      Block.returns_of_isEmpty
  | .leave _, _, _, isOpen, here => by
    refine (lowerJump_passes isOpen here.loops fun _ sound => sound.exit).mono ?_
    rintro _ y _ ⟨targets, same, ends⟩
    exact builds_of_jump ends (here.apart.loop targets same).2
  | .again _, _, _, isOpen, here => by
    refine (lowerJump_passes isOpen here.loops fun _ sound => sound.header).mono ?_
    rintro _ y _ ⟨targets, same, ends⟩
    exact builds_of_jump ends (here.apart.loop targets same).1
  | .block body _, loop, x, _, here => lowerBlock_keeps resolves frame body loop x here

theorem lowerAlternative_keeps (resolves : r.Sound) (frame : Frame) : ∀ a
    (loop : Option LoopTargets) (x : Junction), x.IsOpen → frame.Here loop x →
      Keeps (lowerAlternative r frame loop a) x fun _ y => frame.Builds x.toSite y.toSite a.returns
  | .absent, _, x, _, here => Keeps.pure (builds_of_inside here.returns here.apart (.refl x.toSite))
  | .block body, loop, x, _, here => lowerBlock_keeps resolves frame body loop x here
  | .branch next, loop, x, isOpen, here => lowerStmt_keeps resolves frame next loop x isOpen here

theorem lowerBlock_keeps (resolves : r.Sound) (frame : Frame) : ∀ b
    (loop : Option LoopTargets) (x : Junction), frame.Here loop x →
      Keeps (lowerBlock r frame loop b) x fun _ y => frame.Builds x.toSite y.toSite b.returns
  | .mk stmts _, loop, _, here =>
    inBlock_builds here fun y here => lowerStmts_keeps resolves frame stmts loop y here

theorem lowerStmts_keeps (resolves : r.Sound) (frame : Frame) : ∀ stmts
    (loop : Option LoopTargets) (x : Junction), frame.Here loop x →
      Keeps (lowerStmts r frame loop stmts) x fun _ y =>
        frame.Builds x.toSite y.toSite (Stmt.returnsOf stmts)
  | [], _, x, here => Keeps.pure (builds_of_inside here.returns here.apart (.refl x.toSite))
  | s :: stmts, loop, _, here =>
    next_builds here (fun y isOpen here => lowerStmt_keeps resolves frame s loop y isOpen here)
      fun y here => lowerStmts_keeps resolves frame stmts loop y here

end

/-- What statements are made of. -/
inductive Part
  | stmt (s : Stmt)
  | alternative (a : Alternative)
  | block (b : Block)
  | stmts (list : List Stmt)

namespace Part

def lower (r : Resolver) (frame : Frame) (loop : Option LoopTargets) : Part → Analysis Unit
  | stmt s => lowerStmt r frame loop s
  | alternative a => lowerAlternative r frame loop a
  | block b => lowerBlock r frame loop b
  | stmts list => lowerStmts r frame loop list

def returns : Part → Nat
  | stmt s => s.returns
  | alternative a => a.returns
  | block b => b.returns
  | stmts list => Stmt.returnsOf list

def Begins (frame : Frame) (loop : Option LoopTargets) (x : Junction) : Part → Prop
  | stmt _ | alternative _ => x.IsOpen ∧ frame.Here loop x
  | block _ | stmts _ => frame.Here loop x

theorem lower_keeps (resolves : r.Sound) {x : Junction} : ∀ p : Part, p.Begins frame loop x →
    Keeps (p.lower r frame loop) x fun _ y => frame.Builds x.toSite y.toSite p.returns
  | stmt s, begins => lowerStmt_keeps resolves frame s loop x begins.1 begins.2
  | alternative a, begins => lowerAlternative_keeps resolves frame a loop x begins.1 begins.2
  | block b, begins => lowerBlock_keeps resolves frame b loop x begins
  | stmts list, begins => lowerStmts_keeps resolves frame list loop x begins

/-- A part of a part, and what is done around it. -/
inductive Holds (r : Resolver) (frame : Frame) (loop : Option LoopTargets) :
    Part → ((Option LoopTargets → Analysis Unit) → Analysis Unit) → Part → Prop
  | first (s : Stmt) (rest : List Stmt) : Holds r frame loop (stmts (s :: rest))
      (fun step => do leaveTerminated; step loop; lowerStmts r frame loop rest) (stmt s)
  | rest (s : Stmt) (rest : List Stmt) : Holds r frame loop (stmts (s :: rest))
      (fun step => do leaveTerminated; lowerStmt r frame loop s; step loop) (stmts rest)
  | inside (list : List Stmt) (span : Span) : Holds r frame loop (block (.mk list span))
      (fun step => inBlock span (step loop)) (stmts list)
  | scope (b : Block) (span : Span) : Holds r frame loop (stmt (.block b span))
      (fun step => step loop) (block b)
  | yes (condition : Expr) (b : Block) (a : Alternative) (span : Span) :
      Holds r frame loop (stmt (.branch condition b a span))
        (fun step => branchOn (condition.lowerCondition r) b.isEmpty a.isEmpty (step loop)
          (lowerAlternative r frame loop a)) (block b)
  | no (condition : Expr) (b : Block) (a : Alternative) (span : Span) :
      Holds r frame loop (stmt (.branch condition b a span))
        (fun step => branchOn (condition.lowerCondition r) b.isEmpty a.isEmpty
          (lowerBlock r frame loop b) (step loop)) (alternative a)
  | otherwise (b : Block) : Holds r frame loop (alternative (.block b)) (fun step => step loop) (block b)
  | chained (s : Stmt) : Holds r frame loop (alternative (.branch s)) (fun step => step loop) (stmt s)
  | again (condition : Expr) (b : Block) (span : Span) :
      Holds r frame loop (stmt (.loop condition b span))
        (fun step => loopOn (condition.lowerCondition r) b.isEmpty fun targets => step (some targets))
        (block b)

variable {p q : Part} {around : (Option LoopTargets → Analysis Unit) → Analysis Unit}

theorem Holds.lower_eq (holds : Holds r frame loop p around q) :
    p.lower r frame loop = around fun loop => q.lower r frame loop := by
  cases holds <;> rfl

theorem Holds.keeps (resolves : r.Sound) (holds : Holds r frame loop p around q) {x : Junction}
    (begins : p.Begins frame loop x) {step : Option LoopTargets → Analysis Unit}
    (inner : ∀ loop y, q.Begins frame loop y →
      Keeps (step loop) y fun _ z => frame.Builds y.toSite z.toSite q.returns) :
    Keeps (around step) x fun _ y => frame.Builds x.toSite y.toSite p.returns := by
  cases holds with
  | first _ rest =>
    exact next_builds begins (fun y isOpen here => inner loop y ⟨isOpen, here⟩)
      fun y here => lowerStmts_keeps resolves frame rest loop y here
  | rest s =>
    exact next_builds begins (fun y isOpen here => lowerStmt_keeps resolves frame s loop y isOpen here)
      (inner loop)
  | inside => exact inBlock_builds begins (inner loop)
  | scope => exact inner loop x begins.2
  | yes _ _ a =>
    exact branchOn_builds resolves begins.2 begins.1 (fun y _ here => inner loop y here)
      (fun y isOpen here => lowerAlternative_keeps resolves frame a loop y isOpen here)
      Block.returns_of_isEmpty Alternative.returns_of_isEmpty
  | no _ b =>
    exact branchOn_builds resolves begins.2 begins.1
      (fun y _ here => lowerBlock_keeps resolves frame b loop y here)
      (fun y isOpen here => inner loop y ⟨isOpen, here⟩)
      Block.returns_of_isEmpty Alternative.returns_of_isEmpty
  | otherwise => exact inner loop x begins.2
  | chained => exact inner loop x begins
  | again =>
    exact loopOn_builds resolves begins.2 begins.1 (fun targets y _ here => inner (some targets) y here)
      Block.returns_of_isEmpty

/-- Whoever lowers a part in one session comes to lower a statement in another. What is around a part
takes a step in the session in which every failure of the step is a failure of the whole. -/
inductive Meets (r : Resolver) (frame : Frame) (met : Stmt) (there : Session) :
    Option LoopTargets → Part → Session → Prop
  | here {loop : Option LoopTargets} : Meets r frame met there loop (stmt met) there
  | inside {loop loop' : Option LoopTargets} {p q : Part} {s u : Session}
      {around : (Option LoopTargets → Analysis Unit) → Analysis Unit}
      (holds : Holds r frame loop p around q)
      (stops : ∀ step d v, step loop' u = .error d v → ∃ w, around step s = .error d w)
      (rest : Meets r frame met there loop' q u) : Meets r frame met there loop p s

variable {met : Stmt} {s there : Session}

theorem Meets.fails (meets : Meets r frame met there loop p s) {d : Diagnostic}
    (fails : ∀ loop, ∃ u, lowerStmt r frame loop met there = .error d u) :
    ∃ u, p.lower r frame loop s = .error d u := by
  induction meets with
  | here => exact fails _
  | inside holds stops _ ih =>
    obtain ⟨v, failed⟩ := ih
    rw [holds.lower_eq]
    exact stops _ d v failed

noncomputable def insist (p : Session → Prop) : Analysis Unit := fun s =>
  open Classical in if p s then .ok () s else .error ((Problem.alreadyTerminated "").at {}) s

/-- The invariants of a body hold wherever one of its statements is lowered. -/
theorem Meets.begins (resolves : r.Sound) (meets : Meets r frame met there loop p s) (x : Junction)
    (same : x.session = s) (begins : p.Begins frame loop x) :
    ∃ (y : Junction), y.session = there ∧ y.IsOpen := by
  induction meets generalizing x with
  | here => exact ⟨x, same, begins.1⟩
  | @inside loop loop' p q s u around holds stops _ ih =>
    -- otherwise a part that insists on them fails there, and with it the whole
    let good (loop : Option LoopTargets) (s : Session) : Prop :=
      ∃ y : Junction, y.session = s ∧ q.Begins frame loop y
    by_cases found : good loop' u
    · obtain ⟨y, same, begins⟩ := found
      exact ih y same begins
    let step (loop : Option LoopTargets) : Analysis Unit := do
      insist (good loop)
      q.lower r frame loop
    have inner : ∀ loop y, q.Begins frame loop y →
        Keeps (step loop) y fun _ z => frame.Builds y.toSite z.toSite q.returns := by
      intro loop y here
      refine .bind (m := fun _ z => y = z) ?_ ?_
      · unfold Keeps Leads insist
        rw [if_pos ⟨y, rfl, here⟩]
        exact ⟨y, rfl, Tracked.refl y, rfl⟩
      · rintro _ _ _ rfl
        exact q.lower_keeps resolves here
    have keeps := holds.keeps resolves begins inner
    obtain ⟨w, failed⟩ := stops step _ u (bind_run_error (if_neg found))
    rw [Keeps, Leads, show session x = s from same, failed] at keeps
    exact absurd rfl (keeps.1.1 "")

end Part

end Stencil
