import Stencil.Proofs.Lowering.Junction

namespace Stencil

open Analysis Tracked Ir.Builder List Option Ir.Terminator

section

variable {x : Junction} {next : Nat}

def Junction.Stopped (x : Junction) : Prop :=
  ∀ b, x.draft.blocks[x.block]? = some b → b.isTerminated

theorem Junction.open_or_stopped (x : Junction) :
    (x.IsOpen ∧ x.session.builder.isCurrentTerminated = false) ∨
      (x.Stopped ∧ x.session.builder.isCurrentTerminated) := by
  obtain ⟨_, attached⟩ := x.between.attached
  obtain ⟨b, here⟩ := x.pending.here
  rw [x.linked.isCurrentTerminated_eq attached here]
  cases done : b.terminator with
  | none => exact .inl ⟨⟨b, here, done⟩, by rw [Ir.Block.isTerminated, done]; rfl⟩
  | some =>
  have isTerminated : b.isTerminated := by rw [Ir.Block.isTerminated, done]; rfl
  refine .inr ⟨fun _ here' => ?_, isTerminated⟩
  cases here.symm.trans here'
  exact isTerminated

theorem Junction.Stopped.not_open (stopped : x.Stopped) : ¬x.IsOpen := by
  rintro ⟨b, here, isOpen⟩
  have done := stopped b here
  rw [Ir.Block.isTerminated, isOpen] at done
  cases done

theorem Junction.isOpen_iff (x : Junction) :
    x.IsOpen ↔ x.session.builder.isCurrentTerminated = false := by
  rcases x.open_or_stopped with ⟨isOpen, running⟩ | ⟨stopped, done⟩
  · exact ⟨fun _ => running, fun _ => isOpen⟩
  rw [done]
  exact ⟨fun isOpen => absurd isOpen stopped.not_open, Bool.noConfusion⟩

structure Junction.Enters (x y : Junction) (next : Nat) : Prop where
  draft : y.draft = x.draft
  block : y.block = next
  code : y.code = []
  isOpen : y.IsOpen
  tree : y.tree = x.tree

theorem enter_keeps (front back : List Nat) (stopped : x.Stopped)
    (waiting : x.waiting = front ++ next :: back) (target : x.Target next) :
    Keeps (build (position next)) x.toSite fun _ y => ∃ z : Junction, z.toSite = y ∧
      x.Enters z next ∧ z.waiting = front ++ back := by
  refine (position_keeps front back x.between.attached waiting stopped).mono ?_
  rintro _ _ way ⟨z, rfl, moves, rest⟩
  refine ⟨⟨z.toSite, x.between.later way fun _ k => ?_⟩, rfl, ?_, rest⟩
  · rw [moves.block, moves.supply]
    exact target.bare k
  · exact ⟨moves.draft, moves.block, moves.code, z.isOpen, moves.tree⟩

structure Junction.Closes (x y : Junction) (next : Nat) : Prop where
  stopped : y.Stopped
  ended : x.IsOpen → y.draft.Ended x.block x.code (.jump next)
  tree : y.tree = x.tree
  links : x.draft.Links y.draft (· = next)

theorem closeBranch_keeps (target : x.Target next) :
    Keeps (closeBranch next) x fun _ y => x.Closes y next := by
  refine .get_bind ?_
  rcases x.open_or_stopped with ⟨isOpen, running⟩ | ⟨stopped, done⟩
  · rw [if_neg (by rw [show (session x).builder.isCurrentTerminated = false from running]; nofun)]
    refine .junction ((jump_keeps (x := x.spot isOpen) target).mono ?_)
    intro _ y way ends
    exact ⟨⟨y, x.between.same way ends.block⟩, rfl, ends.waiting, ends.terminated,
      fun _ => ends.ended, ends.tree, ends.links (cons_ne_nil _ _) fun _ => mem_singleton.mp⟩
  rw [if_pos (show (session x).builder.isCurrentTerminated from done)]
  exact .pure ⟨stopped, fun isOpen => absurd isOpen stopped.not_open, rfl, .refl _ _⟩

end

section

variable {x y : Spot} {new : List Nat} {stem : String}

theorem Spot.Prepares.targets (prepared : x.Prepares y (fun _ => False) new) :
    ∀ id ∈ new, y.Target id := fun id mem =>
  ⟨(prepared.inside id mem).1, (prepared.inside id mem).2, fun k => (prepared.supply id mem k).mp⟩

theorem blockUnless_keeps (before : x.Prepares y (fun _ => False) new)
    (letters : ∀ c ∈ stem.toList, c.isDigit = false) (empty : Bool) :
    Keeps (blockUnless empty stem) y.toSite fun id z => ∃ u : Spot, u.toSite = z ∧
      x.Prepares u (fun _ => False) (id.toList ++ new) ∧ id.isNone = empty := by
  cases empty with
  | true => exact .pure ⟨y, rfl, before, rfl⟩
  | false =>
    refine .bind (prepare_keeps before letters nofun) ?_
    rintro _ _ - ⟨u, rfl, prepared⟩
    exact .pure ⟨u, rfl, prepared, rfl⟩

end

theorem leaveTerminated_keeps {x : Junction} : Keeps leaveTerminated x fun _ y =>
    y.IsOpen ∧ y.tree = x.tree ∧ (x.IsOpen → x = y) ∧ x.Inside y.toSite := by
  refine .get_bind ?_
  rcases x.open_or_stopped with ⟨isOpen, running⟩ | ⟨stopped, done⟩
  · rw [if_neg (by rw [show (session x).builder.isCurrentTerminated = false from running]; nofun)]
    exact .pure ⟨isOpen, rfl, fun _ => rfl, .refl _⟩
  rw [if_pos (show (session x).builder.isCurrentTerminated from done)]
  refine .junction (.bind (newBlock_keeps (by simp) (fun _ => False) nofun) ?_)
  intro id y way opens
  let y' : Junction := ⟨y, x.between.same way opens.block⟩
  have stopped' : y'.Stopped := by
    intro b here
    rw [opens.draft, opens.block] at here
    rcases Ir.Function.extend_cases here with ⟨fresh, -⟩ | old
    · exact absurd fresh (Nat.ne_of_lt x.pending.inside)
    · exact stopped b old
  have target : y'.Target id := by
    refine ⟨?_, ?_, fun k => (opens.supply k).mp⟩
    · rw [opens.number]
      exact x.inhabited
    change id < y.draft.size
    rw [opens.length, opens.number]
    exact Nat.lt_succ_self _
  refine (enter_keeps [] x.waiting stopped' opens.waiting target).mono ?_
  rintro _ _ - ⟨z, rfl, enters, waiting⟩
  exact ⟨z, rfl, waiting, enters.isOpen, enters.tree.trans opens.tree,
    fun isOpen => absurd isOpen stopped.not_open, opens.links.trans (.of_eq enters.draft),
    .inr (enters.block ▸ Nat.le_of_eq opens.number.symm)⟩

section

variable {x : Junction} {α : Type} {next : Nat → Analysis α} {post : α → Junction → Prop}

structure Junction.Heads (x y : Junction) (header : Nat) : Prop where
  isOpen : y.IsOpen
  block : y.block = header
  code : y.code = []
  target : y.Target header
  tree : y.tree = x.tree
  linked : x = y ∨ y.draft.Ended x.block x.code (.jump header)
  inside : x.Inside y.toSite

theorem loopHeader_keeps (isOpen : x.IsOpen) : Keeps loopHeader x.toSite fun header y =>
    (x.toSite = y ∧ header = x.block ∧ x.code = [] ∧ 0 < x.block) ∨
      ∃ u, (x.spot isOpen).Prepares u (fun _ => False) [header] ∧ u.Ends y (.jump header) ∧
        u.Follows y := by
  obtain ⟨code, attached⟩ := x.between.attached
  obtain ⟨has, current⟩ := x.linked.here attached
  obtain ⟨b, here⟩ := x.pending.here
  refine .get_bind ?_
  dsimp only
  split
  · rename_i id free
    obtain ⟨same, usable⟩ := filter_eq_some_iff.mp free
    cases current.symm.trans same
    simp only [Bool.and_eq_true, bne_iff_ne, ne_eq] at usable
    obtain ⟨⟨later, empty⟩, -⟩ := usable
    rw [show (session x.toSite).builder = x.session.builder from rfl, isBlockEmpty,
      x.linked.block?_eq attached, here, any_some, Ir.Block.isEmpty] at empty
    have bare : x.code = [] := by
      rw [x.code_eq here, Ir.Block.code, List.isEmpty_iff.mp (Bool.and_eq_true_iff.mp empty).1]
      rfl
    exact .pure (.inl ⟨rfl, rfl, bare, Nat.pos_of_ne_zero later⟩)
  refine .bind (prepare_keeps (.refl (x.spot isOpen) fun _ => False) (by simp) fun _ => False.elim) ?_
  rintro header _ _ ⟨u, rfl, prepared⟩
  refine .bind (jump_keeps (prepared.targets header (.head _))) ?_
  intro _ y way ends
  exact .pure (.inr ⟨u, prepared, ends, way⟩)

/-- A loop begins in a block without instructions. -/
theorem header_keeps (isOpen : x.IsOpen)
    (after : ∀ header y, x.Passes y → x.Heads y header → Keeps (next header) y post) :
    Keeps (do
      let header ← loopHeader
      build (position header)
      next header) x post := by
  refine .junction (.bind (loopHeader_keeps isOpen) ?_)
  rintro header y - (⟨rfl, rfl, bare, later⟩ | ⟨u, prepared, ends, way⟩)
  · have stays : build (position x.block) x.session = .ok () x.session := by
      obtain ⟨_, attached⟩ := x.between.attached
      refine Spot.build_run ?_
      change ((), { x.session.builder with block := some x.block }) = ((), x.session.builder)
      rw [← (x.linked.here attached).2]
    refine .bind (m := fun _ y => x.toSite = y)
      (Keeps.step (y := x.toSite) stays (.refl x.toSite) rfl) ?_
    rintro _ _ - rfl
    have passes : x.Passes x := ⟨.refl x.toSite, rfl⟩
    refine (after x.block x passes ⟨isOpen, rfl, bare,
      ⟨later, x.pending.inside, x.between.bare bare⟩, rfl, .inl rfl, .refl _⟩).around.mono ?_
    rintro a _ _ ⟨w, rfl, more, holds⟩
    exact ⟨w, rfl, more.waiting, holds⟩
  have target := prepared.targets header (.head _)
  have before := prepared.reached.trans way
  let y' : Junction := ⟨y, x.between.same before (ends.block.trans prepared.block)⟩
  have waiting := ends.waiting.trans prepared.waiting
  refine .bind (enter_keeps (x := y') [] x.waiting ends.terminated waiting (way.target target)) ?_
  rintro _ _ entered ⟨z, rfl, enters, rest⟩
  have passes : x.Passes z := ⟨before.trans entered, rest⟩
  have ended := entered.draft.ended ends.ended
  rw [prepared.block, prepared.code] at ended
  have owned := prepared.owned header (.head _)
  refine (after header z passes ⟨enters.isOpen, enters.block, enters.code,
    entered.target (way.target target), ?_, .inr ended, ?_, ?_⟩).around.mono ?_
  · exact enters.tree.trans (ends.tree.trans prepared.tree)
  · refine (prepared.links.mono fun _ => False.elim).trans ((ends.links (cons_ne_nil _ _) ?_).trans
      (.of_eq enters.draft))
    exact forall_mem_singleton.mpr owned
  · rw [enters.block]
    exact owned
  rintro a _ _ ⟨w, rfl, more, holds⟩
  exact ⟨w, rfl, more.waiting.trans passes.waiting, holds⟩

end

section

variable {x z : Site} {block : Option Nat} {next : Nat} {during : Junction → Junction → Prop}
  {keep : ScopeTree → Prop}

def Side (during : Junction → Junction → Prop) (block : Option Nat) (next : Nat) (x z : Site) :
    Prop :=
  ∀ id, block = some id → ∃ w e : Junction, w.block = id ∧ w.code = [] ∧ w.IsOpen ∧
    x.Follows w.toSite ∧ w.Passes e ∧ during w e ∧ e.Follows z ∧
      (e.IsOpen → z.draft.Ended e.block e.code (.jump next))

theorem Side.mono {x' z' : Site} (side : Side during block next x z) (before : x'.Follows x)
    (after : z.Follows z') : Side during block next x' z' := by
  intro id has
  obtain ⟨w, e, start, bare, isOpen, way, passes, holds, rest, ended⟩ := side id has
  exact ⟨w, e, start, bare, isOpen, before.trans way, passes, holds, rest.trans after,
    fun isOpen => after.draft.ended (ended isOpen)⟩

inductive Through (during : Junction → Junction → Prop) (next : Nat) (f : Ir.Function) :
    Option Nat → Ir.Function → Prop
  | absent : Through during next f none f
  | present {id : Nat} {w e : Junction} {f' : Ir.Function} (start : w.draft = f)
      (holds : during w e) (closes : e.draft.Links f' (· = next)) : Through during next f (some id) f'

theorem inBranch_keeps {x : Junction} {step : Analysis Unit} (front back : List Nat)
    (stopped : x.Stopped) (waiting : x.waiting = front ++ (block.toList ++ back))
    (targets : ∀ id ∈ block.toList, x.Target id) (target : x.Target next) (kept : keep x.tree)
    (builds : ∀ y, y.IsOpen → x.Follows y.toSite → y.block ∈ block → keep y.tree →
      Keeps step y fun _ z => keep z.tree ∧ during y z) :
    Keeps (inBranch block next step) x.toSite fun _ y => ∃ z : Junction, z.toSite = y ∧
      z.Stopped ∧ z.waiting = front ++ back ∧ keep z.tree ∧
        Side during block next x.toSite z.toSite ∧ Through during next x.draft block z.draft := by
  cases block with
  | none => exact .pure ⟨x, rfl, stopped, waiting, kept, nofun, .absent⟩
  | some id =>
  refine .bind (enter_keeps front back stopped waiting (targets id (by simp))) ?_
  rintro _ _ entered ⟨w, rfl, enters, rest⟩
  have kept' : keep w.tree := by rw [enters.tree]; exact kept
  refine .bind (builds w enters.isOpen entered (congrArg some enters.block).symm kept').around ?_
  rintro _ _ _ ⟨e, rfl, passes, kept'', holds⟩
  refine (closeBranch_keeps (passes.target (entered.target target))).around.mono ?_
  rintro _ _ _ ⟨z, rfl, more, closes⟩
  refine ⟨z, rfl, closes.stopped, ?_, ?_, ?_, .present enters.draft holds closes.links⟩
  · rw [more.waiting, passes.waiting, rest]
  · rw [closes.tree]
    exact kept''
  rintro _ ⟨⟩
  exact ⟨w, e, enters.block, enters.code, enters.isOpen, entered, passes, holds,
    more.toFollows, closes.ended⟩

end

section

variable {x : Junction} {cond : Analysis TypedValue} {fst snd : Analysis Unit}
  {bare bare' : Bool} {new : List Nat}

theorem Spot.Prepares.usable {u u' : Spot} {set : Nat → Prop} (prepared : u.Prepares u' set new)
    {v : TypedValue} (sound : v.Sound u) (bool : v.type.isBool) :
    u'.Usable v.value .bool := by
  have usable := bool_usable sound bool
  exact ⟨prepared.reached.ready (fun k => prepared.reached.defined prepared.block) usable.1,
    prepared.reached.has usable.2⟩

/-- The end of a block with a condition, behind which either of two blocks may come. -/
structure Spot.Parts (u : Spot) (v : Ir.Value) (yes no : Nat) (new : List Nat) (y : Junction) :
    Prop where
  reached : u.Follows y.toSite
  stopped : y.Stopped
  tree : y.tree = u.tree
  waiting : y.waiting = new ++ u.waiting
  targets : ∀ id ∈ new, y.Target id
  ended : y.draft.Ended u.block u.code (.branch v yes no)
  links : ∀ goal : Nat → Prop, goal yes → goal no → u.draft.Links y.draft goal

theorem fork_keeps {u u' : Spot} {v : TypedValue} {yes no : Nat}
    (prepared : u.Prepares u' (fun _ => False) new) (between : u.Between) (sound : v.Sound u)
    (bool : v.type.isBool) (fst : u'.Target yes) (snd : u'.Target no) :
    Keeps (terminate (.branch v.value yes no)) u'.toSite fun _ y => ∃ z : Junction, z.toSite = y ∧
      u.Parts v.value yes no new z := by
  have usable := prepared.usable sound bool
  refine (leave_keeps (t := .branch v.value yes no) (by simpa [successors] using ⟨fst, snd⟩)
    (by simpa [operands] using usable.1) usable.2).mono ?_
  intro _ y way ends
  have reached := prepared.reached.trans way
  have ended := ends.ended
  rw [prepared.block, prepared.code] at ended
  refine ⟨⟨y, between.same reached (ends.block.trans prepared.block)⟩, rfl, reached,
    ends.terminated, ends.tree.trans prepared.tree, ends.waiting.trans prepared.waiting,
    fun id mem => way.target (prepared.targets id mem), ended, fun _ yes no => ?_⟩
  exact (prepared.links.mono fun _ => False.elim).trans
    (ends.links (cons_ne_nil _ _) (by simpa [successors] using ⟨yes, no⟩))

theorem getD_mem {block : Option Nat} {next : Nat}
    (lies : ∀ id ∈ block.toList, id ∈ new) (last : next ∈ new) : block.getD next ∈ new := by
  cases block with
  | none => exact last
  | some id => exact lies id (by simp)

structure Branches (bare bare' : Bool) (evaluated : TypedValue → Spot → Prop)
    (during during' : Junction → Junction → Prop) (v : TypedValue) (u : Spot) (yes no : Option Nat)
    (z : Junction) : Prop where
  holds : evaluated v u
  sides : yes.isNone = bare ∧ no.isNone = bare'
  ended : z.draft.Ended u.block u.code (.branch v.value (yes.getD z.block) (no.getD z.block))
  first : Side during yes z.block u.toSite z.toSite
  second : Side during' no z.block u.toSite z.toSite
  reached : u.Follows z.toSite
  code : z.code = []
  isOpen : z.IsOpen
  owned : u.Owns z.block
  chain : ∃ f g, u.draft.Links f u.Owns ∧ Through during z.block f yes g ∧
    Through during' z.block g no z.draft

theorem branch_keeps (keep : ScopeTree → Prop) (evaluated : TypedValue → Spot → Prop)
    (during during' : Junction → Junction → Prop) (isOpen : x.IsOpen)
    (evaluates : Keeps cond (x.spot isOpen) fun v u => v.Sound u ∧ v.type.isBool ∧
      keep u.tree ∧ evaluated v u)
    (inFirst : ∀ y, y.IsOpen → x.Follows y.toSite → x.Owns y.block → keep y.tree →
      Keeps fst y fun _ z => keep z.tree ∧ during y z)
    (inSecond : ∀ y, y.IsOpen → x.Follows y.toSite → x.Owns y.block → keep y.tree →
      Keeps snd y fun _ z => keep z.tree ∧ during' y z) :
    Keeps (branchOn cond bare bare' fst snd) x fun _ z => keep z.tree ∧ ∃ v u yes no,
      (x.spot isOpen).Flows u ∧ Branches bare bare' evaluated during during' v u yes no z := by
  refine .junction (.bind evaluates.site ?_)
  rintro v _ _ ⟨u, rfl, flows, sound, bool, kept, holds⟩
  refine .bind (blockUnless_keeps (.refl u _) (by simp) bare) ?_
  rintro yes _ _ ⟨_, rfl, prepared, bareYes⟩
  refine .bind (blockUnless_keeps prepared (by simp) bare') ?_
  rintro no _ _ ⟨_, rfl, prepared, bareNo⟩
  refine .bind (prepare_keeps prepared (by simp) nofun) ?_
  rintro done _ _ ⟨_, rfl, prepared⟩
  let new := done :: (no.toList ++ (yes.toList ++ []))
  have fst : yes.getD done ∈ new := getD_mem (by simp +contextual [new]) (by simp [new])
  have snd : no.getD done ∈ new := getD_mem (by simp +contextual [new]) (by simp [new])
  refine .bind (fork_keeps prepared (.flows x.between flows) sound bool (prepared.targets _ fst)
    (prepared.targets _ snd)) ?_
  rintro _ _ - ⟨y, rfl, parts⟩
  have before := parts.reached
  have targets := parts.targets
  have waiting : y.waiting = (done :: no.toList) ++ (yes.toList ++ x.waiting) := by
    rw [parts.waiting, flows.waiting]
    simp [Junction.spot]
  have start := flows.toFollows.trans before
  have owned : ∀ id ∈ new, x.Owns id := fun id mem =>
    flows.inside.owns flows.draft.length (prepared.owned id mem)
  have links := parts.links u.Owns (prepared.owned _ fst) (prepared.owned _ snd)
  refine .bind (inBranch_keeps (x := y) (done :: no.toList) x.waiting
    parts.stopped waiting (fun id mem => targets id (by simp [mem]))
    (targets done (by simp)) (by rw [parts.tree]; exact kept)
    fun w isOpen way block => inFirst w isOpen (start.trans way)
      (owned _ (by simp [new, mem_def.mp block]))) ?_
  rintro _ _ to5 ⟨_, rfl, stopped, waiting, kept, side, through⟩
  refine .bind (inBranch_keeps [done] x.waiting stopped waiting
    (fun id mem => to5.target (targets id (by simp [mem])))
    (to5.target (targets done (by simp))) kept
    fun w isOpen way block => inSecond w isOpen (start.trans (to5.trans way))
      (owned _ (by simp [new, mem_def.mp block]))) ?_
  rintro _ _ to6 ⟨_, rfl, stopped, waiting, kept, side', through'⟩
  refine (enter_keeps [] x.waiting stopped waiting
    ((to5.trans to6).target (targets done (by simp)))).mono ?_
  rintro _ _ to7 ⟨z, rfl, enters, waiting⟩
  refine ⟨z, rfl, waiting, by rw [enters.tree]; exact kept, v, u, yes, no, flows, ?_⟩
  rw [← enters.block] at side side' through through'
  rw [← enters.draft] at through'
  have ended := (to5.trans (to6.trans to7)).draft.ended parts.ended
  rw [← enters.block] at ended
  exact ⟨holds, ⟨bareYes, bareNo⟩, ended, side.mono before (to6.trans to7),
    side'.mono (before.trans to5) to7, before.trans (to5.trans (to6.trans to7)), enters.code,
    enters.isOpen, enters.block ▸ prepared.owned done (by simp), _, _, links, through, through'⟩

end

/-- The blocks that a loop goes to can be reached from anywhere. -/
structure LoopTargets.Sound (targets : LoopTargets) (x : Site) : Prop where
  header : x.Target targets.header
  exit : x.Target targets.exit

theorem LoopTargets.Sound.mono {targets : LoopTargets} {x y : Site} (sound : targets.Sound x)
    (advanced : x.Advances y) : targets.Sound y :=
  ⟨advanced.target sound.header, advanced.target sound.exit⟩

variable {x : Junction} {cond : Analysis TypedValue} {bare : Bool}

structure Loops (bare : Bool) (evaluated : Junction → TypedValue → Spot → Prop)
    (during : LoopTargets → Junction → Junction → Prop) (x h : Junction) (v : TypedValue) (u : Spot)
    (inside : Option Nat) (z : Junction) : Prop where
  heads : x.Heads h h.block
  passes : x.Passes h
  flows : (h.spot heads.isOpen).Flows u
  holds : evaluated h v u
  side : inside.isNone = bare
  ended : z.draft.Ended u.block u.code (.branch v.value (inside.getD h.block) z.block)
  body : Side (during ⟨h.block, z.block⟩) inside h.block u.toSite z.toSite
  reached : u.Follows z.toSite
  code : z.code = []
  isOpen : z.IsOpen
  owned : u.Owns z.block
  chain : ∃ f, u.draft.Links f (fun id => id = h.block ∨ u.Owns id) ∧
    Through (during ⟨h.block, z.block⟩) h.block f inside z.draft

theorem loop_keeps (body : LoopTargets → Analysis Unit) (keep : ScopeTree → Prop)
    (evaluated : Junction → TypedValue → Spot → Prop)
    (during : LoopTargets → Junction → Junction → Prop) (isOpen : x.IsOpen) (kept : keep x.tree)
    (evaluates : ∀ h isOpen, x.Passes h → keep h.tree →
      Keeps cond (h.spot isOpen) fun v u => v.Sound u ∧ v.type.isBool ∧ keep u.tree ∧
        evaluated h v u)
    (inBody : ∀ targets y, y.IsOpen → x.Follows y.toSite →
      targets.Sound y.toSite → (∀ id ∈ [y.block, targets.header, targets.exit], x.Owns id) →
      keep y.tree → Keeps (body targets) y fun _ z => keep z.tree ∧ during targets y z) :
    Keeps (loopOn cond bare body) x fun _ z => keep z.tree ∧ ∃ h v u lies,
      Loops bare evaluated during x h v u lies z := by
  refine header_keeps isOpen ?_
  rintro _ h passes heads
  obtain rfl := heads.block
  have kept' : keep h.tree := by rw [heads.tree]; exact kept
  refine .junction (.bind (evaluates h heads.isOpen passes kept').site ?_)
  rintro v _ _ ⟨u, rfl, flows, sound, bool, kept, holds⟩
  refine .bind (blockUnless_keeps (.refl u _) (by simp) bare) ?_
  rintro lies _ _ ⟨_, rfl, prepared, bareInside⟩
  refine .bind (prepare_keeps prepared (by simp) nofun) ?_
  rintro exit _ _ ⟨_, rfl, prepared⟩
  let new := h.block :: exit :: (lies.toList ++ [])
  have fst : lies.getD h.block ∈ new := getD_mem (by simp +contextual [new]) (by simp [new])
  have back := (flows.toFollows.trans prepared.reached).target heads.target
  refine .bind (fork_keeps prepared (.flows h.between flows) sound bool
    (forall_mem_cons.mpr ⟨back, prepared.targets⟩ _ fst) (prepared.targets exit (.head _))) ?_
  rintro _ _ - ⟨y, rfl, parts⟩
  have before := parts.reached
  have way := flows.toFollows.trans before
  have start := passes.toFollows.trans way
  have sound' : LoopTargets.Sound ⟨h.block, exit⟩ y.toSite :=
    ⟨way.target heads.target, parts.targets exit (.head _)⟩
  have waiting : y.waiting = [exit] ++ (lies.toList ++ h.waiting) := by
    rw [parts.waiting, flows.waiting]
    simp [Junction.spot]
  have owned : ∀ id ∈ new, id = h.block ∨ u.Owns id := fun id mem =>
    (mem_cons.mp mem).imp_right (prepared.owned id)
  have outer : ∀ id ∈ new, x.Owns id := fun id mem =>
    (owned id mem).elim (fun same => same ▸ heads.inside.block) fun new =>
      heads.inside.owns passes.draft.length (flows.inside.owns flows.draft.length new)
  have links := parts.links (fun id => id = h.block ∨ u.Owns id) (owned _ fst) (owned exit (by simp [new]))
  refine .bind (inBranch_keeps (x := y) [exit] h.waiting parts.stopped waiting
    (fun id mem => parts.targets id (by simp [mem])) sound'.header
    (by rw [parts.tree]; exact kept)
    fun w isOpen way block => inBody ⟨h.block, exit⟩ w isOpen (start.trans way)
      (sound'.mono way.advances) fun id mem => outer id (by
        simp only [mem_cons, not_mem_nil, or_false] at mem
        rcases mem with rfl | rfl | rfl <;> simp [new, mem_def.mp block])) ?_
  rintro _ _ to4 ⟨_, rfl, stopped, waiting, kept, side, through⟩
  refine (enter_keeps [] h.waiting stopped waiting (to4.target sound'.exit)).mono ?_
  rintro _ _ to5 ⟨z, rfl, enters, waiting⟩
  refine ⟨z, rfl, waiting, by rw [enters.tree]; exact kept, h, v, u, lies, ?_⟩
  have ended := (to4.trans to5).draft.ended parts.ended
  rw [← enters.block] at ended
  rw [← enters.block] at side through
  rw [← enters.draft] at through
  exact ⟨heads, passes, flows, holds, bareInside, ended, side.mono before to5,
    before.trans (to4.trans to5), enters.code, enters.isOpen,
    enters.block ▸ prepared.owned exit (by simp), _, links, through⟩

end Stencil
