import Stencil.Proofs.Ir.Reach
import Stencil.Proofs.Lowering.Function

namespace Stencil

open Analysis Tracked List Ir Ir.Function

namespace Ir.Function

def jumpsTo (f : Function) (target : Nat) : List Nat :=
  (List.range f.size).filter fun i => f.blocks[i]?.any (·.terminator = some (.jump target))

variable {f f' : Function} {target i : Nat}

theorem mem_jumpsTo : i ∈ f.jumpsTo target ↔ ∃ code, f.Ended i code (.jump target) := by
  simp only [jumpsTo, mem_filter, mem_range]
  constructor
  · rintro ⟨-, jumps⟩
    obtain ⟨b, has, done⟩ := Option.any_eq_true _ _ |>.mp jumps
    exact ⟨b.code, b, has, rfl, of_decide_eq_true done⟩
  rintro ⟨_, b, has, -, done⟩
  exact ⟨(List.getElem?_eq_some_iff.mp has).1, by rw [has]; simpa using done⟩

theorem jumpsTo_length {places : List Nat} (distinct : places.Nodup)
    (same : ∀ i, i ∈ places ↔ ∃ code, f.Ended i code (.jump target)) :
    (f.jumpsTo target).length = places.length := by
  refine ((perm_ext_iff_of_nodup (nodup_range.filter _) distinct).mpr fun i => ?_).length_eq
  exact mem_jumpsTo.trans (same i).symm

theorem step_iff {a b : Nat} : f.Step a b ↔ ∃ code t, f.Ended a code t ∧ b ∈ t.taken := by
  constructor
  · rintro ⟨block, has, next⟩
    obtain ⟨t, done, next⟩ : ∃ t, block.terminator = some t ∧ b ∈ t.taken := by
      unfold Block.taken at next
      cases done : block.terminator with
      | none => rw [done] at next; cases next
      | some t => rw [done] at next; exact ⟨t, rfl, next⟩
    exact ⟨block.code, t, ⟨block, has, rfl, done⟩, next⟩
  rintro ⟨_, t, ⟨block, has, -, done⟩, next⟩
  exact ⟨block, has, by rw [Block.taken, done]; exact next⟩

theorem Reaches.mono (steps : ∀ a b, f.Step a b → f'.Step a b) {a b : Nat} (reaches : f.Reaches a b) :
    f'.Reaches a b := by
  induction reaches with
  | here a => exact .here a
  | step fst _ ih => exact .step (steps _ _ fst) ih

end Ir.Function

namespace Frame

inductive Way (frame : Frame) (x : Junction) (places : List Nat) (i : Nat) (code : List Inst)
    (t : Terminator) : Prop
  | gives (place : i ∈ places) (gives : frame.Gives code t)
  | goes (old : x.draft.Ended i code t) (on : t.successors ≠ [])
      (apart : ∀ next ∈ t.successors, frame.exit ≠ some next)
  | falls (here : i = x.block) (isOpen : x.IsOpen) (falls : FallsThrough frame x.toSite t)
  | exit {value : Option Value} (exit : frame.exit = some i) (ret : t = .ret value)

structure Completes (frame : Frame) (x : Junction) (y : Site) (places : List Nat) : Prop where
  distinct : places.Nodup
  gives : ∀ i ∈ places, ∃ code t, x.draft.Ended i code t ∧ frame.Gives code t
  new : ∀ {i code t}, x.draft.Ended i code t → i ∈ places ∨
    t.successors ≠ [] ∧ ∀ next ∈ t.successors, frame.exit ≠ some next
  sound : frame.Sound x.toSite
  waiting : x.waiting = frame.exit.toList
  reached : x.Follows y
  finishes : x.Finishes y frame

variable {frame : Frame} {x : Junction} {y : Site} {places : List Nat} {e i : Nat}
  {code : List Inst} {t : Terminator}

section

variable (completes : frame.Completes x y places)
include completes

theorem Completes.given (place : i ∈ places) :
    ∃ code t, y.draft.Ended i code t ∧ frame.Gives code t := by
  obtain ⟨code, t, ended, gives⟩ := completes.gives i place
  exact ⟨code, t, completes.reached.draft.ended ended, gives⟩

theorem Completes.exit (shared : frame.exit = some e) :
    ∃ code value, y.draft.Ended e code (.ret value) := by
  cases held : frame.slot with
  | none => exact ⟨_, _, completes.finishes.bare e shared held⟩
  | some slot =>
    obtain ⟨k, ended⟩ := completes.finishes.stored e slot shared held
    exact ⟨_, _, ended⟩

theorem Completes.way (ended : y.draft.Ended i code t) : frame.Way x places i code t := by
  rcases completes.finishes.before completes.reached completes.waiting ended with
    old | ⟨rfl, isOpen⟩ | exit
  · rcases completes.new old with place | ⟨on, apart⟩
    · obtain ⟨_, _, early, gives⟩ := completes.gives i place
      obtain ⟨rfl, rfl⟩ := early.unique old
      exact .gives place gives
    · exact .goes old on apart
  · obtain ⟨_, falls, ended'⟩ := completes.finishes.falls isOpen
    obtain ⟨-, rfl⟩ := ended'.unique ended
    exact .falls rfl isOpen falls
  obtain ⟨_, _, ended'⟩ := completes.exit exit
  exact .exit exit (ended.unique ended').2

theorem Completes.not_mem (isOpen : x.IsOpen) : x.block ∉ places := by
  intro place
  obtain ⟨_, t, ⟨b, here, -, done⟩, -⟩ := completes.gives _ place
  obtain ⟨_, here', none⟩ := isOpen
  cases here.symm.trans here'
  rw [none] at done
  cases done

end

/-- Where the `return` statements of a function meet. The exit is the only block that gives something
back, only jumps lead to it, and they leave the result in the slot that it loads. -/
structure Meets (frame : Frame) (f : Function) (e returns : Nat) (falls : Bool) : Prop where
  only : ∀ i, (∃ code value, f.Ended i code (.ret value)) ↔ i = e
  unbranched : ∀ i code v yes no, f.Ended i code (.branch v yes no) → yes ≠ e ∧ no ≠ e
  jumps : (f.jumpsTo e).length = returns + if frame.result.isVoid && falls then 1 else 0
  stored : frame.result.isVoid = false → ∃ slot k, frame.slot = some slot ∧
    f.Ended e [.load k frame.result.ir slot] (.ret (some (.temp k))) ∧
      ∀ i code, f.Ended i code (.jump e) → ∃ v, code.getLast? = some (.store frame.result.ir slot v)

variable (completes : frame.Completes x y places)
include completes

theorem Completes.only (shared : frame.exit = some e) :
    (∃ code value, y.draft.Ended i code (.ret value)) ↔ i = e := by
  constructor
  · rintro ⟨_, _, ended⟩
    cases completes.way ended with
    | gives _ gives =>
      cases gives with
      | direct alone =>
        cases shared.symm.trans alone
    | goes _ on => exact absurd rfl on
    | falls _ _ falls =>
      cases falls with
      | ret _ alone =>
        cases shared.symm.trans alone
    | exit exit => exact Option.some.inj (exit.symm.trans shared)
  rintro rfl
  exact completes.exit shared

theorem Completes.jumps (shared : frame.exit = some e)
    (ended : y.draft.Ended i code (.jump e)) : (i ∈ places ∧ frame.Gives code (.jump e)) ∨
      i = x.block ∧ x.IsOpen ∧ frame.result.isVoid := by
  cases completes.way ended with
  | gives place gives => exact .inl ⟨place, gives⟩
  | goes _ _ apart => exact absurd shared (apart e (mem_singleton_self e))
  | falls here isOpen falls =>
    cases falls with
    | exit void => exact .inr ⟨here, isOpen, void⟩
  | exit _ ret => cases ret

theorem Completes.jumpsTo_length
    (shared : frame.exit = some e) {falls : Bool} (fallen : falls ↔ x.IsOpen) :
    (y.draft.jumpsTo e).length = places.length + if frame.result.isVoid && falls then 1 else 0 := by
  have jumps : ∀ i ∈ places, ∃ code, y.draft.Ended i code (.jump e) := by
    intro i place
    obtain ⟨code, t, ended, gives⟩ := completes.given place
    cases gives with
    | direct alone =>
      cases shared.symm.trans alone
    | shared exit =>
      cases exit.symm.trans shared
      exact ⟨code, ended⟩
  by_cases last : frame.result.isVoid ∧ x.IsOpen
  · obtain ⟨void, isOpen⟩ := last
    rw [void, fallen.mpr isOpen, Bool.and_self, if_pos rfl]
    have distinct : (x.block :: places).Nodup :=
      List.nodup_cons.mpr ⟨completes.not_mem isOpen, completes.distinct⟩
    refine Ir.Function.jumpsTo_length distinct fun i => ⟨?_, ?_⟩
    · intro mem
      rcases mem_cons.mp mem with rfl | place
      · obtain ⟨t, falls, ended⟩ := completes.finishes.falls isOpen
        cases falls with
        | exit _ exit =>
          cases exit.symm.trans shared
          exact ⟨_, ended⟩
        | ret _ alone =>
          cases shared.symm.trans alone
        | unreachable some =>
          cases void.symm.trans some
      · exact jumps i place
    rintro ⟨_, ended⟩
    rcases completes.jumps shared ended with ⟨place, -⟩ | ⟨rfl, -⟩
    · exact .tail _ place
    · exact .head _
  rw [if_neg fun both => last ((Bool.and_eq_true _ _ ▸ both).imp_right fallen.mp)]
  refine Ir.Function.jumpsTo_length completes.distinct fun i => ⟨jumps i, ?_⟩
  rintro ⟨_, ended⟩
  rcases completes.jumps shared ended with ⟨place, -⟩ | ⟨-, isOpen, void⟩
  · exact place
  · exact absurd ⟨void, isOpen⟩ last

theorem Completes.meets (shared : frame.exit = some e) {falls : Bool} (fallen : falls ↔ x.IsOpen) :
    frame.Meets y.draft e places.length falls where
  only i := completes.only shared
  unbranched i code v yes no ended := by
    cases completes.way ended with
    | gives _ gives => cases gives
    | goes _ _ apart =>
      exact ⟨fun same => apart yes (by simp [Ir.Terminator.successors]) (same ▸ shared),
        fun same => apart no (by simp [Ir.Terminator.successors]) (same ▸ shared)⟩
    | falls _ _ falls => cases falls
    | exit _ ret => cases ret
  jumps := completes.jumpsTo_length shared fallen
  stored some := by
    cases held : frame.slot with
    | none =>
      rw [completes.sound.void (by rw [shared]; rfl) held] at some
      cases some
    | some slot =>
    obtain ⟨k, ended⟩ := completes.finishes.stored e slot shared held
    refine ⟨slot, k, rfl, ended, fun i _ jump => ?_⟩
    rcases completes.jumps shared jump with ⟨-, gives⟩ | ⟨-, -, void⟩
    · cases gives with
      | shared _ stored => exact stored slot held
    · cases void.symm.trans some

theorem Completes.single (alone : frame.exit = none)
    (some : frame.result.isVoid = false) (one : places.length = 1) :
    ∃ place, ∀ i, (∃ code value, y.draft.Ended i code (.ret value)) ↔ i = place := by
  obtain ⟨place, rfl⟩ := length_eq_one_iff.mp one
  refine ⟨place, fun i => ⟨?_, ?_⟩⟩
  · rintro ⟨_, _, ended⟩
    cases completes.way ended with
    | gives mem => exact mem_singleton.mp mem
    | goes _ on => exact absurd rfl on
    | falls _ _ falls =>
      cases falls with
      | ret void =>
        cases void.symm.trans some
    | exit exit =>
      cases alone.symm.trans exit
  rintro rfl
  obtain ⟨code, t, ended, gives⟩ := completes.given (mem_singleton_self i)
  cases gives with
  | direct => exact ⟨code, _, ended⟩
  | shared exit =>
    cases alone.symm.trans exit

/-- Control never reaches a block that ends in nothing. -/
theorem Completes.reachable
    (reaches : y.draft.Reaches 0 i) : ¬y.draft.Ended i code .unreachable := by
  intro ended
  cases completes.way ended with
  | gives _ gives => cases gives
  | goes _ on => exact on rfl
  | exit _ ret => cases ret
  | falls here isOpen falls =>
  cases falls with
  | unreachable _ unreached =>
  -- Nothing leads on from the end of the body or from its exit, so the way was there before.
  have steps : ∀ a b, y.draft.Step a b → x.draft.Step a b := by
    intro a b step
    obtain ⟨code', t, left, next⟩ := step_iff.mp step
    rcases completes.finishes.before completes.reached completes.waiting left with
      old | ⟨same, -⟩ | exit
    · exact step_iff.mpr ⟨code', t, old, next⟩
    · obtain ⟨-, rfl⟩ := Ir.Function.Ended.unique (here.trans same.symm ▸ ended) left
      cases next
    obtain ⟨_, _, ret⟩ := completes.exit exit
    obtain ⟨-, rfl⟩ := ret.unique left
    cases next
  rw [here] at reaches
  rw [isReachable_of_reaches (reaches.mono steps)] at unreached
  cases unreached

end Frame

variable {frame : Frame} {decl : FuncDecl} {x : Junction}

structure Junction.Lost (x : Junction) (frame : Frame) : Prop where
  isOpen : x.IsOpen
  some : frame.result.isVoid = false
  reaches : x.draft.Reaches 0 x.block

variable {failed : Diagnostic → Session → Prop} {done : Unit → Session → Prop}

theorem leads_terminate {x : Spot} {t : Terminator} {code : Nat}
    (attached : x.session.builder.function = some code)
    (holds : ∀ s, done () s) : Leads (terminate t) x.session done failed := by
  unfold Analysis.Leads
  rw [terminate_run attached]
  exact holds _

theorem exit_succeeds (returns : frame.Sound x.toSite) {e : Nat} (shared : frame.exit = some e)
    (stopped : x.Stopped) (waiting : x.waiting = [e]) (holds : ∀ s, done () s) :
    Leads (do
      build (Ir.Builder.position e)
      let value ← match frame.slot with
        | some slot => some <$> loadFrom frame.result slot
        | none => pure none
      terminate (.ret (value.map (·.value)))) x.session done failed := by
  refine Keeps.leads_on (x := x.toSite)
    (enter_keeps [] [] stopped waiting (returns.exit e shared)) ⟨_, _, rfl⟩ ?_
  rintro _ _ entered ⟨z, rfl, enters, -⟩
  obtain ⟨_, attached⟩ := z.between.attached
  have returns' := returns.mono entered.advances
  cases held : frame.slot with
  | none =>
    exact leads_terminate (x := z.spot enters.isOpen) attached holds
  | some slot =>
  obtain ⟨k, rfl, place⟩ := returns'.slot slot held
  have given : Keeps (some <$> loadFrom frame.result (.temp k)) (z.spot enters.isOpen)
      fun _ _ => True :=
    Keeps.map ((loadFrom_keeps ((z.spot enters.isOpen).slot_usable place) returns'.known).mono
      fun _ _ _ _ => trivial)
  refine Keeps.leads_on (x := z.spot enters.isOpen) given ⟨_, _, rfl⟩ fun _ u way _ => ?_
  exact leads_terminate (way.lowers.function.trans attached) holds

theorem fallThrough_run (isOpen : x.IsOpen) (kept : ¬x.Lost frame) :
    ∃ t s, fallThrough frame decl x.session = .ok t s := by
  unfold fallThrough
  split
  · cases frame.exit <;> exact ⟨_, _, rfl⟩
  rename_i some
  have unreached : x.session.builder.block.any x.session.builder.isReachable = false := by
    rw [x.isReachable_eq, Bool.eq_false_iff]
    exact fun got => kept ⟨isOpen, Bool.not_eq_true _ ▸ some, isReachable_iff.mp got⟩
  rw [get_bind]
  rw [if_neg (by rw [unreached]; nofun)]
  exact ⟨_, _, rfl⟩

theorem falls_leads (returns : frame.Sound x.toSite) {next : Analysis Unit}
    (fails : x.Lost frame → failed (Problem.at (.mayNotReturn decl.name) decl.nameSpan) x.session)
    (after : ∀ y : Junction, x.Follows y.toSite → y.waiting = x.waiting → y.Stopped →
      ¬x.Lost frame → Leads next y.session done failed) :
    Leads (do
      unless (← get).builder.isCurrentTerminated do
        terminate (← fallThrough frame decl)
      next) x.session done failed := by
  refine leads_get.mpr ?_
  rcases x.open_or_stopped with ⟨isOpen, running⟩ | ⟨stopped, done⟩
  · dsimp only
    rw [if_neg (by rw [running]; nofun)]
    by_cases lost : x.Lost frame
    · have way := isReachable_of_reaches lost.reaches
      rw [← x.isReachable_eq] at way
      refine leads_bind.mpr ?_
      unfold fallThrough
      rw [if_neg (by rw [lost.some]; nofun)]
      refine leads_get.mpr ?_
      rw [if_pos way]
      exact fails lost
    refine Keeps.leads_on (x := x.toSite) fallThrough_keeps (fallThrough_run isOpen lost) ?_
    rintro t _ - ⟨rfl, falls⟩
    obtain ⟨_, attached⟩ := x.between.attached
    refine Keeps.leads_on (x := x.toSite) (falls.leaves (x := x.spot isOpen) returns)
      ⟨_, _, terminate_run (x := x.spot isOpen) attached⟩ ?_
    intro _ y way ends
    exact after ⟨y, x.between.same way ends.block⟩ way ends.waiting ends.terminated lost
  dsimp only
  rw [if_pos done]
  exact after x (.refl x.toSite) rfl stopped fun lost => stopped.not_open lost.isOpen

theorem finishBody_leads (returns : frame.Sound x.toSite) (waiting : x.waiting = frame.exit.toList) :
    Leads (finishBody frame decl) x.session (fun _ _ => ¬x.Lost frame)
      fun d _ => x.Lost frame ∧ d.problem = .mayNotReturn decl.name := by
  refine falls_leads returns (fun lost => ⟨lost, rfl⟩) fun y way left stopped kept => ?_
  cases shared : frame.exit with
  | none => exact kept
  | some =>
    rw [waiting, shared] at left
    exact exit_succeeds (returns.mono way.advances) shared stopped left fun _ => kept

end Stencil
