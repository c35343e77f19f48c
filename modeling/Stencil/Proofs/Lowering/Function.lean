import Stencil.Proofs.Lowering.Stmt

namespace Stencil

open Analysis Tracked List ScopeTree

section

variable {x : Spot} {span : Span}

theorem param_usable {index : Nat} {type : Ir.Ty} (param : x.draft.params[index]? = some type) :
    x.Usable (.param index) type :=
  ⟨(List.getElem?_eq_some_iff.mp param).1, param⟩

structure Spot.BindsParam (x y : Spot) (name : String) (type : Ty) (constant : Bool) (index : Nat)
    (span : Span) : Prop where
  block : y.block = x.block
  code : y.code = x.code ++
    [.store type.ir (.temp x.nextTemp) (.param index)]
  slot : y.draft.HasSlot x.nextTemp type.ir
  tree : y.tree = x.tree.grown x.tree.current name (.var
    { type, storage := .slot (.temp x.nextTemp), constant }) span
  temps : y.nextTemp = x.nextTemp + 1

theorem bindParam_keeps (body : (x.tree.kind x.tree.current).isBody) {name : String}
    {type : Ty} {constant : Bool} {index : Nat} (known : type.Known x.tree)
    (storable : type.isStorable) (param : x.draft.params[index]? = some type.ir) :
    Keeps (bindParam name type constant index span) x fun _ y =>
      x.BindsParam y name type constant index span := by
  refine .bind (temporary_keeps type) ?_
  rintro _ u way ⟨address, rfl, slot, draft, block, tree, temps⟩
  have given : u.draft.params[index]? = some type.ir := by
    rw [way.draft.params]
    exact param
  refine .bind (storeAt_keeps address (param_usable given)) ?_
  rintro _ w reached' ⟨emits, temps'⟩
  refine (bindSlot_keeps ((way.trans reached').body body) ((way.trans reached').known known)
    storable (reached'.draft.slots _ _ slot)).mono ?_
  rintro _ y reached'' ⟨session, beside⟩
  have scopes := emits.tree.trans tree
  constructor
  case block => rw [beside.block, emits.block, block]
  case code => rw [beside.code, emits.code rfl, x.code_reserved type.ir draft block]
  case slot => exact (reached'.trans reached'').draft.slots _ _ slot
  case tree =>
    rw [← scopes, Site.tree, session]
    rfl
  case temps =>
    rw [Site.nextTemp, beside.builder]
    exact temps'.trans temps

inductive BindsParams : Nat → List Param → List Ty → Spot → Spot → Prop
  | done {index : Nat} {params : List Param} {types : List Ty} {x : Spot}
      (exceeded : params = [] ∨ types = []) : BindsParams index params types x x
  | next {index : Nat} {param : Param} {params : List Param} {type : Ty} {types : List Ty}
      {x y z : Spot} (binds : x.BindsParam y param.name type false index param.span)
      (reached : x.Flows y) (rest : BindsParams (index + 1) params types y z) :
      BindsParams index (param :: params) (type :: types) x z

theorem bindParams_keeps (params : List Param) : ∀ types index x,
    (x.tree.kind x.tree.current).isBody → (∀ type ∈ types, type.Known x.tree) →
    (∀ i, types[i]?.map Ty.ir = x.draft.params[index + i]?) →
    Keeps (bindParams index params types) x fun _ y => BindsParams index params types x y := by
  induction params with
  | nil =>
    intro _ _ x _ _ _
    exact .pure (.done (.inl rfl))
  | cons param params ih =>
  intro types index x body known given
  cases types with
  | nil => exact .pure (.done (.inr rfl))
  | cons type types =>
  refine .bind (requireStorable_keeps type x) ?_
  rintro _ _ - ⟨rfl, storable⟩
  refine .bind (bindParam_keeps body (known type (.head _)) storable (given 0).symm) ?_
  intro _ y way binds
  refine (ih types (index + 1) y (way.body body)
    (fun type mem => way.known (known type (.tail _ mem))) ?_).mono
      fun _ z _ rest => .next binds way rest
  intro i
  rw [way.draft.params, Nat.add_right_comm]
  exact given (i + 1)

theorem selfType_of_template {t : ScopeTree} (shaped : t.Shaped) {id p : ScopeId}
    {e : TemplateEntry} (up : t.parent? id = some p) (template : t.kind p = .template e) :
    t.selfType? ((t.parent? id).getD root) = some (.struct e.structName p) := by
  have fst : t.enclosing? p (fun k => k.template?.isSome || k.spec?.isSome) = some p := by
    rw [enclosing?, shaped.ancestors_eq, find?_cons, template]
    rfl
  simp only [up, Option.getD_some, selfType?, fst, template, Option.bind_eq_bind, Option.bind_some]

theorem bindSelf_keeps {function : ScopeId} {decl : FuncDecl} {mem : Bool}
    {receiver rest : List Ir.Ty} (body : (x.tree.kind x.tree.current).isBody)
    (receives : x.session.Receives function mem receiver)
    (params : x.draft.params = receiver ++ rest) :
    Keeps (bindSelf function decl mem) x fun count y => count = receiver.length ∧
      (mem = false → x = y) := by
  cases mem with
  | false =>
    obtain rfl : receiver = [] := receives
    exact .pure ⟨rfl, fun _ => rfl⟩
  | true =>
  obtain ⟨p, e, up, template, rfl⟩ := receives
  refine .tree_bind ?_
  have known : Ty.Known x.tree (.pointer (.struct e.structName p)) :=
    Ty.known_struct.mpr ⟨e, template, rfl⟩
  have self := selfType_of_template x.valid.shaped up template
  rw [show (session x).tree = x.session.tree from rfl, self]
  refine .bind (bindParam_keeps body known rfl (by rw [params]; rfl)) ?_
  exact fun _ y _ _ => Keeps.pure ⟨rfl, nofun⟩

end

section

variable {frame : Frame}

structure Spot.Frames (x y : Spot) (result : Ty) (returns : Nat) (frame : Frame) : Prop where
  sound : frame.Sound y.toSite
  result : frame.result = result
  shared : frame.exit = none ↔ returns < 2
  reached : x.Follows y.toSite
  waiting : y.waiting = frame.exit.toList ++ x.waiting
  block : y.block = x.block
  code : y.code = x.code
  tree : y.tree = x.tree
  links : x.draft.Links y.draft fun _ => True
  apart : ∀ i code t, y.draft.Ended i code t → ∀ next ∈ t.successors, frame.exit ≠ some next

theorem Spot.Frames.begins {x y : Spot} {result : Ty} {returns : Nat}
    (frames : x.Frames y result returns frame) : frame.Apart none y.toSite := by
  refine ⟨fun same => ?_, nofun⟩
  have waits : y.block ∈ y.waiting := by
    rw [frames.waiting, same]
    exact .head _
  exact (y.pending.waits y.block waits).1 rfl

theorem resultSlot_keeps {x : Spot} (result : Ty) :
    Keeps (if result.isVoid then pure none else some <$> temporary result) x fun slot y =>
      (∀ v, slot = some v → ∃ k, v = .temp k ∧ y.draft.HasSlot k result.ir) ∧
        result.isVoid = slot.isNone ∧ y.block = x.block ∧ y.code = x.code ∧ y.tree = x.tree := by
  split
  · rename_i void
    exact .pure ⟨nofun, void, rfl, rfl, rfl⟩
  rename_i some
  refine .map ((temporary_keeps result).mono ?_)
  rintro v y - ⟨-, rfl, slot, draft, block, tree, -⟩
  refine ⟨?_, Bool.not_eq_true _ ▸ some, block, x.code_reserved result.ir draft block, tree⟩
  rintro _ ⟨⟩
  exact ⟨_, rfl, slot⟩

theorem newFrame_keeps {x : Spot} {result : Ty} {returns : Nat} (known : result.Known x.tree)
    (typed : x.draft.result = result.ir) :
    Keeps (newFrame result returns) x.toSite fun frame y => ∃ z : Spot, z.toSite = y ∧
      x.Frames z result returns frame := by
  unfold newFrame
  by_cases few : returns < 2
  · rw [if_pos few]
    refine .pure ⟨x, rfl, ?_⟩
    exact ⟨⟨known, typed, nofun, nofun, nofun, nofun⟩, rfl, ⟨fun _ => few, fun _ => rfl⟩,
      .refl x.toSite, rfl, rfl, rfl, rfl, .refl _ _, fun _ _ _ _ _ _ => nofun⟩
  rw [if_neg few]
  refine .join (.bind (resultSlot_keeps result).site ?_)
  rintro slot _ _ ⟨u, rfl, reached, held, void, block, code, tree⟩
  refine .bind (prepare_keeps (.refl u fun _ => False) (by simp) nofun) ?_
  rintro exit _ _ ⟨z, rfl, prepared⟩
  have whole := reached.toFollows.trans prepared.reached
  refine .pure ⟨z, rfl, ?_⟩
  constructor
  case sound =>
    refine ⟨known.mono whole.lowers.tree, whole.draft.result.trans typed, ?_, ?_, fun _ empty => ?_,
      fun v has => ?_⟩
    · rintro _ ⟨⟩
      exact prepared.targets exit (.head _)
    · intro v has
      obtain ⟨k, same, place⟩ := held v has
      exact ⟨k, same, prepared.reached.draft.slots k _ place⟩
    · rw [void, show slot = none from empty]
      rfl
    rw [void, show slot = some v from has]
    rfl
  case result => rfl
  case shared => exact ⟨nofun, fun small => absurd small few⟩
  case reached => exact whole
  case waiting =>
    rw [prepared.waiting, reached.waiting]
    rfl
  case block => rw [prepared.block, block]
  case code => rw [prepared.code, code]
  case tree => rw [prepared.tree, tree]
  case links =>
    exact (reached.inside.links.mono fun _ _ => trivial).trans
      (prepared.links.mono fun _ => False.elim)
  case apart =>
    intro i code t ended next goes same
    obtain rfl : exit = next := Option.some.inj same
    -- The exit is new, and nothing that has ended goes to a block that was not there.
    rcases prepared.links.new ended with ⟨b, has, -, done⟩ | ⟨some, none⟩
    · have old := ((u.built.fits i b has).targets exit (by
        rw [Ir.Block.successors, done]
        exact goes)).2
      rcases prepared.owned exit (.head _) with here | new
      · have waits : exit ∈ z.waiting := by
          rw [prepared.waiting]
          exact .head _
        exact (z.pending.waits exit waits).1 (here.trans prepared.block.symm)
      · exact Nat.not_le.mpr old new
    · exact none exit goes

end

section

variable {frame : Frame} {decl : FuncDecl}

inductive FallsThrough (frame : Frame) (x : Site) : Ir.Terminator → Prop
  | exit {e : Nat} (void : frame.result.isVoid) (shared : frame.exit = some e) :
    FallsThrough frame x (.jump e)
  | ret (void : frame.result.isVoid) (alone : frame.exit = none) :
    FallsThrough frame x (.ret none)
  | unreachable (some : frame.result.isVoid = false) (unreached : x.draft.isReachable x.block = false) :
    FallsThrough frame x .unreachable

theorem Junction.isReachable_eq (x : Junction) :
    x.session.builder.block.any x.session.builder.isReachable = x.draft.isReachable x.block := by
  obtain ⟨code, attached⟩ := x.between.attached
  obtain ⟨has, current⟩ := x.linked.here attached
  rw [current, Option.any_some, Ir.Builder.isReachable, Ir.Builder.currentFunction?, attached]
  change x.session.builder.functions[code]?.any _ = _
  rw [has, Option.any_some]

variable {x : Junction}

theorem fallThrough_keeps : Keeps (fallThrough frame decl) x.toSite fun t y =>
    x.toSite = y ∧ FallsThrough frame x.toSite t := by
  unfold fallThrough
  split
  · rename_i void
    split
    · rename_i e shared
      exact .pure ⟨rfl, .exit void shared⟩
    rename_i alone
    exact .pure ⟨rfl, .ret void alone⟩
  rename_i some
  refine .get_bind ?_
  refine .check rfl fun unreached => Keeps.pure ⟨rfl, .unreachable ?_ ?_⟩
  · exact Bool.not_eq_true _ ▸ some
  rw [← x.isReachable_eq]
  exact Bool.not_eq_true _ ▸ unreached

theorem FallsThrough.leaves {x : Spot} {t : Ir.Terminator} (falls : FallsThrough frame x.toSite t)
    (returns : frame.Sound x.toSite) :
    Keeps (terminate t) x.toSite fun _ y => x.Ends y t := by
  cases falls with
  | exit _ shared => exact jump_keeps (returns.exit _ shared)
  | ret void =>
    refine leave_keeps nofun nofun ?_
    rw [returns.result]
    cases result : frame.result <;> rw [result] at void <;> first | rfl | cases void
  | unreachable => exact leave_keeps nofun nofun trivial

structure Junction.Falls (x y : Junction) (frame : Frame) : Prop where
  stopped : y.Stopped
  ended : x.IsOpen → ∃ t, FallsThrough frame x.toSite t ∧ y.draft.Ended x.block x.code t
  length : y.draft.size = x.draft.size

theorem falls_keeps (returns : frame.Sound x.toSite) {next : Analysis Unit}
    {post : Unit → Site → Prop}
    (after : ∀ y, x.Passes y → x.Falls y frame → Keeps next y.toSite post) :
    Keeps (do
      unless (← get).builder.isCurrentTerminated do
        terminate (← fallThrough frame decl)
      next) x.toSite post := by
  refine .get_bind ?_
  rcases x.open_or_stopped with ⟨isOpen, running⟩ | ⟨stopped, done⟩
  · dsimp only
    rw [if_neg (by
      rw [show (session x.toSite).builder.isCurrentTerminated = false from running]; nofun)]
    refine .bind fallThrough_keeps ?_
    rintro t _ - ⟨rfl, falls⟩
    refine .bind (falls.leaves (x := x.spot isOpen) returns) ?_
    intro _ y way ends
    exact after ⟨y, x.between.same way ends.block⟩ ⟨way, ends.waiting⟩
      ⟨ends.terminated, fun _ => ⟨t, falls, ends.ended⟩, ends.length⟩
  dsimp only
  rw [if_pos (show (session x.toSite).builder.isCurrentTerminated from done)]
  exact after x ⟨.refl x.toSite, rfl⟩ ⟨stopped, fun isOpen => absurd isOpen stopped.not_open, rfl⟩

structure Junction.Finishes (x : Junction) (y : Site) (frame : Frame) : Prop where
  ended : ∀ (i : Nat) (b : Ir.Block), y.draft.blocks[i]? = some b → b.isTerminated
  falls : x.IsOpen → ∃ t, FallsThrough frame x.toSite t ∧ y.draft.Ended x.block x.code t
  stored : ∀ e v, frame.exit = some e → frame.slot = some v →
    ∃ k, y.draft.Ended e [.load k frame.result.ir v] (.ret (some (.temp k)))
  bare : ∀ e, frame.exit = some e → frame.slot = none → y.draft.Ended e [] (.ret none)
  length : y.draft.size = x.draft.size

theorem all_ended {x : Site} (waiting : x.waiting = [])
    (stopped : ∀ b, x.draft.blocks[x.block]? = some b → b.isTerminated) :
    ∀ (i : Nat) (b : Ir.Block), x.draft.blocks[i]? = some b → b.isTerminated := by
  intro i b has
  by_cases last : i = x.block
  · subst last
    exact stopped b has
  · exact x.pending.ended i b has last (by rw [waiting]; nofun)

structure Spot.GivesBack (x : Spot) (y : Site) (frame : Frame) : Prop where
  waiting : y.waiting = x.waiting
  stopped : ∀ b, y.draft.blocks[y.block]? = some b → b.isTerminated
  stored : ∀ v, frame.slot = some v →
    ∃ k, y.draft.Ended x.block [.load k frame.result.ir v] (.ret (some (.temp k)))
  bare : frame.slot = none → y.draft.Ended x.block [] (.ret none)
  length : y.draft.size = x.draft.size

theorem exit_keeps {x : Spot} (returns : frame.Sound x.toSite) (shared : frame.exit.isSome)
    (empty : x.code = []) :
    Keeps (do
      let value ← match frame.slot with
        | some slot => some <$> loadFrom frame.result slot
        | none => pure none
      terminate (.ret (value.map (·.value)))) x.toSite fun _ y => x.GivesBack y frame := by
  cases held : frame.slot with
  | none =>
    have void := returns.void shared held
    refine (leave_keeps (t := .ret none) nofun nofun ?_).mono ?_
    · change x.draft.result = .void
      rw [returns.result]
      cases result : frame.result <;> rw [result] at void <;> first | rfl | cases void
    intro _ y _ ends
    have ended := ends.ended
    rw [empty] at ended
    refine ⟨ends.waiting, ends.terminated, fun v same => ?_, fun _ => ended, ends.length⟩
    rw [held] at same
    cases same
  | some slot =>
  obtain ⟨k, rfl, place⟩ := returns.slot slot held
  have loaded : Keeps (some <$> loadFrom frame.result (.temp k)) x fun value u => ∃ v n,
      value = some v ∧ v.Sound u ∧ v.type = frame.result ∧ v.value = .temp n ∧
        x.Emits u (.load n frame.result.ir (.temp k)) :=
    Keeps.map ((loadFrom_keeps (x.slot_usable place) returns.known).mono
      fun v u _ h => ⟨v, _, rfl, h.1, h.2.1, h.2.2.1, h.2.2.2.1⟩)
  refine .bind loaded.site ?_
  rintro _ _ _ ⟨u, rfl, way, v, n, rfl, sound, type, value, emits⟩
  refine (leave_keeps (t := .ret (some v.value)) nofun ?_ ?_).mono ?_
  · simpa [Ir.Terminator.operands] using sound.usable.1
  · change u.Has v.value u.draft.result
    rw [way.draft.result, returns.result, ← type]
    exact sound.usable.2
  intro _ y _ ends
  have ended := ends.ended
  rw [emits.code rfl, empty, emits.block, value] at ended
  refine ⟨ends.waiting.trans way.waiting, ends.terminated, ?_, fun same => ?_, ?_⟩
  · intro w same
    cases held.symm.trans same
    exact ⟨n, ended⟩
  · rw [held] at same
    cases same
  rw [ends.length, emits.draft]
  exact Ir.Function.change_length

theorem finishBody_keeps (returns : frame.Sound x.toSite)
    (waiting : x.waiting = frame.exit.toList) :
    Keeps (finishBody frame decl) x.toSite fun _ y => x.Finishes y frame := by
  refine falls_keeps returns fun y passes falls => ?_
  cases shared : frame.exit with
  | none =>
    have absent : ∀ e, frame.exit = some e → False := fun e same => by
      rw [shared] at same
      cases same
    rw [shared] at waiting
    exact .pure ⟨all_ended (passes.waiting.trans waiting) falls.stopped, falls.ended,
      fun e _ same => (absent e same).elim, fun e same => (absent e same).elim, falls.length⟩
  | some exit =>
  rw [shared] at waiting
  have returns' := returns.mono passes.advances
  refine .bind (enter_keeps [] [] falls.stopped (passes.waiting.trans waiting)
    (returns'.exit exit shared)) ?_
  rintro _ _ entered ⟨z, rfl, enters, rest⟩
  refine (exit_keeps (x := z.spot enters.isOpen) (returns'.mono entered.advances)
    (by rw [shared]; rfl) enters.code).mono ?_
  rintro _ u way gives
  refine ⟨all_ended (gives.waiting.trans rest) gives.stopped, ?_, ?_, ?_, ?_⟩
  · intro isOpen
    obtain ⟨t, through, ended⟩ := falls.ended isOpen
    exact ⟨t, through, (entered.trans way).draft.ended ended⟩
  · intro e v same held
    cases shared.symm.trans same
    rw [← enters.block]
    exact gives.stored v held
  · intro e same held
    cases shared.symm.trans same
    rw [← enters.block]
    exact gives.bare held
  rw [gives.length, ← falls.length, show (z.spot enters.isOpen).draft = z.draft from rfl,
    enters.draft]

/-- At its end, a body gets no new blocks. -/
theorem Junction.Finishes.before {y : Site} (finishes : x.Finishes y frame)
    (way : x.Follows y) (waiting : x.waiting = frame.exit.toList) {i : Nat} {code : List Ir.Inst}
    {t : Ir.Terminator} (ended : y.draft.Ended i code t) :
    x.draft.Ended i code t ∨ (i = x.block ∧ x.IsOpen) ∨ frame.exit = some i := by
  obtain ⟨_, present', -⟩ := id ended
  obtain ⟨b, has⟩ : ∃ b, x.draft.blocks[i]? = some b := by
    have lies : i < y.draft.size := (List.getElem?_eq_some_iff.mp present').1
    rw [finishes.length] at lies
    exact ⟨_, getElem?_eq_getElem lies⟩
  have old : b.isTerminated → x.draft.Ended i code t := by
    intro done
    obtain ⟨t', done⟩ := Option.isSome_iff_exists.mp done
    have early : x.draft.Ended i b.code t' := ⟨b, has, rfl, done⟩
    obtain ⟨rfl, rfl⟩ := (way.draft.ended early).unique ended
    exact early
  by_cases exit : frame.exit = some i
  · exact .inr (.inr exit)
  by_cases last : i = x.block
  · subst last
    rcases x.open_or_stopped with ⟨isOpen, -⟩ | ⟨stopped, -⟩
    · exact .inr (.inl ⟨rfl, isOpen⟩)
    · exact .inl (old (stopped b has))
  refine .inl (old (x.pending.ended i b has last ?_))
  rw [waiting, Option.mem_toList]
  exact exit

end

variable {r : Resolver} {function : ScopeId} {decl : FuncDecl} {sig : Signature} {body : Block}
  {receiver : List Ir.Ty}

structure BodyStarts (x : Spot) (decl : FuncDecl) (signature : Signature) (returns count : Nat)
    (u w : Spot) (frame : Frame) (y : Junction) : Prop where
  self : x.Flows u ∧ (signature.member = false → x = u)
  params : BindsParams count decl.params signature.params u w ∧ u.Flows w
  frame : ∃ isOpen, w.Frames (y.spot isOpen) signature.result returns frame

theorem BodyStarts.here {x u w : Spot} {returns count : Nat} {frame : Frame} {y : Junction}
    (starts : BodyStarts x decl sig returns count u w frame y) (sound : frame.Sound y.toSite) :
    frame.Here none y := by
  obtain ⟨_, frames⟩ := starts.frame
  exact ⟨sound, nofun, frames.begins⟩

theorem BodyStarts.lowerBlock_keeps {x u w : Spot} {returns count : Nat} {frame : Frame} {y : Junction}
    (starts : BodyStarts x decl sig returns count u w frame y) (resolves : r.Sound)
    (sound : frame.Sound y.toSite) : Keeps (lowerBlock r frame none body) y fun _ e =>
      frame.Builds y.toSite e.toSite body.returns :=
  Stencil.lowerBlock_keeps resolves frame body none y (starts.here sound)

structure BodyBuilds (x : Spot) (decl : FuncDecl) (signature : Signature) (returns count : Nat)
    (during : Frame → Junction → Junction → Prop) (u w : Spot) (frame : Frame) (y e : Junction) :
    Prop where
  starts : BodyStarts x decl signature returns count u w frame y
  passes : y.Passes e
  holds : during frame y e
  sound : frame.Sound e.toSite
  waiting : e.waiting = frame.exit.toList
  some : signature.result.isVoid = false → 0 < returns

variable {x : Junction} (isOpen : x.IsOpen) (waiting : x.waiting = [])
  (receives : x.session.Receives function sig.member receiver)
  (params : x.draft.params = receiver ++ sig.params.map Ty.ir)
  (result : x.draft.result = sig.result.ir)
  (known : (∀ type ∈ sig.params, type.Known x.tree) ∧ sig.result.Known x.tree)

include waiting receives params result known

theorem openBody_keeps {returns : Nat} :
    Keeps (openBody function decl sig returns) x.toSite fun frame z => ∃ u w, ∃ y : Junction,
      y.toSite = z ∧ BodyStarts (x.spot isOpen) decl sig returns receiver.length u w frame y ∧
        frame.Sound y.toSite ∧ y.waiting = frame.exit.toList ∧
          (sig.result.isVoid = false → 0 < returns) := by
  refine .bind (bindSelf_keeps (x := x.spot isOpen) x.between.body receives params).site ?_
  rintro _ _ _ ⟨u, rfl, self, rfl, same⟩
  have body' := self.body x.between.body
  have given : ∀ i, sig.params[i]?.map Ty.ir = u.draft.params[receiver.length + i]? := by
    intro i
    rw [self.draft.params, show (x.spot isOpen).draft.params = _ from params,
      getElem?_append_right (Nat.le_add_right _ _), Nat.add_sub_cancel_left,
      getElem?_map]
  refine .bind (bindParams_keeps decl.params sig.params receiver.length u body'
    (fun type mem => self.known (known.1 type mem)) given).site ?_
  rintro _ _ _ ⟨w, rfl, flows, binds⟩
  refine .check rfl fun some => ?_
  have whole := self.trans flows
  refine (newFrame_keeps (whole.known known.2) (whole.draft.result.trans result)).mono ?_
  rintro frame _ _ ⟨z, rfl, frames⟩
  have between : z.toSite.Between :=
    (Site.Between.flows (x := x.spot isOpen) x.between whole).same frames.reached frames.block
  refine ⟨u, w, ⟨z.toSite, between⟩, rfl, ⟨⟨self, same⟩, ⟨binds, flows⟩, z.isOpen, frames⟩,
    frames.sound, ?_, fun void => ?_⟩
  · rw [show z.waiting = _ from frames.waiting, flows.waiting, self.waiting,
      show (x.spot isOpen).waiting = _ from waiting, append_nil]
  rw [void] at some
  exact Nat.pos_of_ne_zero fun none => some (by rw [none]; rfl)

variable (during : Frame → Junction → Junction → Prop)
  (builds : ∀ u w frame y, BodyStarts (x.spot isOpen) decl sig body.returns receiver.length
    u w frame y → frame.Sound y.toSite →
      Keeps (lowerBlock r frame none body) y fun _ e => during frame y e)

include builds

theorem lowerStatements_keeps :
    Keeps (lowerStatements r function decl sig body) x.toSite fun frame z =>
      ∃ u w y e, e.toSite = z ∧
        BodyBuilds (x.spot isOpen) decl sig body.returns receiver.length during u w frame y e := by
  refine .bind (openBody_keeps isOpen waiting receives params result known) ?_
  rintro frame _ _ ⟨u, w, y, rfl, starts, sound, waiting, some⟩
  refine .bind (builds u w frame y starts sound).around ?_
  rintro _ _ _ ⟨e, rfl, passes, holds⟩
  exact .pure ⟨u, w, y, e, rfl, starts, passes, holds, sound.mono passes.advances,
    passes.waiting.trans waiting, some⟩

theorem lowerBody_keeps :
    Keeps (lowerBody r function decl sig body) x.toSite fun _ z => ∃ u w frame y e,
      BodyBuilds (x.spot isOpen) decl sig body.returns receiver.length during u w frame y e ∧
        e.Follows z ∧ e.Finishes z frame := by
  refine .bind (lowerStatements_keeps isOpen waiting receives params result known during builds) ?_
  rintro frame _ _ ⟨u, w, y, e, rfl, built⟩
  exact (finishBody_keeps built.sound built.waiting).mono
    fun _ z way finishes => ⟨u, w, frame, y, e, built, way, finishes⟩

end Stencil
