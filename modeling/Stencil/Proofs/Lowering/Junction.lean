import Stencil.Proofs.Lowering.Expr
import Stencil.Proofs.Lowering.Scopes

namespace Stencil

open Analysis Tracked Expr

structure Site.Between (x : Site) : Prop where
  attached : x.Attached
  body : (x.tree.kind x.tree.current).isBody
  bare : x.code = [] → ∀ k, ¬x.supply x.block k
  assigns : x.assigns

structure Junction extends Site where
  between : toSite.Between

namespace Junction

/-- A later junction in the same list of statements. -/
structure Passes (x y : Junction) : Prop extends x.toSite.Follows y.toSite where
  waiting : y.waiting = x.waiting

theorem Passes.trans {x y z : Junction} (fst : x.Passes y) (snd : y.Passes z) : x.Passes z :=
  ⟨fst.toFollows.trans snd.toFollows, snd.waiting.trans fst.waiting⟩

instance : Tracked Junction where
  session x := x.session
  later := Passes
  failed x d s := x.Excuses d ∧ s.Valid ∧ x.session.Lowers s
  refl x := ⟨.refl x.toSite, rfl⟩
  trans := Passes.trans
  carried := by
    rintro x y d s way ⟨excused, valid, more⟩
    exact ⟨way.excuses excused, valid, way.lowers.trans more⟩
  stopped x _ ordinary := ⟨x.excuses ordinary, x.valid, .refl x.session⟩

def spot (x : Junction) (isOpen : x.IsOpen) : Spot := ⟨x.toSite, isOpen⟩

end Junction

section

variable {α : Type} {step : Analysis α} {x : Junction}

theorem Analysis.Keeps.around {post : α → Junction → Prop} (inner : Keeps step x post) :
    Keeps step x.toSite fun a y => ∃ z : Junction, z.toSite = y ∧ x.Passes z ∧ post a z := by
  refine Leads.mono inner ?_ fun _ _ h => h
  rintro a s ⟨y, same, way, holds⟩
  exact ⟨y.toSite, same, way.toFollows, y, rfl, way, holds⟩

theorem Analysis.Keeps.junction {post : α → Junction → Prop}
    (outer : Keeps step x.toSite fun a y => ∃ z : Junction, z.toSite = y ∧
      z.waiting = x.waiting ∧ post a z) : Keeps step x post := by
  refine Leads.mono outer ?_ fun _ _ h => h
  rintro a s ⟨_, same, way, y, rfl, waiting, holds⟩
  exact ⟨y, same, ⟨way, waiting⟩, holds⟩

end

namespace Site.Between

variable {x y : Site}

theorem later (between : x.Between) (way : x.Follows y)
    (bare : y.code = [] → ∀ k, ¬y.supply y.block k) : y.Between where
  attached := way.attached between.attached
  body := by
    rw [way.current, (way.lowers.tree.kind _ (ScopeTree.lt_of_alive x.valid.current)).isBody]
    exact between.body
  bare := bare
  assigns := way.assigns.trans between.assigns

theorem same (between : x.Between) (way : x.Follows y) (block : y.block = x.block) : y.Between := by
  refine between.later way fun empty k supplied => ?_
  have code := way.code block
  rw [empty] at code
  refine between.bare (List.prefix_nil.mp code) k ?_
  rw [block] at supplied
  exact (way.draft.supplies _ k x.pending.inside).mp supplied

theorem flows {x y : Spot} (between : x.toSite.Between) (way : x.Flows y) : y.toSite.Between := by
  rcases way.moved with block | filled
  · exact between.same way.toFollows block
  · exact between.later way.toFollows fun empty => absurd empty filled

end Site.Between

theorem Analysis.Keeps.straight {α : Type} {step : Analysis α} {x : Junction} {isOpen : x.IsOpen}
    {post : α → Spot → Prop} (inner : Keeps step (x.spot isOpen) post) :
    Keeps step x fun a y => ∃ z : Spot, z.toSite = y.toSite ∧ (x.spot isOpen).Flows z ∧
      post a z := by
  refine .junction (inner.site.mono ?_)
  rintro a _ _ ⟨z, rfl, way, holds⟩
  exact ⟨⟨z.toSite, Site.Between.flows x.between way⟩, rfl, way.waiting, z, rfl, way, holds⟩

/-- A later site, perhaps with the insertion point in another scope. -/
structure Site.Advances (x y : Site) : Prop where
  lowers : x.session.Lowers y.session
  draft : x.draft.Continues x.supply y.draft y.supply

variable {x y : Site}

theorem Site.Follows.advances (way : x.Follows y) : x.Advances y :=
  ⟨way.lowers, way.draft⟩

structure Site.Target (x : Site) (id : Nat) : Prop where
  later : 0 < id
  inside : id < x.draft.size
  bare : ∀ k, ¬x.supply id k

theorem Site.Advances.target (advanced : x.Advances y) {id : Nat}
    (target : x.Target id) : y.Target id where
  later := target.later
  inside := Nat.lt_of_lt_of_le target.inside advanced.draft.length
  bare k supplied := target.bare k ((advanced.draft.supplies id k target.inside).mp supplied)

theorem Site.Follows.target (way : x.Follows y) {id : Nat} (target : x.Target id) : y.Target id :=
  way.advances.target target

section

variable {x : Spot} {t : Ir.Terminator}

theorem leave_keeps (targets : ∀ id ∈ t.successors, x.Target id)
    (ready : ∀ v ∈ t.operands, x.Ready v)
    (typed : t.Typed x.session.context x.draft.params x.types x.draft.result) :
    Keeps (terminate t) x.toSite fun _ y => x.Ends y t :=
  terminate_keeps (fun id mem => ⟨(targets id mem).later, (targets id mem).inside⟩) ready
    (fun id mem k supplied => absurd supplied ((targets id mem).bare k)) typed

theorem jump_keeps {next : Nat} (target : x.Target next) :
    Keeps (terminate (.jump next)) x.toSite fun _ y => x.Ends y (.jump next) := by
  refine leave_keeps ?_ nofun trivial
  exact List.forall_mem_singleton.mpr target

end

/-- How a function returns agrees with its code. -/
structure Frame.Sound (frame : Frame) (x : Site) : Prop where
  known : frame.result.Known x.tree
  result : x.draft.result = frame.result.ir
  exit : ∀ id, frame.exit = some id → x.Target id
  slot : ∀ v, frame.slot = some v → ∃ k, v = .temp k ∧ x.draft.HasSlot k frame.result.ir
  void : frame.exit.isSome → frame.slot = none → frame.result.isVoid
  filled : ∀ v, frame.slot = some v → frame.result.isVoid = false

/-- The exit is not among the blocks that come later. -/
theorem Frame.Sound.apart {frame : Frame} {x : Site} (sound : frame.Sound x)
    (apart : frame.exit ≠ some x.block) {id : Nat} (owns : x.Owns id) : frame.exit ≠ some id := by
  rcases owns with rfl | new
  · exact apart
  · exact fun same => Nat.not_le.mpr (sound.exit id same).inside new

theorem Frame.Sound.mono {frame : Frame} (sound : frame.Sound x)
    (advanced : x.Advances y) : frame.Sound y where
  known := sound.known.mono advanced.lowers.tree
  result := advanced.draft.result.trans sound.result
  exit id got := advanced.target (sound.exit id got)
  slot v got := by
    obtain ⟨k, same, slot⟩ := sound.slot v got
    exact ⟨k, same, advanced.draft.slots k _ slot⟩
  void := sound.void
  filled := sound.filled

section

variable {r : Resolver} {frame : Frame} {x : Spot} {span : Span}

theorem returnValue_keeps (resolves : r.Sound) {result : Ty} (known : result.Known x.tree)
    {value : Option Expr} : Keeps (returnValue r result value span) x fun given y =>
      (∀ v, given = some v → y.Usable v result.ir) ∧ (given = none → result.isVoid) := by
  cases value with
  | some =>
    refine .check rfl fun _ => ?_
    refine .bind (lower_keeps resolves (hintKnown_some known)) ?_
    intro v y way sound
    refine .bind (convertTo_keeps sound (way.known known)) ?_
    rintro w z - ⟨converted, same⟩
    refine .pure ⟨?_, nofun⟩
    rintro _ ⟨⟩
    rw [← same]
    exact converted.usable
  | none => exact .require rfl fun void => Keeps.pure ⟨nofun, fun _ => void⟩

inductive Returned (frame : Frame) (value : Option Ir.Value) (x : Spot) (y : Site) : Prop
  | direct (exit : frame.exit = none) (ends : x.Ends y (.ret value))
  | stored {e : Nat} {slot v : Ir.Value} {z : Spot} (exit : frame.exit = some e)
      (held : frame.slot = some slot) (given : value = some v) (reached : x.Flows z)
      (emits : x.Emits z (.store frame.result.ir slot v)) (left : z.Follows y)
      (ends : z.Ends y (.jump e))
  | bare {e : Nat} (exit : frame.exit = some e) (without : frame.slot = none ∨ value = none)
      (ends : x.Ends y (.jump e))

variable {value : Option Ir.Value}

theorem Returned.ends {y : Site} (returned : Returned frame value x y) :
    ∃ z t, x.Flows z ∧ z.block = x.block ∧ z.Ends y t := by
  cases returned with
  | direct _ ends | bare _ _ ends => exact ⟨x, _, .refl x, rfl, ends⟩
  | stored _ _ _ way emits _ ends => exact ⟨_, _, way, emits.block, ends⟩

theorem Returned.tree {y : Site} (returned : Returned frame value x y) : y.tree = x.tree := by
  cases returned with
  | direct _ ends | bare _ _ ends => exact ends.tree
  | stored _ _ _ _ emits _ ends => exact ends.tree.trans emits.tree

theorem giveBack_keeps (sound : frame.Sound x.toSite)
    (usable : ∀ v, value = some v → x.Usable v frame.result.ir)
    (void : value = none → frame.result.isVoid) :
    Keeps (giveBack frame value) x.toSite fun _ y => Returned frame value x y := by
  unfold giveBack
  cases exit : frame.exit with
  | none =>
    refine (leave_keeps (fun _ mem => by cases mem) ?_ ?_).mono fun _ _ _ ends => .direct exit ends
    · intro v mem
      cases value with
      | none => cases mem
      | some w => exact List.mem_singleton.mp mem ▸ (usable w rfl).1
    cases value with
    | none =>
      rw [sound.result]
      cases result : frame.result <;> rw [result] at void <;> first | rfl | cases void rfl
    | some w =>
      rw [sound.result]
      exact (usable w rfl).2
  | some e =>
  have target := sound.exit e exit
  cases held : frame.slot with
  | none => exact (jump_keeps target).mono fun _ _ _ ends => .bare exit (.inl held) ends
  | some slot =>
  cases value with
  | none => exact (jump_keeps target).mono fun _ _ _ ends => .bare exit (.inr rfl) ends
  | some v =>
  obtain ⟨k, rfl, place⟩ := sound.slot slot held
  refine .bind (storeAt_keeps (x.slot_usable place) (usable v rfl)).site ?_
  rintro _ _ _ ⟨z, rfl, way, emits, -⟩
  exact (jump_keeps (way.target target)).mono fun _ _ left ends =>
    .stored exit held rfl way emits left ends

theorem lowerReturn_keeps {value : Option Expr} {post : Option Ir.Value → Spot → Prop}
    (sound : frame.Sound x.toSite)
    (evaluates : Keeps (returnValue r frame.result value span) x fun given z =>
      ((∀ v, given = some v → z.Usable v frame.result.ir) ∧
        (given = none → frame.result.isVoid)) ∧ post given z) :
    Keeps (lowerReturn r frame value span) x.toSite fun _ y => ∃ (z : Spot)
      (given : Option Ir.Value), x.Flows z ∧ post given z ∧ z.Follows y ∧
        Returned frame given z y := by
  refine .bind evaluates.site ?_
  rintro given _ _ ⟨z, rfl, way, ⟨usable, void⟩, holds⟩
  exact (giveBack_keeps (sound.mono way.advances) usable void).mono fun _ y left returned =>
    ⟨z, given, way, holds, left, returned⟩

end

variable {r : Resolver} {x : Spot} {span : Span} {name : String} {constant : Bool}

structure Spot.BindsSlot (x y : Spot) (name : String) (entry : VariableEntry) (span : Span) :
    Prop where
  session : y.session = x.session.grown x.tree.current name (.var entry) span
  beside : x.toSite.Beside y.toSite

theorem bindSlot_keeps (body : (x.tree.kind x.tree.current).isBody) {type : Ty} {k : Nat}
    (known : type.Known x.tree) (storable : type.isStorable)
    (slot : x.draft.HasSlot k type.ir) :
    Keeps (bindSlot name type (.temp k) constant span) x fun _ y =>
      x.BindsSlot y name { type, storage := .slot (.temp k), constant } span := by
  refine .spot ?_
  refine .bind (add_keeps body (.inr ⟨_, k, rfl, rfl, ⟨known, storable⟩, slot⟩)) ?_
  rintro _ y way ⟨-, session, beside⟩
  let z : Spot := ⟨y, beside.isOpen x.isOpen⟩
  exact .pure ⟨z, rfl, Spot.flows_of_follows way beside.block beside.waiting
    (.of_eq beside.draft), session, beside⟩

theorem Spot.Flows.body {y : Spot} (way : x.Flows y) (body : (x.tree.kind x.tree.current).isBody) :
    (y.tree.kind y.tree.current).isBody := by
  rw [way.current, (way.lowers.tree.kind _ (ScopeTree.lt_of_alive x.valid.current)).isBody]
  exact body

theorem lowerBinding_keeps (resolves : r.Sound) {type : Option TypeSyntax} {init : Option Expr}
    (body : (x.tree.kind x.tree.current).isBody) :
    Keeps (lowerBinding r name span type init constant) x := by
  unfold lowerBinding
  split
  · exact .fail rfl
  · rename_i written
    refine .tree_bind ?_
    refine .bind (Spot.outside (Resolver.type_keeps resolves _ written _)) ?_
    rintro type y way ⟨known, -⟩
    refine .bind (requireStorable_keeps type y) ?_
    rintro _ _ - ⟨rfl, storable⟩
    refine .bind (temporary_keeps type) ?_
    rintro _ z reached' ⟨address, rfl, slot, -⟩
    have known' := reached'.known known
    have body' := (way.trans reached').body body
    cases init with
    | none => exact (bindSlot_keeps body' known' storable slot).mono fun _ _ _ _ => trivial
    | some =>
    refine .bind (lowerInto_keeps resolves address known') ?_
    intro _ u reached'' _
    exact (bindSlot_keeps (reached''.body body') (reached''.known known') storable
      (reached''.draft.slots _ _ slot)).mono fun _ _ _ _ => trivial
  · exact .fail rfl
  refine .bind (lower_keeps resolves (hintKnown_none x)) ?_
  intro v y way sound
  refine .bind (requireStorable_keeps v.type y) ?_
  rintro _ _ - ⟨rfl, storable⟩
  refine .bind (temporary_keeps v.type) ?_
  rintro _ z reached' ⟨address, rfl, slot, -⟩
  refine .bind (storeAt_keeps address (reached'.usable sound.usable)) ?_
  intro _ u reached'' _
  have whole := way.trans (reached'.trans reached'')
  exact (bindSlot_keeps (whole.body body) ((reached'.trans reached'').known sound.known) storable
    (reached''.draft.slots _ _ slot)).mono fun _ _ _ _ => trivial

theorem lowerAssignment_keeps (resolves : r.Sound) (assigns : x.assigns)
    {target value : Expr} : Keeps (lowerAssignment r target value) x := by
  refine .bind (lowerPlace_keeps resolves) fun _ y way sound => ?_
  split
  · rename_i constant _
    have excused : y.Excuses ((Problem.constantAssigned constant).at target.span) := by
      refine ⟨nofun, fun off => ?_⟩
      rw [way.assigns, assigns] at off
      cases off
    exact .bind (m := fun _ _ => False) ⟨excused, y.valid, .refl y.session⟩ fun _ _ _ h => h.elim
  · exact lowerInto_keeps resolves sound.usable sound.known

end Stencil
