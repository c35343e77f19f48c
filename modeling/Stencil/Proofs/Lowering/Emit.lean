import Stencil.Proofs.Lowering.Site

namespace Stencil

open Analysis Tracked Ir Ir.Function Ir.Types Nat List Ir.Builder Ir.Inst

namespace Site

variable (x : Site) {f : Function} {n : Nat} {supply : Supply} {types : Types} {waiting : List Nat}

def recoded (f : Function) (n : Nat) : Session :=
  x.session.withBuilder { x.session.builder.withCurrent f with nextTemp := n }

theorem valid_recoded (continues : x.draft.Continues x.supply f supply)
    (more : x.nextTemp ≤ n) :
    (x.recoded f n).Valid ∧ x.session.Lowers (x.recoded f n) :=
  x.valid.rebuilt x.linked ⟨continues.name, continues.params, continues.result⟩ rfl rfl rfl
    rfl rfl rfl more

def recode (continues : x.draft.Continues x.supply f supply)
    (more : x.nextTemp ≤ n) (built : f.Draft x.session.context supply types n)
    (pending : f.Pending x.block waiting) : Site where
  session := x.recoded f n
  draft := f
  block := x.block
  supply := supply
  types := types
  waiting := waiting
  owner := x.owner
  start := x.start
  assigns := x.assigns
  valid := (x.valid_recoded continues more).1
  linked := x.linked.withCurrent f
  built := built.mono (x.valid_recoded continues more).2.context
  pending := pending
  visible := x.visible.rebuilt _ continues.slots

variable {x} in
theorem follows_recoded {y : Site} (continues : x.draft.Continues x.supply y.draft y.supply)
    (more : x.nextTemp ≤ n) (session : y.session = x.recoded y.draft n)
    (wider : x.types.Within y.types) (owner : y.owner = x.owner) (start : y.start = x.start)
    (assigns : y.assigns = x.assigns) : x.Follows y := by
  have lowers := (x.valid_recoded continues more).2
  rw [← session] at lowers
  exact ⟨lowers, continues, wider, by rw [Site.tree, session]; rfl, owner, start, assigns⟩

end Site

namespace Spot

section

variable (x : Spot) (inst : Inst)

def pushed : Function := x.draft.change x.block (·.push inst)

variable {inst} {types : Types} {n : Nat} (plain : inst.isAlloca = false)

include plain in
theorem continues_pushed : x.draft.Continues x.supply (x.pushed inst) x.supply := by
  obtain ⟨b, here, isOpen⟩ := x.isOpen
  exact continues_push here plain isOpen

variable (ready : ∀ v ∈ inst.operands, x.Ready v) (wider : x.types.Within types)
  (typed : inst.Typed x.session.context x.draft.params types) (larger : x.nextTemp ≤ n)
  (fresh : ∀ k, inst.dst? = some k → x.nextTemp ≤ k ∧ k < n)
  (unknown : ∀ k, n ≤ k → types k = none)

include plain ready wider typed larger fresh unknown in
theorem built_pushed : (x.pushed inst).Draft x.session.context x.supply types n := by
  obtain ⟨b, here, _⟩ := x.isOpen
  simp only [Site.Ready, x.code_eq here] at ready
  exact x.built.push here plain ready wider typed larger fresh unknown

def push : Spot where
  toSite := x.recode (x.continues_pushed plain) larger
    (x.built_pushed plain ready wider typed larger fresh unknown) (x.pending.change _)
  isOpen := by
    obtain ⟨b, here, isOpen⟩ := x.isOpen
    exact ⟨b.push inst, change_here here, isOpen⟩

theorem flows_push : x.Flows (x.push plain ready wider typed larger fresh unknown) :=
  flows_of_follows (Site.follows_recoded (x.continues_pushed plain) larger rfl wider rfl rfl rfl) rfl rfl
    (links_change (x.continues_pushed plain) fun _ => rfl)

theorem code_pushed {y : Spot} (draft : y.draft = x.pushed inst) (block : y.block = x.block)
    (plain : inst.isAlloca = false) : y.code = x.code ++ [inst] := by
  obtain ⟨b, here, -⟩ := x.isOpen
  have there : y.draft.blocks[y.block]? = some (b.push inst) := by
    rw [draft, block]
    exact change_here here
  rw [y.code_eq there, x.code_eq here, code_push plain]

end

section

variable (x : Spot) (type : Ir.Ty)

def reserved : Function :=
  x.draft.change 0 (·.reserve (.alloca x.nextTemp type))

theorem entry_here : ∃ b, x.draft.blocks[0]? = some b :=
  ⟨_, getElem?_eq_getElem (Nat.lt_of_le_of_lt (Nat.zero_le _) x.pending.inside)⟩

theorem continues_reserved : x.draft.Continues x.supply (x.reserved type) x.supply := by
  obtain ⟨b, here⟩ := x.entry_here
  exact continues_reserve here rfl

theorem built_reserved : (x.reserved type).Draft x.session.context x.supply
    (x.types.note x.nextTemp (.pointer type))
    (x.nextTemp + 1) := by
  obtain ⟨b, here⟩ := x.entry_here
  exact x.built.reserve here type

theorem hasSlot_reserved : (x.reserved type).HasSlot x.nextTemp type := by
  obtain ⟨b, here⟩ := x.entry_here
  exact hasSlot_reserve here _ type

def reserve : Spot where
  toSite := x.recode (x.continues_reserved type) (le_succ _) (x.built_reserved type)
    (x.pending.reserve rfl)
  isOpen := by
    obtain ⟨b, here, isOpen⟩ := x.isOpen
    by_cases entry : x.block = 0
    · refine ⟨b.reserve (.alloca x.nextTemp type), ?_, isOpen⟩
      change (x.reserved type).blocks[x.block]? = _
      rw [entry] at here ⊢
      exact change_here here
    · exact ⟨b, (change_other entry).trans here, isOpen⟩

theorem flows_reserve : x.Flows (x.reserve type) :=
  flows_of_follows (Site.follows_recoded (x.continues_reserved type) (le_succ _) rfl
    (within_note (x.built.unknown _ .refl)) rfl rfl rfl) rfl rfl
    (links_change (x.continues_reserved type) fun _ => rfl)

theorem code_reserved {y : Spot} (draft : y.draft = x.reserved type) (block : y.block = x.block) :
    y.code = x.code := by
  obtain ⟨b, here, -⟩ := x.isOpen
  by_cases entry : x.block = 0
  · have there : y.draft.blocks[y.block]? = some (b.reserve (.alloca x.nextTemp type)) := by
      rw [draft, block]
      rw [entry] at here ⊢
      exact change_here here
    rw [y.code_eq there, x.code_eq here]
    exact b.code_reserve rfl
  have there : y.draft.blocks[y.block]? = some b := by
    rw [draft, block]
    exact (change_other entry).trans here
  rw [y.code_eq there, x.code_eq here]

theorem usable_reserve : (x.reserve type).Usable (.temp x.nextTemp) (.pointer type) :=
  ⟨.inl ⟨type, x.hasSlot_reserved type⟩, note_here _ _ _⟩

end

section

variable {x : Spot}

structure Emits (x y : Spot) (inst : Inst) : Prop where
  draft : y.draft = x.pushed inst
  block : y.block = x.block
  tree : y.tree = x.tree

theorem Emits.code {y : Spot} {inst : Inst} (emits : x.Emits y inst)
    (plain : inst.isAlloca = false) : y.code = x.code ++ [inst] :=
  x.code_pushed emits.draft emits.block plain

theorem build_run {α : Type} {step : Build α} {s : Session} {a : α} {b : Builder}
    (run : step s.builder = (a, b)) : build step s = .ok a (s.withBuilder b) := by
  simp only [build_eq, run, Session.withBuilder]

variable {given : Ir.Ty}

theorem emit_keeps {inst : Inst} (plain : inst.isAlloca = false)
    (ready : ∀ v ∈ inst.operands, x.Ready v)
    (gives : inst.Gives x.session.context x.draft.params x.types given)
    (silent : inst.dst? = none) :
    Keeps (build (emit inst)) x fun _ y =>
      x.Emits y inst ∧ y.nextTemp = x.nextTemp := by
  obtain ⟨b, here, isOpen⟩ := x.isOpen
  have pushed := x.flows_push plain ready (fun _ _ h => h) ⟨given, gives, by simp [silent]⟩ .refl
    (by simp [silent]) x.built.unknown
  exact .step (y := x.push ..) (build_run (x.linked.emit_eq here isOpen inst)) pushed
    ⟨⟨rfl, rfl, rfl⟩, rfl⟩

abbrev Computes (x y : Spot) (v : Value) (type : Ir.Ty) (inst : Nat → Inst) : Prop :=
  y.Usable v type ∧ v = .temp x.nextTemp ∧
    x.Emits y (inst x.nextTemp) ∧
      y.nextTemp = x.nextTemp + 1

section

variable {inst : Nat → Inst} (plain : (inst x.nextTemp).isAlloca = false)
  (ready : ∀ v ∈ (inst x.nextTemp).operands, x.Ready v)
  (gives : (inst x.nextTemp).Gives x.session.context x.draft.params x.types given)
  (dst : (inst x.nextTemp).dst? = some x.nextTemp)
include plain ready gives dst

theorem emitInto_keeps : Keeps (build (emitInto inst)) x fun v y => x.Computes y v given inst := by
  obtain ⟨b, here, isOpen⟩ := x.isOpen
  have wider : x.types.Within (x.types.note x.nextTemp given) :=
    within_note (x.built.unknown _ .refl)
  have only : ∀ k, (inst x.nextTemp).dst? = some k → k = x.nextTemp := fun _ result =>
    (Option.some.inj (dst.symm.trans result)).symm
  let y := x.push plain ready wider
    ⟨given, gives.mono (.refl _) wider, fun k result => only k result ▸ note_here _ _ _⟩ (le_succ _)
    (fun k result => only k result ▸ ⟨.refl, lt_succ_self _⟩) (note_unknown x.built.unknown)
  have code : y.code = x.code ++ [inst x.nextTemp] := x.code_pushed rfl rfl plain
  refine .step (y := y) (build_run (x.linked.emitInto_eq here isOpen inst)) (x.flows_push ..)
    ⟨⟨.inr (.inr ⟨_, code ▸ ?_, dst⟩), note_here _ _ _⟩, rfl, ⟨rfl, rfl, rfl⟩, rfl⟩
  exact mem_append_right _ (mem_singleton.mpr rfl)

theorem emitInto_usable : Keeps (build (emitInto inst)) x fun v y => y.Usable v given :=
  (emitInto_keeps plain ready gives dst).mono fun _ _ _ h => h.1

end

theorem entryAlloca_keeps (type : Ir.Ty) :
    Keeps (build (entryAlloca type)) x fun v y => y.Usable v (.pointer type) ∧
      v = .temp x.nextTemp ∧ y.draft.HasSlot x.nextTemp type ∧ y.draft = x.reserved type ∧
          y.block = x.block ∧ y.tree = x.tree ∧ y.nextTemp = x.nextTemp + 1 :=
  Keeps.step (y := x.reserve type) (build_run (x.linked.entryAlloca_eq type)) (x.flows_reserve type)
    ⟨x.usable_reserve type, rfl, x.hasSlot_reserved type, rfl, rfl, rfl, rfl⟩

variable {v addr left right : Value} {type : Ir.Ty}

theorem load_keeps (address : x.Usable addr (.pointer type)) :
    Keeps (build (Ir.Builder.load type addr)) x fun v y => x.Computes y v type (.load · type addr) :=
  emitInto_keeps rfl (by simpa [operands] using address.1) ⟨address.2, rfl⟩ rfl

theorem store_keeps (address : x.Usable addr (.pointer type)) (source : x.Usable v type) :
    Keeps (build (Ir.Builder.store type addr v)) x fun _ y => x.Emits y (.store type addr v) ∧
      y.nextTemp = x.nextTemp :=
  emit_keeps rfl (by simpa [operands] using ⟨address.1, source.1⟩) ⟨address.2, source.2, rfl⟩ rfl

theorem binary_keeps {op : BinOp} {signed : Bool} (fst : x.Usable left type)
    (snd : x.Usable right type) :
    Keeps (build (Ir.Builder.binary op type signed left right)) x fun v y =>
      x.Computes y v type (.binary · op type signed left right) :=
  emitInto_keeps rfl (by simpa [operands] using ⟨fst.1, snd.1⟩) ⟨fst.2, snd.2, rfl⟩ rfl

theorem compare_keeps {op : CmpOp} {signed : Bool} (fst : x.Usable left type)
    (snd : x.Usable right type) :
    Keeps (build (Ir.Builder.compare op type signed left right)) x fun v y =>
      x.Computes y v .bool (.compare · op type signed left right) :=
  emitInto_keeps rfl (by simpa [operands] using ⟨fst.1, snd.1⟩) ⟨fst.2, snd.2, rfl⟩ rfl

theorem unary_keeps {op : UnOp} (source : x.Usable v type) :
    Keeps (build (Ir.Builder.unary op type v)) x fun v' y =>
      x.Computes y v' type (.unary · op type v) :=
  emitInto_keeps rfl (by simpa [operands] using source.1) ⟨source.2, rfl⟩ rfl

theorem cast_keeps {kind : CastKind} {target : Ir.Ty} (source : x.Usable v type) :
    Keeps (build (Ir.Builder.cast kind type target v)) x fun v y => y.Usable v target :=
  emitInto_usable rfl (by simpa [operands] using source.1) ⟨source.2, rfl⟩ rfl

theorem fieldAddr_keeps {struct : String} {index : Nat}
    (base : x.Usable addr (.pointer (.struct struct)))
    (field : x.session.context.field struct index type) :
    Keeps (build (Ir.Builder.fieldAddr struct addr index)) x fun v y => y.Usable v (.pointer type) :=
  emitInto_usable rfl (by simpa [operands] using base.1) ⟨base.2, type, field, rfl⟩ rfl

theorem elemAddr_keeps {count : Nat} (base : x.Usable addr (.pointer (.array type count)))
    (position : x.Ready v) :
    Keeps (build (Ir.Builder.elemAddr type addr v)) x fun v y => y.Usable v (.pointer type) :=
  emitInto_usable rfl (by simpa [operands] using ⟨base.1, position⟩) ⟨⟨count, base.2⟩, rfl⟩ rfl

theorem ready_of_matching {args : List Value} {params : List Ir.Ty}
    (matching : List.Forall₂ x.Usable args params) : ∀ w ∈ args, x.Ready w := by
  induction matching with
  | nil => exact nofun
  | cons usable _ ih =>
  exact forall_mem_cons.mpr ⟨usable.1, ih⟩

/-- A call gives a value of the result type, which is `void` if there is none. -/
theorem call_keeps {args : List Value} {params : List Ir.Ty}
    (callee : x.Usable v (.pointer (.function params type)))
    (matching : List.Forall₂ x.Usable args params) :
    Keeps (build (Ir.Builder.call v args type)) x fun v y => y.Usable v type := by
  have ready : ∀ dst, ∀ w ∈ (Ir.Inst.call dst v args type).operands, x.Ready w := by
    intro _
    exact forall_mem_cons.mpr ⟨callee.1, ready_of_matching matching⟩
  have gives : ∀ dst, (Ir.Inst.call dst v args type).Gives x.session.context x.draft.params x.types
      type := fun _ => ⟨⟨params, callee.2, matching.imp fun _ _ h => h.2⟩, rfl⟩
  unfold Ir.Builder.call
  split
  · rename_i isVoid
    have result : type = .void := by
      cases type <;> first | rfl | cases isVoid
    have run : build (do
        emit (.call none v args type)
        return (.undef : Value)) = (fun _ => .undef) <$> build (emit (.call none v args type)) := rfl
    rw [run]
    exact .map ((emit_keeps rfl (ready none) (gives none) rfl).mono fun _ _ _ _ => ⟨trivial, result⟩)
  · exact emitInto_usable rfl (ready _) (gives _) rfl

end

variable {x : Spot} {α : Type} {step : Analysis α}

def grow (x : Spot) {s : Session} (valid : s.Valid) (grows : x.session.Grows [] s) : Spot where
  session := s
  draft := x.draft
  block := x.block
  supply := x.supply
  types := x.types
  waiting := x.waiting
  owner := x.owner
  start := x.start
  assigns := x.assigns
  valid := valid
  linked := by
    obtain ⟨function, block, -⟩ := grows.frame
    rcases x.linked with ⟨code, attached, has, current⟩ | detached
    · obtain ⟨new, same, -⟩ := grows.functions
      refine Or.inl ⟨code, function.trans attached, ?_, block.trans current⟩
      rw [same, getElem?_append_left (List.getElem?_eq_some_iff.mp has).1, has]
    · exact Or.inr (function.trans detached)
  built := by
    rw [grows.frame.2.2]
    exact x.built.mono grows.context
  pending := x.pending
  visible := x.visible.grows x.valid valid grows
  isOpen := x.isOpen

theorem flows_grow {s : Session} (valid : s.Valid) (grows : x.session.Grows [] s) :
    x.Flows (x.grow valid grows) :=
  flows_of_follows ⟨grows.lowers, .refl _ _, fun _ _ h => h, grows.current, rfl, rfl, rfl⟩ rfl rfl
    (.refl _ _)

theorem outside {post : α → Stage [] → Prop}
    (inner : Keeps step (⟨x.session, x.valid⟩ : Stage []) post) :
    Keeps step x fun a y => post a ⟨y.session, y.valid⟩ ∧ x.session.Grows [] y.session ∧
      y.draft = x.draft ∧ y.block = x.block := by
  refine Leads.mono inner ?_ ?_
  · rintro a s ⟨y, rfl, grows, holds⟩
    exact ⟨x.grow y.valid grows, rfl, flows_grow y.valid grows, holds, grows, rfl, rfl⟩
  rintro d s ⟨ordinary, valid, grows⟩
  exact ⟨x.excuses ordinary, valid, grows.lowers⟩

end Spot

end Stencil
