import Mathlib.Data.List.Nodup
import Stencil.Proofs.Ir.Linked
import Stencil.Proofs.Ir.Structs

/-!
Building in any order. Bodies may be begun, given up and begun again, and the insertion block may
be one that does not exist.
-/

namespace Stencil.Ir

open List Option

namespace Function

/-- Blocks are numbered by their place, temporaries are assigned once, and stack slots are only at
the head of the entry. -/
structure Sound (f : Function) : Prop where
  numbered : ∀ (i : Nat) (b : Block), f.blocks[i]? = some b → b.id = i
  once : f.defined.Nodup
  slots : ∀ b, f.blocks[0]? = some b → SlotsFirst b.insts
  noSlots : ∀ (i : Nat) (b : Block), f.blocks[i]? = some b → 0 < i → ∀ x ∈ b.insts, x.isAlloca = false

structure Gains (lo hi c : Nat) (b b' : Block) : Prop where
  number : b'.id = b.id
  ended : ∀ t, b.terminator = some t → b'.terminator = some t
  temps : ∃ new : Option Nat, (b'.insts.filterMap Inst.dst?).Perm
    (new.toList ++ b.insts.filterMap Inst.dst?) ∧ ∀ k ∈ new, lo ≤ k ∧ k < hi
  slots : SlotsFirst b.insts → SlotsFirst b'.insts
  noSlots : 0 < c → (∀ x ∈ b.insts, x.isAlloca = false) → ∀ x ∈ b'.insts, x.isAlloca = false

section

variable {b : Block} {c lo hi : Nat} {inst : Inst}

theorem gains_push (plain : inst.isAlloca = false)
    (temp : ∀ k, inst.dst? = some k → lo ≤ k ∧ k < hi) : Gains lo hi c b (b.push inst) where
  number := rfl
  ended _ ends := ends
  temps := ⟨inst.dst?, b.temps_push inst, temp⟩
  slots fst := fst.concat plain
  noSlots _ bare := forall_mem_append.mpr ⟨bare, forall_mem_singleton.mpr plain⟩

theorem gains_reserve (type : Ty) (below : lo < hi) :
    Gains lo hi 0 b (b.reserve (.alloca lo type)) where
  number := rfl
  ended _ ends := ends
  temps := ⟨some lo, (perm_insertSlot (.alloca lo type) b.insts).filterMap _,
    by rintro k ⟨⟩; exact ⟨.refl, below⟩⟩
  slots fst := fst.insertSlot rfl
  noSlots positive := absurd positive (Nat.lt_irrefl 0)

theorem gains_finish {t : Terminator} (isOpen : b.terminator = none) :
    Gains lo hi c b (b.finish t) where
  number := rfl
  ended _ ends := by
    rw [isOpen] at ends
    cases ends
  temps := ⟨none, List.Perm.refl _, by simp⟩
  slots fst := fst
  noSlots _ bare := bare

end

namespace Sound

variable {f : Function} {c lo hi : Nat}

theorem declared (f : Function) : (Builder.declared f).Sound where
  numbered _ _ has := by cases has
  once := nodup_nil
  slots _ has := by cases has
  noSlots _ _ has := by cases has

theorem opening (f : Function) : (Builder.opening f).Sound := by
  have only : ∀ i b, (Builder.opening f).blocks[i]? = some b →
      i = 0 ∧ b = { id := 0, name := "entry" } := by
    intro i b has
    cases i with
    | zero => exact ⟨rfl, (Option.some.inj has).symm⟩
    | succ => simp [Builder.opening] at has
  refine ⟨fun i b has => ?_, by simp [defined, insts, Builder.opening], fun b has => ?_,
    fun i b has positive => ?_⟩
  · obtain ⟨rfl, rfl⟩ := only i b has
    rfl
  · obtain ⟨-, rfl⟩ := only 0 b has
    exact .nil
  obtain ⟨rfl, -⟩ := only i b has
  exact absurd positive (Nat.lt_irrefl 0)

theorem extend (sound : f.Sound) (name : String) : (f.extend name).Sound := by
  refine ⟨fun i b has => ?_, ?_, fun b has => ?_, fun i b has positive => ?_⟩
  · rcases extend_cases has with ⟨rfl, rfl⟩ | old
    · rfl
    · exact sound.numbered i b old
  · rw [extend_defined]
    exact sound.once
  · rcases extend_cases has with ⟨-, rfl⟩ | old
    · exact .nil
    · exact sound.slots b old
  rcases extend_cases has with ⟨-, rfl⟩ | old
  · exact fun _ mem => (not_mem_nil mem).elim
  · exact sound.noSlots i b old positive

theorem change (sound : f.Sound) {g : Block → Block} (bounded : ∀ k ∈ f.defined, k < lo)
    (gains : ∀ b, f.blocks[c]? = some b → Gains lo hi c b (g b)) (below : lo ≤ hi) :
    (f.change c g).Sound ∧ ∀ k ∈ (f.change c g).defined, k < hi := by
  cases here : f.blocks[c]? with
  | none =>
    have same : f.change c g = f := by
      have outside := List.getElem?_eq_none_iff.mp here
      rw [Function.change, modify_eq_self outside]
    rw [same]
    exact ⟨sound, fun k mem => Nat.lt_of_lt_of_le (bounded k mem) below⟩
  | some b =>
  have gained := gains b here
  obtain ⟨new, temps, fresh⟩ := gained.temps
  obtain ⟨once, counted⟩ := change_once here temps fresh sound.once bounded below
  refine ⟨⟨fun i b' has => ?_, once, fun b' has => ?_, fun i b' has positive => ?_⟩, counted⟩
  · rcases change_cases has with ⟨rfl, _, got, rfl⟩ | ⟨-, old⟩
    · cases here.symm.trans got
      exact gained.number.trans (sound.numbered i b here)
    · exact sound.numbered i b' old
  · rcases change_cases has with ⟨rfl, _, got, rfl⟩ | ⟨-, old⟩
    · cases here.symm.trans got
      exact gained.slots (sound.slots b here)
    · exact sound.slots b' old
  · rcases change_cases has with ⟨rfl, _, got, rfl⟩ | ⟨-, old⟩
    · cases here.symm.trans got
      exact gained.noSlots positive (sound.noSlots i b here positive)
    · exact sound.noSlots i b' old positive

end Sound

end Function

namespace Builder

inductive Effect (b b' : Builder) : (cleared : Option Nat) → Prop
  | aside (functions : b'.functions = b.functions)
      (attached : b'.function = b.function ∨ b'.function = none)
      (temps : b.nextTemp ≤ b'.nextTemp) : Effect b b' none
  | declares (f : Function) (functions : b'.functions = b.functions ++ [declared f])
      (attached : b'.function = b.function) (temps : b'.nextTemp = b.nextTemp) : Effect b b' none
  | opens (code : Nat) (functions : b'.functions = b.functions.modify code opening)
      (attached : b'.function = some code) : Effect b b' (some code)
  | drops (code : Nat) (functions : b'.functions = b.functions.modify code declared)
      (detached : b'.function = none) : Effect b b' (some code)
  | changes (code c : Nat) (g : Block → Block) (attached : b.function = some code)
      (gains : ∀ f block, b.functions[code]? = some f → f.blocks[c]? = some block →
        Function.Gains b.nextTemp b'.nextTemp c block (g block))
      (functions : b'.functions = b.functions.modify code (·.change c g))
      (same : b'.function = b.function) (temps : b.nextTemp ≤ b'.nextTemp) : Effect b b' none
  | appends (code : Nat) (name : String) (attached : b.function = some code)
      (functions : b'.functions = b.functions.modify code (·.extend name))
      (same : b'.function = b.function) (temps : b'.nextTemp = b.nextTemp) : Effect b b' none

/-- Every function is sound, and the temporaries of the one under construction have been counted. -/
structure Sound (b : Builder) : Prop where
  functions : ∀ (i : Nat) (f : Function), b.functions[i]? = some f → f.Sound
  counted : ∀ code f, b.function = some code → b.functions[code]? = some f →
    ∀ k ∈ f.defined, k < b.nextTemp

def KeepsEnds (i : Nat) (b b' : Builder) : Prop :=
  ∀ (f : Function) (j : Nat) (block : Block) (t : Terminator), b.functions[i]? = some f →
    f.blocks[j]? = some block → block.terminator = some t →
    ∃ (f' : Function) (block' : Block), b'.functions[i]? = some f' ∧
      f'.blocks[j]? = some block' ∧ block'.terminator = some t

section

variable {b b' : Builder} {cleared : Option Nat} {functions : List Function} {code i : Nat}
  {change : Function → Function} {f' : Function}

theorem modify_cases (has : (functions.modify code change)[i]? = some f') :
    ∃ f, functions[i]? = some f ∧ ((i = code ∧ f' = change f) ∨ (i ≠ code ∧ f' = f)) := by
  rw [getElem?_modify] at has
  obtain ⟨f, got, rfl⟩ := map_eq_some_iff.mp has
  refine ⟨f, got, ?_⟩
  by_cases same : i = code
  · exact .inl ⟨same, if_pos same.symm⟩
  · exact .inr ⟨same, if_neg (Ne.symm same)⟩

theorem concat_cases {f : Function} (has : (functions ++ [f])[i]? = some f') :
    functions[i]? = some f' ∨ f' = f := by
  by_cases lies : i < functions.length
  · rw [getElem?_append_left lies] at has
    exact .inl has
  rw [getElem?_append_right (Nat.le_of_not_lt lies)] at has
  exact .inr (mem_singleton.mp (mem_of_getElem? has))

theorem Sound.modify (sound : b.Sound) (functions : b'.functions = b.functions.modify code change)
    (changed : ∀ f, b.functions[code]? = some f →
      (change f).Sound ∧ ∀ k ∈ (change f).defined, k < b'.nextTemp)
    (attached : ∀ other, b'.function = some other → other = code) : b'.Sound := by
  have cases := fun {i f'} has => @modify_cases b.functions code i change f' has
  rw [← functions] at cases
  refine ⟨fun i f' has => ?_, fun other f' here has => ?_⟩
  · obtain ⟨f, got, ⟨rfl, rfl⟩ | ⟨-, rfl⟩⟩ := cases has
    · exact (changed f got).1
    · exact sound.functions i f' got
  obtain ⟨f, got, ⟨rfl, rfl⟩ | ⟨different, -⟩⟩ := cases has
  · exact (changed f got).2
  · exact absurd (attached other here) different

theorem Effect.sound (effect : b.Effect b' cleared) (sound : b.Sound) : b'.Sound := by
  cases effect with
  | aside functions attached temps =>
    refine ⟨functions ▸ sound.functions, fun code f here has k mem => ?_⟩
    rcases attached with same | detached
    · rw [functions] at has
      exact Nat.lt_of_lt_of_le (sound.counted code f (same ▸ here) has k mem) temps
    rw [detached] at here
    cases here
  | declares f functions attached temps =>
    refine ⟨fun i f' has => ?_, fun code f' here has k mem => ?_⟩
    · rw [functions] at has
      rcases concat_cases has with old | rfl
      · exact sound.functions i f' old
      · exact .declared f
    rw [functions] at has
    rcases concat_cases has with old | rfl
    · rw [temps]
      exact sound.counted code f' (attached ▸ here) old k mem
    · cases mem
  | opens code functions attached =>
    refine sound.modify functions (fun f _ => ⟨.opening f, fun _ mem => by cases mem⟩) ?_
    exact fun _ here => Option.some.inj (here.symm.trans attached)
  | drops code functions detached =>
    refine sound.modify functions (fun f _ => ⟨.declared f, fun _ mem => by cases mem⟩) ?_
    exact fun _ here => by cases detached.symm.trans here
  | changes code c g attached gains functions same temps =>
    refine sound.modify functions (fun f got => ?_) ?_
    · exact (sound.functions code f got).change (sound.counted code f attached got)
        (fun block here => gains f block got here) temps
    · exact fun _ here => Option.some.inj (here.symm.trans (same.trans attached))
  | appends code name attached functions same temps =>
  refine sound.modify functions (fun f got => ⟨(sound.functions code f got).extend name, ?_⟩) ?_
  · rw [Function.extend_defined, temps]
    exact sound.counted code f attached got
  · exact fun _ here => Option.some.inj (here.symm.trans (same.trans attached))

theorem Effect.keepsEnds (effect : b.Effect b' cleared) (other : cleared ≠ some i) :
    KeepsEnds i b b' := by
  intro f j block t has here ends
  have kept : ∀ {code : Nat} {change : Function → Function},
      b'.functions = b.functions.modify code change →
      (i = code → ∃ block', (change f).blocks[j]? = some block' ∧ block'.terminator = some t) →
      ∃ (f' : Function) (block' : Block), b'.functions[i]? = some f' ∧
        f'.blocks[j]? = some block' ∧ block'.terminator = some t := by
    intro code change functions lies
    rw [functions, getElem?_modify, has]
    by_cases same : i = code
    · obtain ⟨block', here', ends'⟩ := lies same
      exact ⟨change f, block', by simp [same], here', ends'⟩
    · exact ⟨f, block, by simp [Ne.symm same], here, ends⟩
  cases effect with
  | aside functions => exact ⟨f, block, functions ▸ has, here, ends⟩
  | declares g functions =>
    refine ⟨f, block, ?_, here, ends⟩
    rw [functions, getElem?_append_left (List.getElem?_eq_some_iff.mp has).1, has]
  | opens code functions attached | drops code functions detached =>
    exact kept functions fun same => absurd (congrArg some same.symm) other
  | changes code c g attached gains functions =>
    refine kept functions ?_
    rintro rfl
    by_cases at_c : j = c
    · subst at_c
      exact ⟨g block, Function.change_here here, (gains f block has here).ended t ends⟩
    · exact ⟨block, (Function.change_other at_c).trans here, ends⟩
  | appends code name attached functions =>
    exact kept functions fun _ => ⟨block, Function.extend_old here, ends⟩

end

inductive Call where
  | declareStruct (name : String)
  | defineStruct (name : String) (fields : List Ty)
  | addGlobal (g : Global)
  | addString (content : List UInt8)
  | declareFunction (name : String) (params : List Ty) (result : Ty) (exported : Bool)
  | beginBody (id : Nat)
  | endBody
  | discardBody (id : Nat)
  | appendBlock (name : String)
  | position (id : Nat)
  | entryAlloca (type : Ty)
  | load (type : Ty) (addr : Value)
  | store (type : Ty) (addr src : Value)
  | binary (op : BinOp) (type : Ty) (signed : Bool) (left right : Value)
  | compare (op : CmpOp) (type : Ty) (signed : Bool) (left right : Value)
  | unary (op : UnOp) (type : Ty) (src : Value)
  | cast (kind : CastKind) (source target : Ty) (src : Value)
  | fieldAddr (struct : String) (base : Value) (index : Nat)
  | elemAddr (element : Ty) (base index : Value)
  | call (callee : Value) (args : List Value) (result : Ty)
  | terminate (t : Terminator)

namespace Call

def run (b : Builder) : Call → Builder
  | declareStruct name => (Builder.declareStruct name b).2
  | defineStruct name fields => (Builder.defineStruct name fields b).2
  | addGlobal g => (Builder.addGlobal g b).2
  | addString content => (Builder.addString content b).2
  | declareFunction name params result exported =>
    (Builder.declareFunction name params result exported b).2
  | beginBody id => (Builder.beginBody id b).2
  | endBody => (Builder.endBody b).2
  | discardBody id => (Builder.discardBody id b).2
  | appendBlock name => (Builder.appendBlock name b).2
  | position id => (Builder.position id b).2
  | entryAlloca type => (Builder.entryAlloca type b).2
  | load type addr => (Builder.load type addr b).2
  | store type addr src => (Builder.store type addr src b).2
  | binary op type signed left right => (Builder.binary op type signed left right b).2
  | compare op type signed left right => (Builder.compare op type signed left right b).2
  | unary op type src => (Builder.unary op type src b).2
  | cast kind source target src => (Builder.cast kind source target src b).2
  | fieldAddr struct base index => (Builder.fieldAddr struct base index b).2
  | elemAddr elem base index => (Builder.elemAddr elem base index b).2
  | call callee args result => (Builder.call callee args result b).2
  | terminate t => (Builder.terminate t b).toOption.getD b

def cleared? : Call → Option Nat
  | beginBody id | discardBody id => some id
  | _ => none

end Call

structure Leaves (b b' : Builder) : Prop where
  structs : b'.module.structs = b.module.structs
  globals : b'.module.globals = b.module.globals
  strings : b'.nextString = b.nextString

section

variable {b : Builder}

theorem modifyBlock_effect {c count : Nat} {g : Block → Block} (temps : b.nextTemp ≤ count)
    (gains : ∀ block, b.block? c = some block →
      Function.Gains b.nextTemp count c block (g block)) (late : Nat) :
    b.Effect { b.modifyBlock c g with nextTemp := count, late } none ∧
      b.Leaves { b.modifyBlock c g with nextTemp := count, late } := by
  unfold modifyBlock
  cases attached : b.function with
  | none => exact ⟨.aside rfl (.inl rfl) temps, rfl, rfl, rfl⟩
  | some code =>
    refine ⟨.changes code c g attached (fun f block got here => gains block ?_) rfl rfl temps,
      rfl, rfl, rfl⟩
    simp only [block?, currentFunction?, attached, got, here, bind_eq_bind, bind_some]

theorem modifyBlock_uncounted (b : Builder) (c : Nat) (g : Block → Block) :
    { b.modifyBlock c g with nextTemp := b.nextTemp, late := b.late } = b.modifyBlock c g := by
  unfold modifyBlock
  cases b.function <;> rfl

theorem emit_effect {count : Nat} (plain : inst.isAlloca = false) (temps : b.nextTemp ≤ count)
    (temp : ∀ k, inst.dst? = some k → b.nextTemp ≤ k ∧ k < count) :
    b.Effect { (emit inst b).2 with nextTemp := count } none ∧
      b.Leaves { (emit inst b).2 with nextTemp := count } := by
  obtain ⟨_, _, block, _, _, _⟩ := b
  cases block with
  | none => exact ⟨.aside rfl (.inl rfl) temps, rfl, rfl, rfl⟩
  | some => exact modifyBlock_effect temps (fun _ _ => Function.gains_push plain temp) _

theorem emitOnly_effect (plain : inst.isAlloca = false) (bare : inst.dst? = none) :
    b.Effect (emit inst b).2 none ∧ b.Leaves (emit inst b).2 := by
  have effect := emit_effect plain (Nat.le_refl b.nextTemp) (by simp [bare])
  have same : { (emit inst b).2 with nextTemp := b.nextTemp } = (emit inst b).2 := by
    obtain ⟨_, function, block, _, _, _⟩ := b
    cases block <;> cases function <;> rfl
  rwa [same] at effect

theorem emitInto_run (inst : Nat → Inst) (b : Builder) : (emitInto inst b).2 =
    { (emit (inst b.nextTemp) b).2 with nextTemp := b.nextTemp + 1 } := by
  obtain ⟨_, function, block, _, _, _⟩ := b
  cases block <;> cases function <;> rfl

theorem emitInto_effect {inst : Nat → Inst} (plain : (inst b.nextTemp).isAlloca = false)
    (result : (inst b.nextTemp).dst? = some b.nextTemp) :
    b.Effect (emitInto inst b).2 none ∧ b.Leaves (emitInto inst b).2 := by
  rw [emitInto_run]
  refine emit_effect plain (Nat.le_succ _) fun k given => ?_
  cases result.symm.trans given
  exact ⟨.refl, Nat.lt_succ_self _⟩

theorem call_effect (callee : Value) (args : List Value) (result : Ty) :
    b.Effect (call callee args result b).2 none ∧ b.Leaves (call callee args result b).2 := by
  unfold call
  split
  · exact emitOnly_effect rfl rfl
  · exact emitInto_effect rfl rfl

theorem entryAlloca_effect (type : Ty) :
    b.Effect (entryAlloca type b).2 none ∧ b.Leaves (entryAlloca type b).2 := by
  have run : (entryAlloca type b).2 = { b.modifyBlock 0 (·.reserve (.alloca b.nextTemp type)) with
        nextTemp := b.nextTemp + 1, late := b.late } := by
    obtain ⟨_, function, _, _, _, _⟩ := b
    cases function <;> rfl
  rw [run]
  exact modifyBlock_effect (Nat.le_succ _)
    (fun _ _ => Function.gains_reserve type (Nat.lt_succ_self _)) _

theorem terminate_effect (t : Terminator) :
    b.Effect ((Builder.terminate t b).toOption.getD b) none ∧
      b.Leaves ((Builder.terminate t b).toOption.getD b) := by
  unfold Builder.terminate
  split
  · exact ⟨.aside rfl (.inl rfl) .refl, rfl, rfl, rfl⟩
  rename_i id positioned
  split
  · exact ⟨.aside rfl (.inl rfl) .refl, rfl, rfl, rfl⟩
  rename_i block here
  split
  · exact ⟨.aside rfl (.inl rfl) .refl, rfl, rfl, rfl⟩
  rename_i isOpen
  have unended := not_isSome_iff_eq_none.mp isOpen
  have changed := modifyBlock_effect (c := id) (g := (·.finish t)) (Nat.le_refl b.nextTemp)
    (fun _ here' => Function.gains_finish (Option.some.inj (here.symm.trans here') ▸ unended))
    b.late
  rwa [modifyBlock_uncounted] at changed

theorem appendBlock_effect (name : String) :
    b.Effect (appendBlock name b).2 none ∧ b.Leaves (appendBlock name b).2 := by
  cases current : b.currentFunction? with
  | none =>
    rw [appendBlock_missing current]
    exact ⟨.aside rfl (.inl rfl) .refl, rfl, rfl, rfl⟩
  | some f =>
  obtain ⟨code, attached, has⟩ := bind_eq_some_iff.mp current
  rw [appendBlock_eq attached has]
  generalize (if f.size = 0 then name else name ++ toString f.size) = title
  refine ⟨.appends code title attached ?_ rfl rfl, rfl, rfl, rfl⟩
  exact (congrArg (·.module.functions) (modifyFunction_eq has (·.extend title))).symm

theorem beginBody_effect (id : Nat) :
    b.Effect (beginBody id b).2 (some id) ∧ b.Leaves (beginBody id b).2 := by
  cases has : b.functions[id]? with
  | none =>
    -- Nothing is built in a function that does not exist.
    have absent : ∀ change, b.functions.modify id change = b.functions := fun _ =>
      modify_eq_self (List.getElem?_eq_none_iff.mp has)
    have whole : ∀ x, { b.modifyFunction id declared with function := some id, nextTemp := 0 } = x →
        (beginBody id b).2 =
          { (appendBlock "entry" x).2 with block := (appendBlock "entry" x).1 } := by
      rintro _ rfl
      rfl
    rw [whole { b with function := some id, nextTemp := 0 } (by rw [modifyFunction, absent]),
      appendBlock_missing (b := { b with function := some id, nextTemp := 0 }) has]
    exact ⟨.opens id (absent opening).symm rfl, rfl, rfl, rfl⟩
  | some =>
    rw [beginBody_eq has]
    refine ⟨.opens id ?_ rfl, rfl, rfl, rfl⟩
    exact (congrArg (·.module.functions) (modifyFunction_eq has opening)).symm

theorem Call.effect (c : Call) : b.Effect (c.run b) c.cleared? ∧
    (b.Leaves (c.run b) ∨ (∃ name, c = declareStruct name) ∨
      (∃ name fields, c = defineStruct name fields) ∨ (∃ g, c = addGlobal g) ∨
      ∃ content, c = addString content) := by
  cases c with
  | declareStruct name =>
    rw [run, declareStruct_run, withStruct_eq]
    exact ⟨.aside rfl (.inl rfl) .refl, .inr (.inl ⟨name, rfl⟩)⟩
  | defineStruct name fields =>
    rw [run, defineStruct_run, withFields_eq]
    exact ⟨.aside rfl (.inl rfl) .refl, .inr (.inr (.inl ⟨name, fields, rfl⟩))⟩
  | addGlobal g => exact ⟨.aside rfl (.inl rfl) .refl, .inr (.inr (.inr (.inl ⟨g, rfl⟩)))⟩
  | addString content =>
    exact ⟨.aside rfl (.inl rfl) .refl, .inr (.inr (.inr (.inr ⟨content, rfl⟩)))⟩
  | position => exact ⟨.aside rfl (.inl rfl) .refl, .inl ⟨rfl, rfl, rfl⟩⟩
  | declareFunction name params result exported =>
    exact ⟨.declares { name, params, result, exported } rfl rfl rfl, .inl ⟨rfl, rfl, rfl⟩⟩
  | beginBody id => exact (beginBody_effect id).imp_right .inl
  | endBody => exact ⟨.aside rfl (.inr rfl) .refl, .inl ⟨rfl, rfl, rfl⟩⟩
  | discardBody id => exact ⟨.drops id rfl rfl, .inl ⟨rfl, rfl, rfl⟩⟩
  | appendBlock name => exact (appendBlock_effect name).imp_right .inl
  | entryAlloca type => exact (entryAlloca_effect type).imp_right .inl
  | load | binary | compare | unary | cast | fieldAddr | elemAddr =>
    exact (emitInto_effect rfl rfl).imp_right .inl
  | store => exact (emitOnly_effect rfl rfl).imp_right .inl
  | call callee args result => exact (call_effect callee args result).imp_right .inl
  | terminate t => exact (terminate_effect t).imp_right .inl

theorem Call.structs (c : Call) (distinct : (b.module.structs.map (·.name)).Nodup) :
    ((c.run b).module.structs.map (·.name)).Nodup := by
  rcases c.effect.2 with leaves | ⟨name, rfl⟩ | ⟨name, fields, rfl⟩ | ⟨g, rfl⟩ | ⟨_, rfl⟩
  · rw [leaves.structs]
    exact distinct
  · exact nodup_withStruct distinct name
  · exact nodup_withFields distinct name fields
  · exact distinct
  · exact distinct

theorem Call.globals (c : Call) : b.module.globals <+: (c.run b).module.globals := by
  rcases c.effect.2 with leaves | ⟨name, rfl⟩ | ⟨name, fields, rfl⟩ | ⟨g, rfl⟩ | ⟨_, rfl⟩
  · exact leaves.globals ▸ prefix_rfl
  · exact congrArg (·.module.globals) (withStruct_eq b name) ▸ prefix_rfl
  · exact congrArg (·.module.globals) (withFields_eq b name fields) ▸ prefix_rfl
  · exact prefix_append _ _
  · exact prefix_append _ _

def Call.literal? (b : Builder) : Call → Option Value
  | addString content => some (Builder.addString content b).1.1
  | _ => none

theorem Call.nextString (c : Call) :
    (c.run b).nextString = b.nextString + (c.literal? b).toList.length := by
  rcases c.effect.2 with leaves | ⟨name, rfl⟩ | ⟨name, fields, rfl⟩ | ⟨g, rfl⟩ | ⟨content, rfl⟩
  · rw [leaves.strings]
    cases c
    case addString content => exact absurd leaves.strings (Nat.succ_ne_self _)
    all_goals rfl
  · rw [run, declareStruct_run, withStruct_eq]
    rfl
  · rw [run, defineStruct_run, withFields_eq]
    rfl
  · rfl
  · rfl

theorem Call.literal_eq {c : Call} {v : Value} (added : c.literal? b = some v) :
    v = .global (literalName b.nextString) ∧
      ∃ g ∈ (c.run b).module.globals, g.name = literalName b.nextString ∧ g.isLiteral := by
  cases c with
  | addString =>
    cases added
    exact ⟨rfl, _, mem_append_right _ (mem_singleton.mpr rfl), rfl, rfl⟩
  | _ => cases added

end

def runAll (b : Builder) (calls : List Call) : Builder :=
  calls.foldl Call.run b

def literals (b : Builder) : List Call → List Value
  | [] => []
  | c :: cs => (c.literal? b).toList ++ (c.run b).literals cs

section

variable {b : Builder} {calls : List Call} {i : Nat}

theorem Sound.new (name : String) : (Builder.new name).Sound where
  functions _ _ has := by cases has
  counted _ _ attached := by cases attached

theorem Sound.runAll (sound : b.Sound) (calls : List Call) : (b.runAll calls).Sound := by
  induction calls generalizing b with
  | nil => exact sound
  | cons c calls ih => exact ih (c.effect.1.sound sound)

theorem structs_runAll (distinct : (b.module.structs.map (·.name)).Nodup) (calls : List Call) :
    ((b.runAll calls).module.structs.map (·.name)).Nodup := by
  induction calls generalizing b with
  | nil => exact distinct
  | cons c calls ih => exact ih (c.structs distinct)

theorem globals_runAll (b : Builder) (calls : List Call) :
    b.module.globals <+: (b.runAll calls).module.globals := by
  induction calls generalizing b with
  | nil => exact prefix_rfl
  | cons c calls ih => exact c.globals.trans (ih (c.run b))

theorem KeepsEnds.trans {b' b'' : Builder} (fst : KeepsEnds i b b') (snd : KeepsEnds i b' b'') :
    KeepsEnds i b b'' := by
  intro f j block t has here ends
  obtain ⟨f', block', present', here', ends'⟩ := fst f j block t has here ends
  exact snd f' j block' t present' here' ends'

theorem keepsEnds_runAll (kept : ∀ c ∈ calls, c.cleared? ≠ some i) :
    KeepsEnds i b (b.runAll calls) := by
  induction calls generalizing b with
  | nil => exact fun f j block t has here ends => ⟨f, block, has, here, ends⟩
  | cons c calls ih =>
    exact (c.effect.1.keepsEnds (kept c (.head _))).trans (ih fun c' later => kept c' (.tail c later))

theorem literals_eq (b : Builder) (calls : List Call) : b.literals calls =
    (List.range' b.nextString (b.literals calls).length).map fun n => .global (literalName n) := by
  induction calls generalizing b with
  | nil => rfl
  | cons c calls ih =>
  have rest := ih (c.run b)
  rw [c.nextString] at rest
  rw [literals]
  cases added : c.literal? b with
  | none =>
    rw [added] at rest
    exact rest
  | some =>
  rw [added] at rest
  obtain ⟨rfl, -⟩ := Call.literal_eq added
  simp only [toList_some, singleton_append, length_cons, range'_succ, map_cons]
  exact congrArg _ rest

theorem literals_present (b : Builder) (calls : List Call) : ∀ v ∈ b.literals calls,
    ∃ g ∈ (b.runAll calls).module.globals, v = .global g.name ∧ g.isLiteral := by
  induction calls generalizing b with
  | nil => exact fun v mem => by cases mem
  | cons c calls ih =>
  intro v mem
  rcases mem_append.mp mem with here | later
  · obtain ⟨rfl, g, has, named, literal⟩ := Call.literal_eq (mem_toList.mp here)
    exact ⟨g, (globals_runAll _ calls).subset has, by rw [named], literal⟩
  · exact ih (c.run b) v later

theorem terminate_fails {t : Terminator} {p : Problem} (failed : Builder.terminate t b = .error p) :
    (b.block.bind b.block?).all Block.isTerminated ∧ (Call.terminate t).run b = b := by
  refine ⟨?_, by rw [Call.run, failed]; rfl⟩
  unfold Builder.terminate at failed
  split at failed
  · rename_i none
    rw [none]
    rfl
  rename_i id here
  rw [here, bind_some]
  split at failed
  · rename_i missing
    rw [missing]
    rfl
  rename_i block got
  split at failed
  · rename_i ended
    rw [got]
    exact ended
  · cases failed

end

/-- Whatever calls are made, blocks are numbered, temporaries are assigned once and stack slots are
at the head of the entry; structs and literals have names of their own; the end of a block stays
until its body is begun anew or dropped; and a block that cannot be ended changes nothing. -/
theorem runAll_invariants (name : String) (calls : List Call) :
    (∀ f ∈ ((new name).runAll calls).functions, f.Sound) ∧
      (((new name).runAll calls).module.structs.map (·.name)).Nodup ∧
      ((new name).literals calls).Nodup ∧
      (∀ v ∈ (new name).literals calls, ∃ g ∈ ((new name).runAll calls).module.globals,
        v = .global g.name ∧ g.isLiteral = true) ∧
      (∀ i more, (∀ c ∈ more, c.cleared? ≠ some i) →
        KeepsEnds i ((new name).runAll calls) (((new name).runAll calls).runAll more)) ∧
      ∀ t p, Builder.terminate t ((new name).runAll calls) = .error p →
        ((((new name).runAll calls).block.bind ((new name).runAll calls).block?).all
          Block.isTerminated = true ∧
        (Call.terminate t).run ((new name).runAll calls) = (new name).runAll calls) := by
  refine ⟨fun f mem => ?_, structs_runAll (b := new name) List.nodup_nil calls, ?_,
    literals_present (new name) calls, fun _ _ kept => keepsEnds_runAll kept,
    fun _ _ failed => terminate_fails failed⟩
  · obtain ⟨i, got⟩ := List.mem_iff_getElem?.mp mem
    exact ((Sound.new name).runAll calls).functions i f got
  · rw [literals_eq]
    refine List.Nodup.map (fun n n' same => ?_) List.nodup_range'
    exact literalName_injective (Value.global.inj same)

end Builder

end Stencil.Ir
