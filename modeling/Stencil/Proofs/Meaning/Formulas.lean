import Stencil.Proofs.Ir.Parts
import Stencil.Proofs.Lowering.Arithmetic
import Stencil.Proofs.Meaning.Value

namespace Stencil

open Analysis Option List Ir Ir.Builder Ir.Inst Ir.Value BinaryOp TypedValue

namespace Ir.Builder

def code? (b : Builder) : Option (List Inst) := do
  return (← b.block? (← b.block)).insts

theorem code_emit (inst : Inst) (b : Builder) :
    (emit inst b).2.code? = b.code?.map (· ++ [inst]) := by
  obtain ⟨module, function, block, _, _, _⟩ := b
  cases block with
  | none => rfl
  | some id =>
  cases function with
  | none => rfl
  | some f =>
  change (((module.functions.modify f _)[f]?.bind _).bind _) = _
  simp only [code?, block?, currentFunction?, bind_eq_bind, bind_some, getElem?_modify_eq]
  cases module.functions[f]? with
  | none => rfl
  | some current =>
    simp only [Option.map_eq_map, map_some, bind_some, getElem?_modify_eq]
    cases current.blocks[id]? <;> rfl

theorem nextTemp_emit (inst : Inst) (b : Builder) : (emit inst b).2.nextTemp = b.nextTemp := by
  obtain ⟨_, function, block, _, _, _⟩ := b
  cases block <;> cases function <;> rfl

end Ir.Builder

structure Session.Appends (s : Session) (code : List Inst) (s' : Session) : Prop where
  code : s'.builder.code? = s.builder.code?.map (· ++ code)
  tree : s'.tree = s.tree
  temps : s.builder.nextTemp ≤ s'.builder.nextTemp

namespace Session.Appends

variable {s s' s'' : Session} {code code' : List Inst}

theorem refl (s : Session) : s.Appends [] s :=
  ⟨by simp, rfl, .refl⟩

theorem trans (fst : s.Appends code s') (snd : s'.Appends code' s'') :
    s.Appends (code ++ code') s'' where
  code := by
    rw [snd.code, fst.code, Option.map_map]
    simp [Function.comp_def]
  tree := snd.tree.trans fst.tree
  temps := Nat.le_trans fst.temps snd.temps

theorem emit (inst : Inst) (s : Session) :
    ∃ s', build (Ir.Builder.emit inst) s = .ok () s' ∧ s.Appends [inst] s' ∧
      s'.builder.nextTemp = s.builder.nextTemp := by
  have same := nextTemp_emit inst s.builder
  exact ⟨_, build_eq .., ⟨code_emit .., rfl, Nat.le_of_eq same.symm⟩, same⟩

theorem emitInto (inst : Nat → Inst) (s : Session) :
    ∃ s', build (Ir.Builder.emitInto inst) s = .ok (.temp s.builder.nextTemp) s' ∧
      s.Appends [inst s.builder.nextTemp] s' ∧ s'.builder.nextTemp = s.builder.nextTemp + 1 := by
  let b : Builder := { s.builder with nextTemp := s.builder.nextTemp + 1 }
  have next := nextTemp_emit (inst s.builder.nextTemp) b
  refine ⟨_, build_eq .., ⟨?_, rfl, ?_⟩, next⟩
  · exact code_emit (inst s.builder.nextTemp) b
  · exact Nat.le_trans (Nat.le_succ _) (Nat.le_of_eq next.symm)

end Session.Appends

namespace Ir

structure PartMemory.Retains (m : PartMemory) (n : Nat) (m' : PartMemory) : Prop where
  parts : m'.parts = m.parts
  temps : ∀ i, i < n → m'.temps i = m.temps i

namespace PartMemory.Retains

variable {m m' m'' : PartMemory} {n n' k : Nat}

theorem refl (m : PartMemory) (n : Nat) : m.Retains n m :=
  ⟨rfl, fun _ _ => rfl⟩

theorem trans (fst : m.Retains n m') (snd : m'.Retains n' m'') (more : n ≤ n') : m.Retains n m'' :=
  ⟨snd.parts.trans fst.parts, fun i below =>
    (snd.temps i (Nat.lt_of_lt_of_le below more)).trans (fst.temps i below)⟩

theorem setTemp (m : PartMemory) (above : n ≤ k) (d : Datum) : m.Retains n (m.setTemp k d) :=
  ⟨rfl, fun _ below => if_neg (Nat.ne_of_lt (Nat.lt_of_lt_of_le below above))⟩

theorem anchors (retains : m.Retains n m') (below : k < n) (anchored : m.Anchors k) :
    m'.Anchors k :=
  (retains.temps k below).trans anchored

end PartMemory.Retains

end Ir

def Provides (f : Formula) (type : Ir.Ty) (s : Session) (v : Value) (s' : Session) : Prop :=
  ∃ code, s.Appends code s' ∧
    (∀ m m' : PartMemory, m.Retains s'.builder.nextTemp m' → v.datum? m' type = v.datum? m type) ∧
    ∀ m d, (∀ i ∈ f.slots, m.Anchors i) → f.eval m.parts = some d →
      ∃ m', moves m code = some m' ∧ m.Retains s.builder.nextTemp m' ∧ v.datum? m' type = some d

structure Delivers (f : Formula) (s : Session) (v : Value) (s' : Session) : Prop where
  temp : ∃ k, v = .temp k
  provides : ∀ type, Provides f type s v s'

section

variable {f g h : Formula} {s s1 s2 s3 : Session} {v w u : Value} {inst : Nat → Inst}
  {type type' : Ir.Ty}

theorem Provides.appends (provides : Provides f type s v s1) : ∃ code, s.Appends code s1 := by
  obtain ⟨code, appends, -⟩ := provides
  exact ⟨code, appends⟩

theorem Delivers.slot {k : Nat} (known : k < s.builder.nextTemp) :
    Delivers (.slot k) s (.temp k) s := by
  refine ⟨⟨k, rfl⟩, fun _ => ⟨[], .refl s, fun _ _ kept => kept.temps k known,
    fun m d anchored value => ?_⟩⟩
  refine ⟨m, rfl, .refl m _, ?_⟩
  exact (anchored k (mem_singleton_self k)).trans value

theorem Delivers.emitInto {code : List Inst} (appends : s.Appends code s1)
    (runs : ∀ m d, (∀ i ∈ f.slots, m.Anchors i) → f.eval m.parts = some d →
      ∃ m', moves m code = some m' ∧ m.Retains s.builder.nextTemp m' ∧
        ∀ n, (inst n).move m' = some (m'.setTemp n d))
    (run : build (Ir.Builder.emitInto inst) s1 = .ok w s2) : Delivers f s w s2 := by
  obtain ⟨_, run', appends', _⟩ := Session.Appends.emitInto inst s1
  rw [run'] at run
  cases run
  refine ⟨⟨_, rfl⟩, fun _ => ⟨_, appends.trans appends', fun _ _ kept => kept.temps _ (by omega), ?_⟩⟩
  intro m d anchored value
  obtain ⟨m1, moved, kept, last⟩ := runs m d anchored value
  refine ⟨m1.setTemp s1.builder.nextTemp d, ?_, ?_, if_pos rfl⟩
  · simp [moves_append, moved, moves, last]
  · exact kept.trans (.setTemp m1 appends.temps d) .refl

theorem Provides.apply (step : Parts → Datum → Option Datum) (fst : Provides f type s v s1)
    (slots : g.slots = f.slots) (value : ∀ parts, g.eval parts = (f.eval parts).bind (step parts))
    (move : ∀ n m, (inst n).move m = ((v.datum? m type).bind (step m.parts)).map (m.setTemp n))
    (run : build (Ir.Builder.emitInto inst) s1 = .ok w s2) : Delivers g s w s2 := by
  obtain ⟨_, appends, -, runs⟩ := fst
  refine .emitInto appends (fun m d anchored result => ?_) run
  rw [value] at result
  obtain ⟨c, got, result⟩ := bind_eq_some_iff.mp result
  obtain ⟨m1, moved, kept, given⟩ := runs m c (slots ▸ anchored) got
  exact ⟨m1, moved, kept, fun n => by simp [move, given, kept.parts, result]⟩

/-- One more instruction, on two values that were computed. -/
theorem Provides.combine (act : Datum → Datum → Option Datum) (fst : Provides f type s v s1)
    (snd : Provides g type' s1 w s2) (slots : h.slots = f.slots ++ g.slots)
    (known : ∀ i ∈ g.slots, i < s.builder.nextTemp)
    (value : ∀ parts, h.eval parts = (f.eval parts).bind fun a => (g.eval parts).bind (act a))
    (move : ∀ n m, (inst n).move m = (v.datum? m type).bind fun a =>
      (w.datum? m type').bind fun b => (act a b).map (m.setTemp n))
    (run : build (Ir.Builder.emitInto inst) s2 = .ok u s3) : Delivers h s u s3 := by
  obtain ⟨_, appends, stays, runs⟩ := fst
  obtain ⟨_, appends', -, runs'⟩ := snd
  refine .emitInto (appends.trans appends') (fun m d anchored result => ?_) run
  rw [slots] at anchored
  obtain ⟨anchored, anchored'⟩ := forall_mem_append.mp anchored
  rw [value] at result
  obtain ⟨a, got, result⟩ := bind_eq_some_iff.mp result
  obtain ⟨b, found', result⟩ := bind_eq_some_iff.mp result
  obtain ⟨m1, moved, kept, given⟩ := runs m a anchored got
  rw [← kept.parts] at found'
  obtain ⟨m2, moved', kept', given'⟩ :=
    runs' m1 b (fun i mem => kept.anchors (known i mem) (anchored' i mem)) found'
  refine ⟨m2, by simp [moves_append, moved, moved'], kept.trans kept' appends.temps, fun n => ?_⟩
  simp [move, stays m1 m2 kept', given, given', result]

theorem Delivers.load (address : Delivers f s v s1)
    (run : build (Ir.Builder.load type v) s1 = .ok w s2) : Delivers (.load f) s w s2 := by
  refine (address.provides .void).apply (fun parts d => d.part?.bind parts) rfl (fun _ => rfl) ?_ run
  simp [move, part?, map_eq_bind, Option.bind_assoc]

theorem Delivers.entry {index : Nat} (base : Delivers f s v s1) (move : ∀ n m, (inst n).move m =
      (v.part? m).bind fun p => some (m.setTemp n (.address (p.entry index))))
    (run : build (Ir.Builder.emitInto inst) s1 = .ok w s2) : Delivers (.entry f index) s w s2 := by
  refine (base.provides .void).apply (fun _ d => d.part?.bind fun p => some (.address (p.entry index)))
    rfl (fun _ => rfl) ?_ run
  simp [move, part?, map_eq_bind, Option.bind_assoc]

theorem Delivers.elementAt (base : Delivers f s v s1) (position : Delivers g s1 w s2)
    (known : ∀ i ∈ g.slots, i < s.builder.nextTemp)
    (run : build (Ir.Builder.elemAddr type v w) s2 = .ok u s3) :
    Delivers (.entryAt f g) s u s3 := by
  obtain ⟨k, rfl⟩ := position.temp
  refine (base.provides .void).combine (fun a b => a.part?.bind fun p => b.index?.bind fun i =>
    some (.address (p.entry i))) (position.provides .void) rfl known (fun parts => ?_)
    (fun n m => ?_) run
  · exact bind_congr fun a _ => bind_comm ..
  · simp [move, part?, index?, map_eq_bind, Option.bind_assoc]
    exact bind_congr fun a _ => bind_comm ..

theorem Delivers.unary {op : UnOp} (arg : Delivers f s v s1)
    (run : build (Ir.Builder.unary op type v) s1 = .ok w s2) :
    Delivers (.unary op type f) s w s2 := by
  refine (arg.provides type).apply (fun _ => Datum.apply op type) rfl (fun _ => rfl) ?_ run
  simp [move, map_eq_bind, Option.bind_assoc]

end

namespace BinaryOp

def formula (op : BinaryOp) (type : Ty) (f g : Formula) : Formula :=
  match op.compare? with
  | some cmp => .compare cmp type.ir type.isSigned f g
  | none => .binary op.arithmetic type.ir type.isSigned f g

def act (op : BinaryOp) (type : Ty) (a b : Datum) : Option Datum :=
  match op.compare? with
  | some cmp => a.test cmp type.ir type.isSigned b
  | none => a.combine op.arithmetic type.ir type.isSigned b

variable (op : BinaryOp) (type : Ty) (f g : Formula)

theorem slots_formula : (op.formula type f g).slots = f.slots ++ g.slots := by
  unfold formula
  cases op.compare? <;> rfl

theorem eval_formula (parts : Parts) : (op.formula type f g).eval parts =
    (f.eval parts).bind fun a => (g.eval parts).bind (op.act type a) := by
  unfold formula act
  cases op.compare? <;> rfl

theorem move_instruction (n : Nat) (v w : Value) (m : PartMemory) :
    (op.instruction type v w n).move m = (v.datum? m type.ir).bind fun a =>
      (w.datum? m type.ir).bind fun b => (op.act type a b).map (m.setTemp n) := by
  unfold instruction act
  cases op.compare? <;> simp [move, map_eq_bind]

end BinaryOp

def UnaryOp.instruction : UnaryOp → UnOp
  | .neg => .neg
  | .not | .bitNot => .not

structure TypedValue.Becomes (v : TypedValue) (n : Int) (type : Ty) : Prop where
  value : v.value = .int n
  scalar : v.type.isPointer = false
  adopts : v.adopt type = ⟨.int n, type⟩
  converts : ∀ span, convertTo v type true span = pure ⟨.int n, type⟩

inductive Supplies (f : Formula) (type : Ty) (s : Session) (v : TypedValue) (s' : Session) : Prop
  | computed (typed : v.type = type) (delivers : Delivers f s v.value s')
  | constant {n : Int} (formula : f = .constant type.ir n) (becomes : v.Becomes n type)
      (same : s' = s)

section

variable {f g : Formula} {type : Ty} {s s' s1 s2 s3 : Session} {lhs rhs v : TypedValue}
  {a b u : Value} {op : BinaryOp} {left right span : Span}

theorem isInteger_widths {w : Nat} (width : w ∈ widths) (signed : Bool) :
    (Ty.int w signed).isInteger := by
  rcases widths_cases width with rfl | rfl | rfl | rfl <;> rfl

theorem Supplies.provides (supplies : Supplies f type s v s') : Provides f type.ir s v.value s' := by
  rcases supplies with ⟨-, delivers⟩ | ⟨rfl, becomes, rfl⟩
  · exact delivers.provides _
  rw [becomes.value]
  exact ⟨[], .refl _, fun _ _ _ => rfl, fun m d _ value => ⟨m, rfl, .refl m _, value⟩⟩

theorem Supplies.temp (supplies : Supplies f type s v s') (dynamic : f.isConstant = false) :
    v.type = type ∧ ∃ k, v.value = .temp k := by
  rcases supplies with ⟨typed, delivers⟩ | ⟨rfl, -⟩
  · exact ⟨typed, delivers.temp⟩
  · cases dynamic

theorem Supplies.adopts {other : Ty} (supplies : Supplies f type s v s')
    (given : f.isConstant = false ∨ other = type) : v.adopt other = ⟨v.value, type⟩ := by
  rcases supplies with ⟨rfl, delivers⟩ | ⟨rfl, becomes, -⟩
  · obtain ⟨k, here⟩ := delivers.temp
    simp only [adopt, integer?, here, int?, ite_self]
    rw [← here]
  rcases given with dynamic | rfl
  · cases dynamic
  · exact becomes.value ▸ becomes.adopts

theorem fold_temp (apart : (∃ k, a = .temp k) ∨ ∃ k, b = .temp k) :
    (∀ cmp, foldCompare? cmp a b = none) ∧ ∀ op type, foldArithmetic? op type a b = none := by
  rcases apart with ⟨k, rfl⟩ | ⟨k, rfl⟩
  · exact ⟨fun _ => rfl, fun _ _ => rfl⟩
  · cases a <;> exact ⟨fun _ => rfl, fun _ _ => rfl⟩

theorem binaryOperation_emits (scalar : lhs.type.isPointer = false)
    (fst : lhs.adopt rhs.type = ⟨lhs.value, type⟩)
    (snd : rhs.adopt lhs.type = ⟨rhs.value, type⟩)
    (apart : (∃ k, lhs.value = .temp k) ∨ ∃ k, rhs.value = .temp k)
    (run : binaryOperation op lhs rhs left right span s = .ok v s') :
    v.type = op.resultType type ∧
      build (Ir.Builder.emitInto (op.instruction type lhs.value rhs.value)) s = .ok v.value s' := by
  have typed : ∀ c span, convertTo ⟨c, type⟩ type true span = pure ⟨c, type⟩ :=
    fun _ _ => convertTo_same rfl
  unfold binaryOperation at run
  simp only [scalar, Bool.false_and, Bool.false_eq_true, if_false] at run
  cases got : lhs.integer? <;> cases found' : rhs.integer?
  case some.some =>
    rcases apart with ⟨k, here⟩ | ⟨k, here⟩
    · simp [integer?, int?, here] at got
    · simp [integer?, int?, here] at found'
  all_goals
    simp only [got, found', fst, snd, commonType, if_true, typed, pure_bind,
      (fold_temp apart).1, (fold_temp apart).2] at run
    unfold resultType instruction
    split at run
    · cases compares : op.compare? with
      | some =>
        rw [compares] at run
        obtain ⟨w, u, built, rest⟩ := bind_ok run
        cases rest
        exact ⟨rfl, built⟩
      | none =>
        rw [compares] at run
        dsimp only at run
        split at run
        · cases run
        obtain ⟨w, u, built, rest⟩ := bind_ok run
        cases rest
        exact ⟨rfl, built⟩
    · cases run

theorem binaryOperation_delivers (fst : Supplies f type s lhs s1)
    (snd : Supplies g type s1 rhs s2) (dynamic : f.isConstant = false ∨ g.isConstant = false)
    (scalar : type.isPointer = false) (known : ∀ i ∈ g.slots, i < s.builder.nextTemp)
    (run : binaryOperation op lhs rhs left right span s2 = .ok v s3) :
    v.type = op.resultType type ∧ Delivers (op.formula type f g) s v.value s3 := by
  have scalar' : lhs.type.isPointer = false := by
    rcases fst with ⟨rfl, -⟩ | ⟨-, becomes, -⟩
    · exact scalar
    · exact becomes.scalar
  obtain ⟨typed, built⟩ := binaryOperation_emits scalar'
    (fst.adopts (dynamic.imp_right fun computed => (snd.temp computed).1))
    (snd.adopts (dynamic.symm.imp_right fun computed => (fst.temp computed).1))
    (dynamic.imp (fun computed => (fst.temp computed).2) fun computed => (snd.temp computed).2) run
  exact ⟨typed, fst.provides.combine (op.act type) snd.provides (op.slots_formula ..) known
    (op.eval_formula type f g) (op.move_instruction type · _ _) built⟩

end

theorem convertTo_holds {n : Int} {w w' : Nat} {signed signed' : Bool} {span : Span}
    (width : w ∈ widths) (width' : w' ∈ widths) (holds : (Ty.int w signed).Holds n) :
    convertTo ⟨.int n, .int w' signed'⟩ (.int w signed) true span =
      pure ⟨.int n, .int w signed⟩ := by
  by_cases same : Ty.int w' signed' = .int w signed
  · cases same
    exact convertTo_same rfl
  have fit : fits n (Ty.int w signed).bits (Ty.int w signed).isSigned :=
    (fits_iff width signed).mpr holds
  have converts := conversion_fitting (isInteger_widths width' signed')
    (isInteger_widths width signed) rfl fit
  have given : (⟨.int (normalize n w signed), .int w signed⟩ : TypedValue) =
      ⟨.int n, .int w signed⟩ := by
    rw [normalize_of_holds width holds]
  have other : (⟨.int n, .int w' signed'⟩ : TypedValue).type ≠ .int w signed := same
  rw [← given]
  by_cases less : (Ty.int w' signed').bits < (Ty.int w signed).bits
  · rw [if_pos less] at converts
    cases signed' <;> exact convertTo_ok other converts
  rw [if_neg less] at converts
  by_cases more : (Ty.int w signed).bits < (Ty.int w' signed').bits
  · rw [if_pos more] at converts
    exact convertTo_ok other converts
  rw [if_neg more] at converts
  exact convertTo_ok other converts

theorem literal_becomes {n : Int} {w w' : Nat} {signed signed' : Bool} (width : w ∈ widths)
    (width' : w' ∈ widths) (holds : (Ty.int w signed).Holds n) :
    (⟨.int n, .int w' signed'⟩ : TypedValue).Becomes n (.int w signed) where
  value := rfl
  scalar := rfl
  adopts := by
    have fit : fits n (Ty.int w signed).bits (Ty.int w signed).isSigned :=
      (fits_iff width signed).mpr holds
    simp [adopt, integer?, int?, isInteger_widths width, isInteger_widths width', fit]
  converts _ := convertTo_holds width width' holds

theorem truth_becomes (b : Bool) : (truth b).Becomes (if b then 1 else 0) .bool where
  value := rfl
  scalar := rfl
  adopts := rfl
  converts _ := convertTo_same rfl

/-- What is asked of an expression: its place, its value as it is, or its value where a type is
expected, which may be a constant. -/
inductive Role where
  | place | value | operand
  deriving DecidableEq, Repr, Inhabited

/-- Expressions over local variables without calls and casts, with the formulas for their places and
values. Operators other than `&&` and `||` are applied to operands of the same type. -/
inductive Expr.Denotes (t : ScopeTree) : Role → Expr → Ty → Formula → Prop
  | variable {name : String} {span : Span} {id : ScopeId} {e : VariableEntry} {k : Nat}
      (found : t.find? name = some id) (kind : t.kind id = .var e)
      (stored : e.storage = .slot (.temp k)) :
      Denotes t .place (.identifier name span) e.type (.slot k)
  | entry {base : Expr} {element : Ty} {length : Nat} {f : Formula} {n : UInt64}
      {literal span : Span} (array : Denotes t .place base (.array element length) f) :
      Denotes t .place (.index base (.int n literal) span) element (.entry f n.toNat)
  | entryAt {base position : Expr} {element type : Ty} {length : Nat} {f g : Formula}
      {span : Span} (array : Denotes t .place base (.array element length) f)
      (index : Denotes t .value position type g) :
      Denotes t .place (.index base position span) element (.entryAt f g)
  | field {object : Expr} {struct name : String} {scope child : ScopeId} {e : VariableEntry}
      {f : Formula} {index : Nat} {nameSpan span : Span}
      (whole : Denotes t .place object (.struct struct scope) f)
      (found : t.findChild? scope name = some child) (kind : t.kind child = .var e)
      (stored : e.storage = .field) (position : t.indexOf? scope name = some index) :
      Denotes t .place (.member object name nameSpan span) e.type (.entry f index)
  | target {operand : Expr} {type : Ty} {f : Formula} {span : Span}
      (pointer : Denotes t .value operand (.pointer type) f) :
      Denotes t .place (.deref operand span) type f
  | content {e : Expr} {type : Ty} {f : Formula} (place : Denotes t .place e type f) :
      Denotes t .value e type (.load f)
  | address {e : Expr} {type : Ty} {f : Formula} {span : Span}
      (place : Denotes t .place e type f) :
      Denotes t .value (.addressOf e span) (.pointer type) f
  | unary {op : UnaryOp} {operand : Expr} {type : Ty} {f : Formula} {span : Span}
      (inner : Denotes t .value operand type f) :
      Denotes t .value (.unary op operand span) type (.unary op.instruction type.ir f)
  | binary {op : BinaryOp} {left right : Expr} {type : Ty} {f g : Formula} {span : Span}
      (plain : op.isLogical = false) (scalar : type.isPointer = false)
      (dynamic : f.isConstant = false ∨ g.isConstant = false)
      (first : Denotes t .operand left type f) (second : Denotes t .operand right type g) :
      Denotes t .value (.binary op left right span) (op.resultType type) (op.formula type f g)
  | computed {e : Expr} {type : Ty} {f : Formula} (value : Denotes t .value e type f) :
      Denotes t .operand e type f
  | literal {n : UInt64} {w : Nat} {signed : Bool} {span : Span} (width : w ∈ widths)
      (holds : (Ty.int w signed).Holds n.toNat) :
      Denotes t .operand (.int n span) (.int w signed) (.constant (.int w) n.toNat)
  | negative {n : UInt64} {w : Nat} {signed : Bool} {literal span : Span} (width : w ∈ widths)
      (holds : (Ty.int w signed).Holds (-n.toNat)) :
      Denotes t .operand (.unary .neg (.int n literal) span) (.int w signed)
        (.constant (.int w) (-n.toNat))
  | truth {b : Bool} {span : Span} :
      Denotes t .operand (.bool b span) .bool (.constant (.int 1) (if b then 1 else 0))

variable {type : Ty}

section

variable {s s' : Session} {span : Span}

theorem tree_run {α : Type} (next : ScopeTree → Analysis α) :
    (tree >>= next) s = next s.tree s := rfl

theorem map_run {α β : Type} {step : Analysis β} {f : β → α} {a : α}
    (run : (f <$> step) s = .ok a s') : ∃ b, step s = .ok b s' ∧ a = f b := by
  obtain ⟨b, u, fst, rest⟩ := bind_ok run
  cases rest
  exact ⟨b, fst, rfl⟩

variable {v : TypedValue}

theorem loadFrom_ok {addr : Value} (run : loadFrom type addr s = .ok v s') :
    build (Ir.Builder.load type.ir addr) s = .ok v.value s' ∧ v.type = type := by
  obtain ⟨w, u, fst, rest⟩ := bind_ok run
  cases rest
  exact ⟨fst, rfl⟩

theorem elementPlace_ok {base p : Place} {elem : Ty} {length : Nat}
    (run : elementPlace base elem length v span s = .ok p s') :
    build (Ir.Builder.elemAddr elem.ir base.addr v.value) s = .ok p.addr s' ∧ p.type = elem := by
  have last : (do
      let addr ← build (Ir.Builder.elemAddr elem.ir base.addr v.value)
      return { addr, type := elem, constant := base.constant } : Analysis Place) s = .ok p s' := by
    unfold elementPlace at run
    split at run
    · cases constant : v.value.int? with
      | none =>
        rw [constant] at run
        exact run
      | some =>
        rw [constant] at run
        dsimp only at run
        split at run
        · exact run
        · cases run
    · cases run
  obtain ⟨_, u, built, rest⟩ := bind_ok last
  cases rest
  exact ⟨built, rfl⟩

theorem unaryOperation_ok {op : UnaryOp} {k : Nat} {arg : Span}
    (run : unaryOperation op ⟨.temp k, type⟩ arg span s = .ok v s') : v.type = type ∧
      build (Ir.Builder.unary op.instruction type.ir (.temp k)) s = .ok v.value s' := by
  unfold unaryOperation at run
  cases op with
  | neg | not | bitNot =>
  dsimp only at run
  split at run
  · obtain ⟨w, u, built, rest⟩ := bind_ok run
    cases rest
    exact ⟨rfl, built⟩
  · cases run

end

variable {r : Resolver}

section

variable {s s' : Session} {reference : Bool} {name : String} {span : Span} {m : Meaning}

theorem nameMeaning_slot {id : ScopeId} {e : VariableEntry} {addr : Value}
    (got : s.tree.find? name = some id) (kind : s.tree.kind id = .var e)
    (stored : e.storage = .slot addr) : nameMeaning reference name span s =
      .ok (.place ⟨addr, e.type, if e.constant then some name else none⟩) s := by
  rw [nameMeaning, tree_run, got]
  dsimp only
  rw [nodeMeaning, tree_run, kind]
  dsimp only
  rw [stored]
  rfl

theorem memberMeaning_field {p : Place} {struct : String} {scope child : ScopeId}
    {e : VariableEntry} (type : p.type = .struct struct scope)
    (got : s.tree.findChild? scope name = some child) (kind : s.tree.kind child = .var e)
    (stored : e.storage = .field) (position : s.tree.indexOf? scope name = some index)
    (run : memberMeaning r reference (.place p) name span s = .ok m s') :
    ∃ q, m = .place q ∧ q.type = e.type ∧
      build (Ir.Builder.fieldAddr struct p.addr index) s = .ok q.addr s' := by
  obtain ⟨addr, _, constant⟩ := p
  cases type
  have stays : Place.follow ⟨addr, .struct struct scope, constant⟩ = pure _ := rfl
  change instanceMember reference ⟨addr, .struct struct scope, constant⟩ name span s = _ at run
  rw [instanceMember, stays, pure_bind] at run
  dsimp only at run
  rw [tree_run, got] at run
  dsimp only at run
  rw [kind] at run
  dsimp only at run
  rw [if_pos stored, position] at run
  obtain ⟨w, u, built, rest⟩ := bind_ok run
  cases rest
  exact ⟨_, rfl, rfl, built⟩

theorem meaning_index {hint : Option Ty} {base position : Expr} {u : Session}
    {p : Place} {elem : Ty} {length : Nat} (fst : meaning r reference none base s = .ok (.place p) u)
    (type : p.type = .array elem length)
    (run : meaning r reference hint (.index base position span) s = .ok m s') :
    ∃ n u1 v u2 q, meaning r false none position u = .ok n u1 ∧
      n.asValue position.span u1 = .ok v u2 ∧ m = .place q ∧ q.type = elem ∧
        build (Ir.Builder.elemAddr elem.ir p.addr v.value) u2 = .ok q.addr s' := by
  obtain ⟨addr, _, constant⟩ := p
  cases type
  have place : Meaning.asPlace (.place ⟨addr, .array elem length, constant⟩) span = pure _ := rfl
  have stays : Place.follow ⟨addr, .array elem length, constant⟩ = pure _ := rfl
  have parts : Place.asArray ⟨addr, .array elem length, constant⟩ span = pure (elem, length) :=
    rfl
  rw [meaning, bind_run fst, place, pure_bind, stays, pure_bind, parts, pure_bind] at run
  obtain ⟨n, u1, snd, rest⟩ := bind_ok run
  obtain ⟨v, u2, third, rest⟩ := bind_ok rest
  obtain ⟨q, last, rfl⟩ := map_run rest
  obtain ⟨built, type⟩ := elementPlace_ok last
  exact ⟨n, u1, v, u2, q, snd, third, rfl, type, built⟩

end

def Expr.Lowers (r : Resolver) (e : Expr) (type : Ty) (f : Formula) (s : Session) : Role → Prop
  | .place => ∀ reference hint m s', meaning r reference hint e s = .ok m s' →
    ∃ p, m = .place p ∧ p.type = type ∧ Delivers f s p.addr s'
  | .value => ∀ reference hint m u span v s', meaning r reference hint e s = .ok m u →
    m.asValue span u = .ok v s' → v.type = type ∧ Delivers f s v.value s'
  | .operand => ∀ reference hint m u span v s', meaning r reference hint e s = .ok m u →
    m.asValue span u = .ok v s' → Supplies f type s v s'

theorem Expr.Denotes.not_literal {t : ScopeTree} {role : Role} {e : Expr}
    {f : Formula} (denotes : e.Denotes t role type f) (value : role ≠ .operand) (op : UnaryOp) :
    negatedLiteral? op e = none := by
  induction denotes with
  | content place ih => exact ih (by simp)
  | computed | literal | negative | truth => exact absurd rfl value
  | _ => cases op <;> rfl

theorem Expr.Denotes.lowers {t : ScopeTree} {role : Role} {e : Expr}
    {f : Formula} (denotes : e.Denotes t role type f) :
    ∀ s, s.tree = t → (∀ i ∈ f.slots, i < s.builder.nextTemp) → e.Lowers r type f s role := by
  induction denotes with
  | «variable» got kind stored =>
    rintro s rfl known _ _ m _ run
    rw [meaning, nameMeaning_slot got kind stored] at run
    cases run
    exact ⟨_, rfl, rfl, .slot (known _ (mem_singleton_self _))⟩
  | entry array ih =>
    intro s same known reference _ m _ run
    have whole := run
    rw [meaning] at run
    obtain ⟨_, u, fst, -⟩ := bind_ok run
    obtain ⟨p, rfl, type, base⟩ := ih s same known reference none _ u fst
    obtain ⟨_, _, v, _, q, snd, third, rfl, type', built⟩ := meaning_index fst type whole
    rw [meaning] at snd
    cases snd
    cases third
    exact ⟨q, rfl, type', base.entry (fun _ _ => rfl) built⟩
  | entryAt array index ih1 ih2 =>
    intro s same known reference _ m _ run
    obtain ⟨known1, known2⟩ := forall_mem_append.mp known
    have whole := run
    rw [meaning] at run
    obtain ⟨_, u, fst, -⟩ := bind_ok run
    obtain ⟨p, rfl, type, base⟩ := ih1 s same known1 reference none _ u fst
    obtain ⟨n, u1, v, u2, q, snd, third, rfl, type', built⟩ := meaning_index fst type whole
    obtain ⟨_, appends⟩ := (base.provides .void).appends
    obtain ⟨-, position⟩ := ih2 u (appends.tree.trans same)
      (fun i mem => Nat.lt_of_lt_of_le (known2 i mem) appends.temps) false none n u1 _ v u2
      snd third
    exact ⟨q, rfl, type', base.elementAt position known2 built⟩
  | field whole got kind stored position ih =>
    intro s same known reference _ m _ run
    rw [meaning] at run
    obtain ⟨_, u, fst, rest⟩ := bind_ok run
    obtain ⟨p, rfl, type, base⟩ := ih s same known reference none _ u fst
    obtain ⟨_, appends⟩ := (base.provides .void).appends
    rw [← same, ← appends.tree] at got kind position
    obtain ⟨q, rfl, type', built⟩ := memberMeaning_field type got kind stored position rest
    exact ⟨q, rfl, type', base.entry (fun _ _ => rfl) built⟩
  | target pointer ih =>
    intro s same known _ _ m _ run
    rw [meaning] at run
    obtain ⟨_, u, fst, rest⟩ := bind_ok run
    obtain ⟨v, u', snd, rest⟩ := bind_ok rest
    obtain ⟨type, value⟩ := ih s same known false none _ u _ v u' fst snd
    rw [type] at rest
    cases rest
    exact ⟨_, rfl, rfl, value⟩
  | content place ih =>
    intro s same known reference hint m u _ v _ run loads
    obtain ⟨p, rfl, rfl, address⟩ := ih s same known reference hint m u run
    obtain ⟨built, type⟩ := loadFrom_ok loads
    exact ⟨type, address.load built⟩
  | address place ih =>
    intro s same known _ _ m u _ v _ run loads
    obtain ⟨_, u', fst, rest⟩ := bind_ok run
    obtain ⟨p, rfl, rfl, address⟩ := ih s same known true none _ u' fst
    cases rest
    cases loads
    exact ⟨rfl, address⟩
  | unary inner ih =>
    intro s same known _ _ m u _ v _ run loads
    rw [meaning, inner.not_literal (by simp)] at run
    obtain ⟨_, _, meant, run⟩ := bind_ok run
    obtain ⟨⟨_, _⟩, _, loaded, run⟩ := bind_ok run
    obtain ⟨rfl, arg⟩ := ih s same known _ _ _ _ _ _ _ meant loaded
    obtain ⟨k, rfl⟩ := arg.temp
    obtain ⟨w, last, rfl⟩ := map_run run
    cases loads
    obtain ⟨type, built⟩ := unaryOperation_ok last
    exact ⟨type, arg.unary built⟩
  | binary plain scalar dynamic fst snd ih1 ih2 =>
    intro s same known _ _ m u _ v _ run loads
    rw [slots_formula] at known
    obtain ⟨known1, known2⟩ := forall_mem_append.mp known
    rw [meaning, if_neg (by simp [plain])] at run
    obtain ⟨_, _, meant, run⟩ := bind_ok run
    obtain ⟨_, u1, loaded, run⟩ := bind_ok run
    have left := ih1 s same known1 _ _ _ _ _ _ _ meant loaded
    obtain ⟨_, appends⟩ := left.provides.appends
    obtain ⟨_, _, meant', run⟩ := bind_ok run
    obtain ⟨_, _, loaded', run⟩ := bind_ok run
    have right := ih2 u1 (appends.tree.trans same)
      (fun i mem => Nat.lt_of_lt_of_le (known2 i mem) appends.temps) _ _ _ _ _ _ _ meant'
      loaded'
    obtain ⟨w, last, rfl⟩ := map_run run
    cases loads
    exact binaryOperation_delivers left right dynamic scalar known2 last
  | computed value ih =>
    intro s same known reference hint m u span v s' run loads
    obtain ⟨typed, delivers⟩ := ih s same known reference hint m u span v s' run loads
    exact .computed typed delivers
  | @literal n w signed span width holds =>
    intro s _ _ _ _ m u _ v _ run loads
    cases run
    cases loads
    exact .constant rfl (literal_becomes width (minUnsignedWidth_least n.toNat_lt).1 holds) rfl
  | negative width holds =>
    intro s _ _ _ _ m u _ v _ run loads
    cases run
    cases loads
    exact .constant rfl (literal_becomes width (minSignedWidth_mem _) holds) rfl
  | @truth b span =>
  intro s _ _ _ _ m u _ v _ run loads
  cases run
  cases loads
  exact .constant rfl (truth_becomes b) rfl

end Stencil
