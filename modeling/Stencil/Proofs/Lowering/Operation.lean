import Stencil.Proofs.Lowering.Value

namespace Stencil

open Analysis Tracked Ty Ir Bool Spot

variable {type : Ty}

section

variable {v : TypedValue} {source target : Ty} {implicit : Bool} {span : Span}

theorem ir_of_integer (integer : type.isInteger) : type.ir = .int type.bits := by
  cases type <;> first | rfl | cases integer

theorem ir_of_bool (bool : type.isBool) : type.ir = .int 1 := by
  unfold isBool at bool
  split at bool
  · rfl
  · cases bool

theorem ir_of_float (float : type.isFloat) : type.ir = .float type.bits := by
  cases type <;> first | rfl | cases float

def Conversion.Fits (source target : Ty) : Conversion → Prop
  | .reinterpret => target.isInteger ∧ source.ir = target.ir
  | .test => source.isInteger ∧ target.isBool
  | .instruction .fpext | .instruction .fptrunc | .instruction .sitofp | .instruction .uitofp =>
    target.isFloat
  | .instruction .bitcast => True
  | .instruction _ => target.isInteger

variable {c : Conversion}

theorem conversion_fits {value : Value}
    (got : conversion value source target implicit = .ok c) : c.Fits source target := by
  unfold conversion at got
  split at got
  · rename_i floats
    cases got
    obtain ⟨-, float⟩ := and_eq_true_iff.mp floats
    split <;> exact float
  split at got
  · rename_i floats
    obtain ⟨-, integer⟩ := and_eq_true_iff.mp floats
    split at got
    · cases got
    cases got
    split <;> exact integer
  split at got
  · rename_i integers
    obtain ⟨-, float⟩ := and_eq_true_iff.mp integers
    cases got
    split <;> exact float
  split at got
  · rename_i integers
    obtain ⟨integer, integer'⟩ := and_eq_true_iff.mp integers
    dsimp only at got
    split at got
    · cases got
    split at got
    · cases got
      split <;> exact integer'
    split at got
    · cases got
      exact integer'
    cases got
    refine ⟨integer', ?_⟩
    rw [ir_of_integer integer, ir_of_integer integer']
    exact congrArg Ir.Ty.int (by omega)
  split at got
  · rename_i truths
    obtain ⟨-, integer⟩ := and_eq_true_iff.mp truths
    split at got
    · cases got
    cases got
    exact integer
  split at got
  · rename_i truths
    obtain ⟨integer, bool⟩ := and_eq_true_iff.mp truths
    split at got
    · cases got
    cases got
    exact ⟨integer, bool⟩
  split at got
  · split at got
    · cases got
    cases got
    trivial
  · cases got

theorem conversion_ordinary {value : Value} {p : Problem}
    (got : conversion value source target implicit = .error p) : p.isOrdinary := by
  unfold conversion at got
  dsimp only at got
  repeat' split at got
  all_goals
    first
    | cases got; done
    | cases got; rfl

theorem convertTo_same (same : v.type = target) : convertTo v target implicit span = pure v := by
  funext s
  simp only [convertTo, get_bind, convert, if_pos same]
  rfl

theorem convertTo_ok (other : v.type ≠ target)
    (got : conversion v.value v.type target implicit = .ok c) :
    convertTo v target implicit span = build (c.apply v target) := by
  funext s
  simp only [convertTo, get_bind, convert, if_neg other, got]
  rfl

theorem convertTo_error {p : Problem} (other : v.type ≠ target)
    (got : conversion v.value v.type target implicit = .error p) :
    convertTo v target implicit span = fail p span := by
  funext s
  simp only [convertTo, get_bind, convert, if_neg other, got]

theorem foldCast_has {kind : CastKind} {value folded : Value} {x : Spot}
    (fits : (Conversion.instruction kind).Fits source target)
    (got : foldCast? kind value target = some folded) (known : target.Known x.tree) :
    x.Usable folded target.ir := by
  unfold foldCast? at got
  split at got
  all_goals first | cases got; done | skip
  all_goals cases got
  all_goals first
    | exact ⟨trivial, target.bits, ir_of_float fits⟩
    | have integer := ir_of_integer fits
      exact ⟨trivial, target.bits, integer, fitting_normalize _ _ (known.bits_le integer)⟩

variable {x : Spot}

theorem build_map {α β : Type} (f : α → β) (step : Build α) :
    build (do return f (← step)) = f <$> build step := by
  funext s
  rfl

theorem apply_keeps (fits : c.Fits v.type target) (sound : v.Sound x)
    (known : target.Known x.tree) :
    Keeps (build (c.apply v target)) x fun w y => w.Sound y ∧ w.type.ir = target.ir := by
  obtain ⟨usable, known'⟩ := sound
  unfold Conversion.apply
  split
  · have integer := ir_of_integer fits.1
    have small := known.bits_le integer
    exact .pure ⟨⟨⟨trivial, target.bits, integer, fitting_normalize _ _ small⟩, known⟩, rfl⟩
  · exact .pure ⟨⟨fits.2 ▸ usable, known⟩, rfl⟩
  · exact .pure ⟨⟨⟨trivial, 1, rfl, fitting_truth _⟩, known_bool⟩, (ir_of_bool fits.2).symm⟩
  · rw [build_map]
    have integer := ir_of_integer fits.1
    have zero : x.Usable (.int 0) v.type.ir :=
      ⟨trivial, v.type.bits, integer, fitting_zero (known'.bits_le integer)⟩
    refine .map ((compare_keeps usable zero).mono ?_)
    exact fun _ _ _ h => ⟨⟨h.1, known_bool⟩, (ir_of_bool fits.2).symm⟩
  split
  · rename_i folded got
    exact .pure ⟨⟨foldCast_has fits got known, known⟩, rfl⟩
  rw [build_map]
  refine .map ((cast_keeps usable).mono ?_)
  exact fun _ _ way h => ⟨⟨h, way.known known⟩, rfl⟩

theorem convertTo_keeps (sound : v.Sound x) (known : target.Known x.tree) :
    Keeps (convertTo v target implicit span) x fun w y => w.Sound y ∧ w.type.ir = target.ir := by
  by_cases same : v.type = target
  · rw [convertTo_same same]
    exact .pure ⟨sound, by rw [same]⟩
  cases got : conversion v.value v.type target implicit with
  | ok =>
    rw [convertTo_ok same got]
    exact apply_keeps (conversion_fits got) sound known
  | error =>
    rw [convertTo_error same got]
    exact .fail (conversion_ordinary got)

end

variable {x : Spot} {v lhs rhs : TypedValue} {op : BinaryOp} {span : Span}

theorem truth_sound (b : Bool) (x : Spot) : (truth b).Sound x :=
  ⟨⟨trivial, 1, rfl, fitting_truth _⟩, known_bool⟩

variable {n : Int}

theorem int_sound {bits : Nat} (signed : Bool) (fitting : Fitting n bits) :
    TypedValue.Sound ⟨.int n, .int bits signed⟩ x :=
  ⟨⟨trivial, bits, rfl, fitting⟩, known_int signed fitting.1⟩

theorem bits_le_of_numeric {t : ScopeTree} (known : type.Known t)
    (integer : type.isFloat = false) (numeric : type.isNumeric) : type.bits ≤ 64 := by
  cases type with
  | int => exact of_decide_eq_true known.1
  | float => cases integer
  | _ => cases numeric

theorem mixedWidth_le {signed unsigned : Nat} (small : signed ≤ 64) :
    mixedWidth signed unsigned ≤ 64 := by
  unfold mixedWidth
  split
  · exact Nat.min_le_right _ _
  · exact small

variable {a b : Ty}

theorem commonType_known {t : ScopeTree} (known : a.Known t) (known' : b.Known t)
    (got : commonType a b = some type) : type.Known t := by
  unfold commonType at got
  split at got
  · exact Option.some.inj got ▸ known
  split at got
  · cases got
  rename_i numeric
  rw [not_eq_true, or_eq_false_iff, not_eq_false', not_eq_false'] at numeric
  split at got
  · exact Option.some.inj got ▸ known_float _
  rename_i integers
  rw [not_eq_true, or_eq_false_iff] at integers
  have small := bits_le_of_numeric known integers.1 numeric.1
  have small' := bits_le_of_numeric known' integers.2 numeric.2
  split at got
  · exact Option.some.inj got ▸ known_int _ (Nat.max_le.mpr ⟨small, small'⟩)
  split at got
  · exact Option.some.inj got ▸ known_int _ (mixedWidth_le small)
  · exact Option.some.inj got ▸ known_int _ (mixedWidth_le small')

theorem commonType_integer (fst : a.isInteger) (snd : b.isInteger)
    (got : commonType a b = some type) : ∃ bits, type.ir = .int bits := by
  have float : a.isFloat = false ∧ b.isFloat = false := by
    constructor
    · cases a <;> first | rfl | cases fst
    · cases b <;> first | rfl | cases snd
  unfold commonType at got
  rw [float.1, float.2] at got
  repeat' split at got
  all_goals
    first
    | cases got; done
    | contradiction
    | cases got
      first | exact ⟨_, ir_of_integer fst⟩ | exact ⟨_, rfl⟩

theorem integer_eq (got : v.integer? = some n) : v.type.isInteger ∧ v.value = .int n := by
  unfold TypedValue.integer? at got
  split at got
  · rename_i integer
    refine ⟨integer, ?_⟩
    cases h : v.value <;> rw [h] at got <;> cases got
    rfl
  · cases got

theorem bits_of_ir {bits : Nat} (integer : type.ir = .int bits) : type.bits = bits := by
  cases type <;> cases integer
  rfl

theorem narrowestType_sound (lower : -Nat.pow 2 63 ≤ n) (upper : n < Nat.pow 2 64) :
    TypedValue.Sound ⟨.int n, narrowestType n⟩ x := by
  unfold narrowestType
  split
  · rename_i natural
    have lies := inRange_minUnsignedWidth (n := n.toNat) (by omega)
    rw [Int.toNat_of_nonneg natural] at lies
    exact int_sound _ ⟨minUnsignedWidth_le _, .inl lies⟩
  · exact int_sound _ (fitting_minSignedWidth lower (by omega))

/-- An exact result has the common type of its operands or one that is as narrow as can be. -/
theorem constant_sound (fst : a.isInteger)
    (snd : b.isInteger) (known : a.Known x.tree) (known' : b.Known x.tree)
    (got : commonType a b = some type)
    (lower : -Nat.pow 2 63 ≤ n) (upper : n < Nat.pow 2 64) : TypedValue.Sound
      ⟨.int n, if fits n type.bits type.isSigned then type else narrowestType n⟩ x := by
  split
  · rename_i holds
    obtain ⟨_, integer⟩ := commonType_integer fst snd got
    obtain rfl := bits_of_ir integer
    have known := commonType_known known known' got
    exact ⟨⟨trivial, _, integer, fitting_of_fits (known.bits_le integer) holds⟩, known⟩
  · exact narrowestType_sound lower upper

theorem foldConstants_sound {a b : Int} {left right : Ty} {rightSpan : Span}
    (fst : left.isInteger) (snd : right.isInteger) (known : left.Known x.tree)
    (known' : right.Known x.tree) :
    Keeps (fromExcept (foldConstants op a b left right rightSpan span)) x fun v y => v.Sound y := by
  refine .fromExcept ?_ ?_
  · intro v got
    unfold foldConstants at got
    split at got
    · cases got
    rename_i type common
    split at got
    · cases got
      exact truth_sound _ x
    split at got
    · cases got
    split at got
    · cases got
    rename_i n _
    split at got
    · rename_i bounds
      cases got
      obtain ⟨lower, upper⟩ := and_eq_true_iff.mp bounds
      exact constant_sound fst snd known known' common (of_decide_eq_true lower)
        (of_decide_eq_true upper)
    · cases got
  intro d got
  unfold foldConstants at got
  repeat' split at got
  all_goals
    first
    | cases got; done
    | obtain rfl := Except.error.inj got
      rfl

theorem adopt_sound {other : Ty} (known : other.Known x.tree) (sound : v.Sound x) :
    (v.adopt other).Sound x := by
  unfold TypedValue.adopt
  split
  · rename_i n got
    split
    · rename_i fits
      obtain ⟨integer, holds⟩ := and_eq_true_iff.mp fits
      have integer := ir_of_integer integer
      rw [(integer_eq got).2]
      exact ⟨⟨trivial, _, integer, fitting_of_fits (known.bits_le integer) holds⟩, known⟩
    · exact sound
  · exact sound

theorem wrapped_usable {m : Int} (usable : x.Usable (.int m) type.ir) (n : Int) :
    x.Usable (.int (normalize n type.bits type.isSigned)) type.ir := by
  obtain ⟨-, bits, integer, small, -⟩ := usable
  rw [bits_of_ir integer]
  exact ⟨trivial, bits, integer, fitting_normalize _ _ small⟩

theorem foldArithmetic_usable {op : BinOp} {left right value : Value}
    (usable : x.Usable left type.ir) (got : foldArithmetic? op type left right = some value) :
    x.Usable value type.ir := by
  unfold foldArithmetic? at got
  split at got
  · obtain ⟨n, -, rfl⟩ := Option.map_eq_some_iff.mp got
    exact wrapped_usable usable n
  · obtain ⟨y, -, rfl⟩ := Option.map_eq_some_iff.mp got
    exact ⟨trivial, usable.2⟩
  · cases got

namespace BinaryOp

def resultType (op : BinaryOp) (type : Ty) : Ty :=
  if op.compare?.isSome then .bool else type

def instruction (op : BinaryOp) (type : Ty) (a b : Value) (dst : Nat) : Inst :=
  match op.compare? with
  | some cmp => .compare dst cmp type.ir type.isSigned a b
  | none => .binary dst op.arithmetic type.ir type.isSigned a b

def fold? (op : BinaryOp) (type : Ty) (a b : Value) : Option Value :=
  match op.compare? with
  | some cmp => (foldCompare? cmp a b).map fun result => (truth result).value
  | none => foldArithmetic? op.arithmetic type a b

end BinaryOp

def Combines (op : BinaryOp) (type : Ty) (left right : Value) (x : Spot) (v : TypedValue) (y : Spot) :
    Prop :=
  v.type = op.resultType type ∧ (op.fold? type left right = some v.value ∧ x = y ∨
    v.value = .temp x.nextTemp ∧
      x.Emits y (op.instruction type left right x.nextTemp))

theorem commonOperation_keeps {right : Span} (usable : x.Usable lhs.value type.ir)
    (usable' : x.Usable rhs.value type.ir) (known : type.Known x.tree) :
    Keeps (do
      match op.compare? with
      | some cmp =>
        match foldCompare? cmp lhs.value rhs.value with
        | some result => return truth result
        | none =>
          return ⟨← build (Ir.Builder.compare cmp type.ir type.isSigned lhs.value rhs.value), .bool⟩
      | none =>
        let op := op.arithmetic
        if (op = .div || op = .rem) && rhs.value.int? = some 0 then fail .divisionByZero right
        match foldArithmetic? op type lhs.value rhs.value with
        | some value => return ⟨value, type⟩
        | none =>
          return ⟨← build (Ir.Builder.binary op type.ir type.isSigned lhs.value rhs.value), type⟩)
      x fun v y => v.Sound y ∧ Combines op type lhs.value rhs.value x v y := by
  unfold Combines BinaryOp.resultType BinaryOp.fold? BinaryOp.instruction
  cases op.compare? with
  | some cmp =>
    dsimp only
    cases folded : foldCompare? cmp lhs.value rhs.value with
    | some b => exact .pure ⟨truth_sound b x, rfl, .inl ⟨rfl, rfl⟩⟩
    | none =>
      refine .bind (compare_keeps usable usable') ?_
      rintro _ y _ ⟨result, rfl, emits, -⟩
      exact .pure ⟨⟨result, known_bool⟩, rfl, .inr ⟨rfl, emits⟩⟩
  | none =>
  refine .check rfl fun _ => ?_
  cases folded : foldArithmetic? op.arithmetic type lhs.value rhs.value with
  | some => exact .pure ⟨⟨foldArithmetic_usable usable folded, known⟩, rfl, .inl ⟨rfl, rfl⟩⟩
  | none =>
    refine .bind (binary_keeps usable usable') ?_
    rintro _ y way ⟨result, rfl, emits, -⟩
    exact .pure ⟨⟨result, way.known known⟩, rfl, .inr ⟨rfl, emits⟩⟩

theorem binaryOperation_keeps {left right : Span} (fst : lhs.Sound x) (snd : rhs.Sound x) :
    Keeps (binaryOperation op lhs rhs left right span) x fun v y => v.Sound y := by
  unfold binaryOperation
  dsimp only
  split
  · split
    · rename_i same
      refine .bind (compare_keeps fst.usable ?_) ?_
      · rw [same]
        exact snd.usable
      · exact fun v y _ h => Keeps.pure ⟨h.1, known_bool⟩
    · exact .fail_bind rfl
  split
  · rename_i a b got found'
    exact foldConstants_sound (integer_eq got).1 (integer_eq found').1 fst.known snd.known
  have adopted := adopt_sound snd.known fst
  have adopted' := adopt_sound fst.known snd
  split
  · exact .fail rfl
  rename_i type common
  have known := commonType_known adopted.known adopted'.known common
  refine .require rfl fun _ => ?_
  refine .bind (convertTo_keeps adopted known) ?_
  rintro lhs y way ⟨fst, same⟩
  refine .bind (convertTo_keeps (way.value adopted') (way.known known)) ?_
  rintro rhs z reached' ⟨snd, same'⟩
  exact (commonOperation_keeps (same ▸ (reached'.value fst).usable) (same' ▸ snd.usable)
    (reached'.known (way.known known))).mono fun _ _ _ h => h.1

theorem asCondition_keeps :
    Keeps (asCondition v span) x fun w y => w = v ∧ x = y ∧ v.type.isBool := by
  unfold asCondition
  split
  · rename_i bool
    exact .pure ⟨rfl, rfl, bool⟩
  · exact .fail_bind rfl

theorem unaryOperation_keeps {op : UnaryOp} {arg : Span} (sound : v.Sound x) :
    Keeps (unaryOperation op v arg span) x fun v y => v.Sound y := by
  obtain ⟨usable, known⟩ := sound
  have emits (op : Ir.UnOp) : Keeps (do
      return (⟨← build (Ir.Builder.unary op v.type.ir v.value), v.type⟩ : TypedValue)) x
        fun v y => v.Sound y :=
    .bind (unary_keeps usable) fun _ _ way h => Keeps.pure ⟨h.1, way.known known⟩
  cases op with
  | neg =>
    refine .require rfl fun _ => ?_
    split
    · rename_i n value
      rw [value] at usable
      exact .pure ⟨wrapped_usable usable _, known⟩
    · rename_i y value
      rw [value] at usable
      exact .pure ⟨⟨trivial, usable.2⟩, known⟩
    exact emits _
  | not =>
    refine .require rfl fun bool => ?_
    split
    · exact .pure ⟨⟨trivial, 1, ir_of_bool bool, fitting_truth _⟩, known⟩
    exact emits _
  | bitNot =>
  refine .require rfl fun _ => ?_
  split
  · rename_i n value
    rw [value] at usable
    exact .pure ⟨wrapped_usable usable _, known⟩
  exact emits _

end Stencil
