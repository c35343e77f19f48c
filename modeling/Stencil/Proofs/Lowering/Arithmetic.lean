import Stencil.Lowering.Expr
import Stencil.Proofs.Lowering.Fold
import Stencil.Proofs.Steps

namespace Stencil

open Analysis

variable {n : Int}

theorem normalize_self {w : Nat} (some : w ≠ 0) (small : w ≤ 64) {signed : Bool}
    (holds : (Ty.int w signed).Holds n) : normalize n w signed = n :=
  normalize_of_fits some (by omega) ((fits_iff_holds some small signed).mpr holds)

theorem normalize_of_holds {w : Nat} (width : w ∈ widths) {signed : Bool}
    (holds : (Ty.int w signed).Holds n) : normalize n w signed = n := by
  have cases := widths_cases width
  exact normalize_self (by omega) (by omega) holds

structure TypedValue.IsConstant (v : TypedValue) (n : Int) : Prop where
  value : v.value = .int n
  type : ∃ w ∈ widths, ∃ signed, v.type = .int w signed
  small : n.natAbs < Nat.pow 2 64

theorem pow_widths {w : Nat} (width : w ∈ widths) : Nat.pow 2 w ≤ Nat.pow 2 64 :=
  Nat.pow_le_pow_right (by decide) (by have := widths_cases width; omega)

variable {v : TypedValue}

theorem negate_constant (constant : v.IsConstant n) (arg span : Span) (s : Session) :
    ∃ v' m, unaryOperation .neg v arg span s = .ok v' s ∧ v'.IsConstant m ∧
      (v.type.Holds (-n) → m = -n) := by
  obtain ⟨_, _⟩ := v
  obtain ⟨rfl, ⟨w, width, signed, rfl⟩, _⟩ := constant
  have numeric : (Ty.int w signed).isNumeric := by
    rcases widths_cases width with rfl | rfl | rfl | rfl <;> rfl
  refine ⟨⟨.int (normalize (-n) w signed), .int w signed⟩, _, ?_, ⟨rfl, ⟨w, width, signed, rfl⟩, ?_⟩,
    normalize_of_holds width⟩
  · unfold unaryOperation
    simp only [numeric]
    rfl
  have cases := widths_cases width
  obtain ⟨_, _⟩ := inRange_normalize (-n) signed (show w ≤ 64 by omega)
  have := pow_pred w (by omega)
  have := pow_widths width
  omega

theorem integer_constant (constant : v.IsConstant n) : v.integer? = some n := by
  obtain ⟨w, width, _, type⟩ := constant.type
  have integer : v.type.isInteger := by
    rw [type]
    rcases widths_cases width with rfl | rfl | rfl | rfl <;> rfl
  rw [TypedValue.integer?, if_pos integer, constant.value]
  rfl

theorem minSignedWidth_mem (n : Int) : minSignedWidth n ∈ widths :=
  (minSignedWidth_cases n).1

theorem binaryOperation_constants {op : BinaryOp} (arithmetic : op.isArithmetic)
    {lhs rhs : TypedValue} {a b : Int} (fst : lhs.IsConstant a) (snd : rhs.IsConstant b)
    {left right span : Span} {s s' : Session}
    (run : binaryOperation op lhs rhs left right span s = .ok v s') :
    s' = s ∧ v.IsConstant (op.exact a b) := by
  have noPointer : lhs.type.isPointer = false := by
    obtain ⟨w, -, _, type⟩ := fst.type
    rw [type]
    rfl
  unfold binaryOperation at run
  simp only [noPointer, Bool.false_and, Bool.false_eq_true, if_false, integer_constant fst,
    integer_constant snd] at run
  obtain ⟨w, width, signed, type⟩ := fst.type
  obtain ⟨w', width', signed', type'⟩ := snd.type
  obtain ⟨wide, mem, sign, agree⟩ := commonType_widths w width w' width' signed signed'
  rw [type, type'] at run
  cases folded : foldConstants op a b (.int w signed) (.int w' signed') right span with
  | error =>
    rw [folded] at run
    cases run
  | ok =>
  rw [folded] at run
  cases run
  obtain ⟨-, ⟨lower, upper⟩, rfl⟩ :=
    (foldConstants_eq_ok arithmetic fst.small snd.small agree).mp folded
  have more : Nat.pow 2 64 = 2 * Nat.pow 2 63 := by decide
  refine ⟨rfl, rfl, ?_, by omega⟩
  split
  · exact ⟨wide, mem, sign, rfl⟩
  obtain ⟨w'', mem, same, -⟩ := (narrowestType_narrowest lower upper).least
  exact ⟨w'', mem, _, same⟩

namespace Expr

/-- Integer literals, minus signs and the operators `+`, `-`, `*`, `/` and `%`. -/
def isArithmetic : Expr → Bool
  | int _ _ => true
  | unary .neg arg _ => arg.isArithmetic
  | binary op left right _ =>
    op ∈ [.add, .sub, .mul, .div, .rem] && left.isArithmetic && right.isArithmetic
  | _ => false

def exact : Expr → Int
  | int n _ => n.toNat
  | unary _ arg _ => -arg.exact
  | binary op left right _ => op.exact left.exact right.exact
  | _ => 0

/-- Each minus stands in front of a literal, or in front of something with a type that holds the
negative as well. -/
def NegationsHold (r : Resolver) : Expr → Prop
  | unary op arg _ => arg.NegationsHold r ∧ (negatedLiteral? op arg = none →
      ∀ s v s', arg.lower r none s = .ok v s' → v.type.Holds (-arg.exact))
  | binary _ left right _ => left.NegationsHold r ∧ right.NegationsHold r
  | _ => True

section

theorem asValue_value (v : TypedValue) (span : Span) : (Meaning.value v).asValue span = pure v :=
  rfl

variable {r : Resolver} {hint : Option Ty} {span : Span}

theorem lower_negatedLiteral {op : UnaryOp} {arg : Expr} {n : UInt64}
    (literal : negatedLiteral? op arg = some n) : (unary op arg span).lower r hint =
      pure ⟨.int (-n.toNat), .int (minSignedWidth (-n.toNat)) true⟩ := by
  unfold lower
  rw [meaning, literal]
  rfl

theorem lower_unary {op : UnaryOp} {arg : Expr}
    (literal : negatedLiteral? op arg = none) : (unary op arg span).lower r hint =
      arg.lower r none >>= fun v => unaryOperation op v arg.span span := by
  unfold lower
  rw [meaning, literal]
  simp only [bind_assoc, bind_map_left, asValue_value, bind_pure]

theorem lower_binary {op : BinaryOp} {left right : Expr} (plain : op.isLogical = false) :
    (binary op left right span).lower r hint =
      left.lower r none >>= fun lhs => right.lower r none >>= fun rhs =>
        binaryOperation op lhs rhs left.span right.span span := by
  unfold lower
  rw [meaning, plain]
  simp only [Bool.false_eq_true, if_false, bind_assoc, bind_map_left, asValue_value, bind_pure]

end

theorem lower_arithmetic {r : Resolver} {e : Expr} {hint : Option Ty} {s s' : Session}
    (arithmetic : e.isArithmetic) (run : e.lower r hint s = .ok v s') :
    s' = s ∧ ∃ n, v.IsConstant n ∧ (e.NegationsHold r → n = e.exact) := by
  fun_induction isArithmetic e generalizing hint s s' v with
  | case1 n =>
    cases run
    obtain ⟨width, -, -⟩ := minUnsignedWidth_least n.toNat_lt
    exact ⟨rfl, n.toNat, ⟨rfl, ⟨_, width, false, rfl⟩, n.toNat_lt⟩, fun _ => rfl⟩
  | case2 arg span ih =>
    cases literal : negatedLiteral? .neg arg with
    | some n =>
      have same : ∃ inner, arg = .int n inner := by
        cases arg <;> cases literal
        exact ⟨_, rfl⟩
      obtain ⟨_, rfl⟩ := same
      cases run
      have bound := n.toNat_lt
      refine ⟨rfl, -n.toNat, ⟨rfl, ⟨_, minSignedWidth_mem _, true, rfl⟩, ?_⟩, fun _ => rfl⟩
      change _ < Nat.pow 2 64 at bound
      omega
    | none =>
    rw [lower_unary literal] at run
    obtain ⟨u, s1, inner, outer⟩ := bind_ok run
    obtain ⟨rfl, n, constant, exactly⟩ := ih arithmetic inner
    obtain ⟨_, m, negated, constant', holds⟩ :=
      negate_constant constant arg.span span s1
    rw [negated] at outer
    cases outer
    refine ⟨rfl, m, constant', ?_⟩
    rintro ⟨below, here⟩
    obtain rfl := exactly below
    exact holds (here literal _ u _ inner)
  | case3 op left right span ih ih' =>
    obtain ⟨operators, snd⟩ := Bool.and_eq_true_iff.mp arithmetic
    obtain ⟨mem, fst⟩ := Bool.and_eq_true_iff.mp operators
    have kind : op.isLogical = false ∧ op.isArithmetic := by
      cases op <;> first | exact ⟨rfl, rfl⟩ | cases mem
    rw [lower_binary kind.1] at run
    obtain ⟨_, _, run1, rest⟩ := bind_ok run
    obtain ⟨_, _, run2, outer⟩ := bind_ok rest
    obtain ⟨rfl, a, constant, exactly⟩ := ih fst run1
    obtain ⟨rfl, b, constant', exactly'⟩ := ih' snd run2
    obtain ⟨rfl, result⟩ := binaryOperation_constants kind.2 constant constant' outer
    refine ⟨rfl, _, result, ?_⟩
    rintro ⟨below, below'⟩
    rw [exact, exactly below, exactly' below']
  | case4 => cases arithmetic

/-- Arithmetic has its exact value, unless a minus in front of a larger part leaves the type of that
part. -/
theorem lower_exact {r : Resolver} {e : Expr} (arithmetic : e.isArithmetic = true)
    (negations : e.NegationsHold r) {hint : Option Ty} {s s' : Session} {v : TypedValue}
    (run : e.lower r hint s = .ok v s') :
    s' = s ∧ v.value = .int e.exact ∧ v.type.isInteger = true := by
  obtain ⟨same, n, constant, exactly⟩ := lower_arithmetic arithmetic run
  obtain rfl := exactly negations
  obtain ⟨w, width, signed, type⟩ := constant.type
  refine ⟨same, constant.value, ?_⟩
  rw [type]
  rcases widths_cases width with rfl | rfl | rfl | rfl <;> rfl

def negatedDifference : Expr :=
  .unary .neg (.binary .sub (.int 3 {}) (.int 10 {}) {}) {}

theorem lower_exact_negatedDifference : negatedDifference.isArithmetic = true ∧
    negatedDifference.NegationsHold (.within 0) ∧
    ∃ v s, negatedDifference.lower (.within 0) none (.new "m") = .ok v s ∧
      v.value = .int negatedDifference.exact ∧ negatedDifference.exact = 7 := by
  have negations : negatedDifference.NegationsHold (.within 0) := by
    refine ⟨⟨trivial, trivial⟩, fun _ s v s' run => ?_⟩
    cases run
    exact ⟨by decide, by decide⟩
  have run : negatedDifference.lower (.within 0) none (.new "m") =
      .ok ⟨.int 7, .int 8 true⟩ (.new "m") := rfl
  exact ⟨rfl, negations, _, _, run, (lower_exact rfl negations run).2.1, rfl⟩

def negatedSum : Expr :=
  .unary .neg (.binary .add (.int 100 {}) (.int 100 {}) {}) {}

/-- The sum has a type without a sign, in which its negative wraps around. -/
theorem lower_negatedSum : ¬∀ (r : Resolver) (e : Expr) (s s' : Session) (v : TypedValue),
    e.isArithmetic = true → e.lower r none s = .ok v s' → v.value = .int e.exact := by
  intro always
  have sum : foldConstants .add 100 100 (.int 8 false) (.int 8 false) {} {} =
      .ok ⟨.int 200, .int 8 false⟩ := by decide +kernel
  have run : negatedSum.lower (.within 0) none (.new "m") =
      .ok ⟨.int (normalize (-200) 8 false), .int 8 false⟩ (.new "m") := by
    change (fromExcept (foldConstants .add 100 100 (.int 8 false) (.int 8 false) {} {}) >>=
      fun v => unaryOperation .neg v {} {}) _ = _
    rw [sum]
    rfl
  have wrong := Ir.Value.int.inj (always _ negatedSum _ _ _ rfl run)
  exact absurd wrong (by decide +kernel)

end Expr

end Stencil
