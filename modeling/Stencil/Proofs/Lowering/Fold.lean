import Mathlib.Data.Int.Bitwise
import Stencil.Lowering.Fold
import Stencil.Proofs.Ir.Range

namespace Stencil

open List Int Nat BinaryOp
open Nat (pow)

def Ty.Holds : Ty → Int → Prop
  | .int bits true, n => -pow 2 (bits - 1) ≤ n ∧ n < pow 2 (bits - 1)
  | .int bits false, n => 0 ≤ n ∧ n < pow 2 bits
  | _, _ => False

def widths : List Nat := [8, 16, 32, 64]

variable {w : Nat}

theorem widths_cases (width : w ∈ widths) : w = 8 ∨ w = 16 ∨ w = 32 ∨ w = 64 := by
  simpa [widths] using width

variable {n : Int}

theorem fits_iff_holds (some : w ≠ 0) (small : w ≤ 64) (signed : Bool) :
    fits n w signed ↔ (Ty.int w signed).Holds n := by
  have double := pow_pred w some
  rw [fits_iff_least some (by omega)]
  cases signed <;> simp only [leastInt, Ty.Holds, Bool.false_eq_true, if_false, if_true] <;> omega

theorem fits_iff (width : w ∈ widths) (signed : Bool) :
    fits n w signed ↔ (Ty.int w signed).Holds n := by
  have cases := widths_cases width
  exact fits_iff_holds (by omega) (by omega) signed

/-- A type that holds an integer and is the narrowest to do so, without a sign unless it is
negative. -/
structure Narrowest (n : Int) (type : Ty) : Prop where
  holds : type.Holds n
  least : ∃ w ∈ widths, type = .int w (decide (n < 0)) ∧
    ∀ w' ∈ widths, (Ty.int w' (decide (n < 0))).Holds n → w ≤ w'

theorem minUnsignedWidth_least {n : Nat} (upper : n < pow 2 64) :
    minUnsignedWidth n ∈ widths ∧ n < pow 2 (minUnsignedWidth n) ∧
      ∀ w ∈ widths, n < pow 2 w → minUnsignedWidth n ≤ w := by
  unfold minUnsignedWidth
  repeat' split
  all_goals
    refine ⟨by simp [widths], by assumption, fun w width _ => ?_⟩
    rcases widths_cases width with rfl | rfl | rfl | rfl <;> omega

theorem find_widths_least {p : Nat → Bool} (got : widths.find? p = some w) :
    ∀ w' ∈ widths, p w' → w ≤ w' := by
  obtain ⟨-, _, _, split, failed⟩ := find?_eq_some_iff_append.mp got
  have ascending : widths.Pairwise (· ≤ ·) := by decide
  intro w' mem passes
  rw [split] at mem ascending
  rcases mem_append.mp mem with earlier | later
  · have := failed w' earlier
    simp [passes] at this
  rcases mem_cons.mp later with rfl | later
  · exact .refl
  · exact (pairwise_cons.mp (pairwise_append.mp ascending).2.1).1 w' later

theorem minSignedWidth_least (lower : -pow 2 63 ≤ n) (upper : n < pow 2 63) :
    minSignedWidth n ∈ widths ∧ fits n (minSignedWidth n) true ∧
      ∀ w ∈ widths, fits n w true → minSignedWidth n ≤ w := by
  unfold minSignedWidth
  cases got : [8, 16, 32, 64].find? fun bits => fits n bits true with
  | none =>
    have none := find?_eq_none.mp got 64 (by simp)
    exact absurd (fits_widest lower upper) none
  | some =>
    refine ⟨mem_of_find?_eq_some got, ?_, find_widths_least got⟩
    exact find?_some (p := fun bits => fits n bits true) got

theorem narrowestType_narrowest (lower : -pow 2 63 ≤ n) (upper : n < pow 2 64) :
    Narrowest n (narrowestType n) := by
  unfold narrowestType
  by_cases natural : 0 ≤ n
  · rw [if_pos natural]
    have unsigned := decide_eq_false (Int.not_lt.mpr natural)
    obtain ⟨k, rfl⟩ := eq_ofNat_of_zero_le natural
    obtain ⟨width, below, least⟩ := minUnsignedWidth_least (Int.ofNat_lt.mp upper)
    rw [toNat_natCast]
    refine ⟨⟨natural, Int.ofNat_lt.mpr below⟩, _, width, by rw [unsigned], ?_⟩
    intro w mem holds
    exact least w mem (Int.ofNat_lt.mp holds.2)
  rw [if_neg natural]
  have negative := Int.not_le.mp natural
  have signed := decide_eq_true negative
  obtain ⟨width, fit, least⟩ :=
    minSignedWidth_least lower (Int.lt_trans negative (by decide))
  refine ⟨(fits_iff width true).mp fit, _, width, by rw [signed], ?_⟩
  intro w mem holds
  rw [signed] at holds
  exact least w mem ((fits_iff mem true).mpr holds)

theorem getLsbD_ofInt (w : Nat) (n : Int) {i : Nat} (lies : i < w) :
    (BitVec.ofInt w n).getLsbD i = n.testBit i := by
  cases n with
  | ofNat =>
    rw [ofNat_eq_natCast, BitVec.ofInt_natCast, BitVec.getLsbD_ofNat, decide_eq_true lies]
    exact Bool.true_and _
  | negSucc =>
    rw [BitVec.ofInt_negSucc_eq_not_ofNat, BitVec.getLsbD_not, BitVec.getLsbD_ofNat,
      decide_eq_true lies, Bool.true_and, Bool.true_and]
    rfl

theorem testBit_sign {k : Nat} (lower : -pow 2 k ≤ n) (upper : n < pow 2 k) :
    ∀ i, k ≤ i → n.testBit i = decide (n < 0) := by
  intro i behind
  have more : pow 2 k ≤ pow 2 i := Nat.pow_le_pow_right (by decide) behind
  cases n with
  | ofNat m =>
    have below : m < pow 2 i := by
      rw [ofNat_eq_natCast] at upper
      omega
    exact (testBit_lt_two_pow below).trans (by simp)
  | negSucc m =>
    have below : m < pow 2 i := by
      omega
    exact (congrArg (!·) (testBit_lt_two_pow below)).trans (by simp [negSucc_lt_zero])

theorem bounds_of_testBit {k : Nat} {sign : Bool}
    (alike : ∀ i, k ≤ i → n.testBit i = sign) : -pow 2 k ≤ n ∧ n < pow 2 k := by
  have high : ∀ m, m < pow 2 (max k m) := fun m =>
    Nat.lt_of_lt_of_le m.lt_two_pow_self (Nat.pow_le_pow_right (by decide) (Nat.le_max_right k m))
  cases n with
  | ofNat m =>
    -- far behind its last bit the number has only zeros
    have zero : sign = false :=
      (alike (max k m) (Nat.le_max_left k m)).symm.trans (testBit_lt_two_pow (high m))
    have below : m < pow 2 k := lt_pow_two_of_testBit m fun i behind =>
      (alike i behind).trans zero
    rw [ofNat_eq_natCast]
    omega
  | negSucc m =>
  have one : sign := (alike (max k m) (Nat.le_max_left k m)).symm.trans
    (congrArg (!·) (testBit_lt_two_pow (high m)))
  have below : m < pow 2 k := lt_pow_two_of_testBit m fun i behind =>
    Bool.not_eq_true' _ |>.mp ((alike i behind).trans one)
  omega

theorem bitwise_eq {f : BitVec 128 → BitVec 128 → BitVec 128} {g : Bool → Bool → Bool}
    (bits : ∀ x y i, (f x y).getLsbD i = g (x.getLsbD i) (y.getLsbD i)) {a b : Int}
    (small : a.natAbs < pow 2 64) (small' : b.natAbs < pow 2 64) :
    bitwise f a b = Int.bitwise g a b := by
  have signs : ∀ {n : Int}, n.natAbs < pow 2 64 → ∀ i, 64 ≤ i → n.testBit i = decide (n < 0) :=
    fun _ => testBit_sign (by omega) (by omega)
  have alike : ∀ i, 64 ≤ i →
      (Int.bitwise g a b).testBit i = g (decide (a < 0)) (decide (b < 0)) := by
    intro i behind
    rw [Int.testBit_bitwise, signs small i behind, signs small' i behind]
  have bounds := bounds_of_testBit alike
  have word : f (.ofInt 128 a) (.ofInt 128 b) = BitVec.ofInt 128 (.bitwise g a b) := by
    refine BitVec.eq_of_getLsbD_eq fun i lies => ?_
    rw [bits, getLsbD_ofInt 128 a lies, getLsbD_ofInt 128 b lies, getLsbD_ofInt 128 _ lies,
      Int.testBit_bitwise]
  have wide : pow 2 64 < (2 : Int) ^ 127 := by decide
  rw [bitwise, word]
  exact BitVec.toInt_ofInt_eq_self (by decide) (by omega) (by omega)

namespace BinaryOp

def isArithmetic (op : BinaryOp) : Bool :=
  op ∈ [add, sub, mul, div, rem, bitAnd, bitOr, bitXor, shl, shr]

/-- The exact result of an operator. Quotients are rounded toward zero, shifts to the right down,
and integers have infinitely many bits. -/
def exact (op : BinaryOp) (a b : Int) : Int :=
  match op with
  | add => a + b
  | sub => a - b
  | mul => a * b
  | div => a.tdiv b
  | rem => a.tmod b
  | bitAnd => a.land b
  | bitOr => a.lor b
  | bitXor => a.xor b
  | shl => a * 2 ^ b.toNat
  | shr => a / 2 ^ b.toNat
  | _ => 0

structure Defined (op : BinaryOp) (b : Int) : Prop where
  divisor : op = div ∨ op = rem → b ≠ 0
  amount : op = shl ∨ op = shr → 0 ≤ b ∧ b ≤ 63

variable {op : BinaryOp} {b : Int}

theorem defined_division (division : op = div ∨ op = rem) : op.Defined b ↔ b ≠ 0 := by
  refine ⟨fun defined => defined.divisor division, fun nonzero => ⟨fun _ => nonzero, ?_⟩⟩
  rcases division with rfl | rfl <;> simp

theorem defined_shift (shift : op = shl ∨ op = shr) : op.Defined b ↔ 0 ≤ b ∧ b ≤ 63 := by
  refine ⟨fun defined => defined.amount shift, fun lies => ⟨?_, fun _ => lies⟩⟩
  rcases shift with rfl | rfl <;> simp

theorem defined_other (other : op ∉ [div, rem, shl, shr]) : op.Defined b := by
  simp only [mem_cons, not_mem_nil, or_false, not_or] at other
  exact ⟨fun _ => by tauto, fun _ => by tauto⟩

end BinaryOp

section

variable {op : BinaryOp} {a b : Int}

theorem intOperation_eq_some (arithmetic : op.isArithmetic)
    (small : a.natAbs < pow 2 64) (small' : b.natAbs < pow 2 64) :
    intOperation? op.arithmetic 64 a b = some n ↔ op.Defined b ∧ n = op.exact a b := by
  have total : ∀ {m : Int}, op ∉ [.div, .rem, .shl, .shr] → m = op.exact a b →
      (some m = some n ↔ op.Defined b ∧ n = op.exact a b) := by
    rintro m other rfl
    rw [and_iff_right (defined_other other), Option.some.injEq]
    exact eq_comm
  have power : ((pow 2 b.toNat : Nat) : Int) = 2 ^ b.toNat := natCast_pow 2 b.toNat
  have amount : (decide (0 ≤ b) && decide (b < (64 : Nat))) ↔ 0 ≤ b ∧ b ≤ 63 := by
    rw [Bool.and_eq_true, decide_eq_true_eq, decide_eq_true_eq]
    omega
  cases op with
  | and | or | eq | ne | lt | le | gt | ge => cases arithmetic
  | add | sub | mul => exact total (by decide) rfl
  | bitAnd =>
    refine total (by decide) ?_
    rw [exact, ← bitwise_and]
    exact bitwise_eq (fun _ _ _ => BitVec.getLsbD_and) small small'
  | bitOr =>
    refine total (by decide) ?_
    rw [exact, ← bitwise_or]
    exact bitwise_eq (fun _ _ _ => BitVec.getLsbD_or) small small'
  | bitXor =>
    refine total (by decide) ?_
    rw [exact, ← bitwise_xor]
    exact bitwise_eq (fun _ _ _ => BitVec.getLsbD_xor) small small'
  | div | rem =>
    rw [BinaryOp.defined_division (by decide)]
    simp [intOperation?, BinaryOp.arithmetic, BinaryOp.exact, eq_comm]
  | shl =>
    rw [defined_shift (by decide), ← amount]
    simp only [intOperation?, BinaryOp.arithmetic, BinaryOp.exact, power]
    rw [Option.ite_none_right_eq_some, Option.some.injEq, eq_comm (a := n)]
  | shr =>
  have floor : a.fdiv (2 ^ b.toNat) = a / 2 ^ b.toNat :=
    fdiv_eq_ediv_of_nonneg _ (Int.le_of_lt (Int.pow_pos (by decide)))
  rw [defined_shift (by decide), ← amount]
  simp only [intOperation?, BinaryOp.arithmetic, BinaryOp.exact, power, floor]
  rw [Option.ite_none_right_eq_some, Option.some.injEq, eq_comm (a := n)]

variable {left right common : Ty} {rightSpan span : Span}

theorem foldConstants_eq_ok (arithmetic : op.isArithmetic)
    (small : a.natAbs < pow 2 64) (small' : b.natAbs < pow 2 64)
    (agree : commonType left right = some common) {v : TypedValue} :
    foldConstants op a b left right rightSpan span = .ok v ↔
      op.Defined b ∧ (-pow 2 63 ≤ op.exact a b ∧ op.exact a b < pow 2 64) ∧
      v = ⟨.int (op.exact a b), if fits (op.exact a b) common.bits common.isSigned then common
        else narrowestType (op.exact a b)⟩ := by
  have compares : op.compare? = none := by
    cases op <;> first | rfl | cases arithmetic
  have operation := fun n => intOperation_eq_some (n := n) arithmetic small small'
  unfold foldConstants
  simp only [agree, compares]
  split
  · rename_i zero
    obtain ⟨division, zero⟩ := Bool.and_eq_true_iff.mp zero
    have undefined : ¬op.Defined b := by
      intro defined
      refine defined.divisor ?_ (of_decide_eq_true zero)
      cases op <;> first | exact .inl rfl | exact .inr rfl | cases division
    simp [undefined]
  cases got : intOperation? op.arithmetic 64 a b with
  | none =>
    have undefined : ¬op.Defined b := fun defined =>
      Option.some_ne_none _ (((operation _).mpr ⟨defined, rfl⟩).symm.trans got)
    simp [undefined]
  | some n =>
  obtain ⟨defined, rfl⟩ := (operation n).mp got
  dsimp only
  rw [and_iff_right defined, ← Bool.decide_and]
  by_cases lies : -pow 2 63 ≤ op.exact a b ∧ op.exact a b < pow 2 64
  · rw [if_pos (decide_eq_true lies), and_iff_right lies, Except.ok.injEq]
    exact eq_comm
  rw [if_neg (by rwa [decide_eq_true_eq])]
  refine ⟨?_, fun result => absurd result.1 lies⟩
  rintro ⟨⟩

theorem commonType_widths : ∀ w ∈ widths, ∀ w' ∈ widths, ∀ signed signed',
    ∃ common ∈ widths, ∃ sign : Bool,
      commonType (.int w signed) (.int w' signed') = some (.int common sign) := by
  decide

end

/-- Operations on integer constants are exact. They give a result for all operands that the operator
is defined for, as far as it is one of 64 bits, and its type is as narrow as can be. -/
theorem foldConstants_exact {op : BinaryOp} (arithmetic : op.isArithmetic = true) {a b : Int}
    (small : a.natAbs < Nat.pow 2 64) (small' : b.natAbs < Nat.pow 2 64) {w w' : Nat}
    (width : w ∈ widths) (width' : w' ∈ widths) (signed signed' : Bool) (rightSpan span : Span) :
    ∃ common, commonType (.int w signed) (.int w' signed') = some common ∧
      ((∃ v, foldConstants op a b (.int w signed) (.int w' signed') rightSpan span = .ok v) ↔
        ((op = .div ∨ op = .rem → b ≠ 0) ∧ (op = .shl ∨ op = .shr → 0 ≤ b ∧ b ≤ 63)) ∧
        -2 ^ 63 ≤ op.exact a b ∧ op.exact a b ≤ 2 ^ 64 - 1) ∧
      ∀ v, foldConstants op a b (.int w signed) (.int w' signed') rightSpan span = .ok v →
        v.value = .int (op.exact a b) ∧ v.type.Holds (op.exact a b) ∧
        (common.Holds (op.exact a b) → v.type = common) ∧
        (¬common.Holds (op.exact a b) → Narrowest (op.exact a b) v.type) := by
  obtain ⟨wide, mem, sign, agree⟩ := commonType_widths w width w' width' signed signed'
  have result : ∀ v, foldConstants op a b (.int w signed) (.int w' signed') rightSpan span = .ok v ↔
      _ := fun v => foldConstants_eq_ok arithmetic small small' agree
  have fit : fits (op.exact a b) (Ty.int wide sign).bits (Ty.int wide sign).isSigned ↔
      (Ty.int wide sign).Holds (op.exact a b) := fits_iff mem sign
  refine ⟨.int wide sign, agree, ?_, ?_⟩
  · have range : (-2 ^ 63 ≤ op.exact a b ∧ op.exact a b ≤ 2 ^ 64 - 1) ↔
        -Nat.pow 2 63 ≤ op.exact a b ∧ op.exact a b < Nat.pow 2 64 := by
      rw [show Nat.pow 2 63 = 9223372036854775808 from rfl,
        show Nat.pow 2 64 = 18446744073709551616 from rfl]
      omega
    rw [range]
    constructor
    · rintro ⟨v, ok⟩
      obtain ⟨defined, lies, -⟩ := (result v).mp ok
      exact ⟨⟨defined.divisor, defined.amount⟩, lies⟩
    · rintro ⟨⟨divisor, amount⟩, lies⟩
      exact ⟨_, (result _).mpr ⟨⟨divisor, amount⟩, lies, rfl⟩⟩
  · intro v ok
    obtain ⟨-, ⟨lower, upper⟩, rfl⟩ := (result v).mp ok
    have narrow := narrowestType_narrowest lower upper
    by_cases holds : (Ty.int wide sign).Holds (op.exact a b)
    · rw [if_pos (fit.mpr holds)]
      exact ⟨rfl, holds, fun _ => rfl, fun other => absurd holds other⟩
    · rw [if_neg (mt fit.mp holds)]
      exact ⟨rfl, narrow.holds, fun other => absurd other holds, fun _ => narrow⟩

/-- A sum that does not fit the type of its operands. -/
theorem foldConstants_exact_sum : ∃ v, BinaryOp.add.isArithmetic = true ∧ 8 ∈ widths ∧
    foldConstants .add 200 100 (.int 8 false) (.int 8 false) {} {} = .ok v ∧
    v = ⟨.int 300, .int 16 false⟩ ∧ Narrowest (BinaryOp.add.exact 200 100) v.type := by
  have width : 8 ∈ widths := by decide
  have arithmetic : BinaryOp.add.isArithmetic := rfl
  obtain ⟨common, agree, ok, result⟩ := foldConstants_exact (a := 200) (b := 100) arithmetic
    (by decide) (by decide) width width false false {} {}
  cases agree
  obtain ⟨v, run⟩ := ok.mpr (by decide)
  obtain ⟨-, -, -, narrow⟩ := result v run
  refine ⟨v, rfl, width, run, ?_, narrow fun holds => absurd holds.2 (by decide)⟩
  exact (Except.ok.inj run).symm

end Stencil
