import Mathlib.Data.List.TakeWhile
import Mathlib.Data.Nat.Digits.Defs
import Stencil.Proofs.Token.Written

namespace Stencil

open List Scan Input

namespace Scan

/-- A base, digits in it, and the literal that they are written as. -/
inductive Numeral : Nat → List Char → List Char → Prop
  | decimal {d : Char} {ds : List Char} : d.isDigit →
    ds.all (fun c => c.isDigit || c = '_') →
    Numeral 10 (d :: ds) (d :: ds)
  | hex {d : Char} {ds : List Char} : isHexDigit d →
    ds.all (fun c => isHexDigit c || c = '_') →
    Numeral 16 (d :: ds) ('0' :: 'x' :: d :: ds)
  | binary {d : Char} {ds : List Char} : isBit d →
    ds.all (fun c => isBit c || c = '_') →
    Numeral 2 (d :: ds) ('0' :: 'b' :: d :: ds)

/-- The value of digits by their places; underscores count for nothing. -/
def placeValue (base : Nat) (digits : List Char) : Nat :=
  .ofDigits base
    ((digits.filter (· != '_')).reverse.map fun c => "0123456789abcdef".toList.idxOf c.toLower)

variable {c d : Char} {base : Nat} {digits text ds : List Char}

theorem digitValue_eq_idxOf (hex : isHexDigit c) :
    digitValue c = "0123456789abcdef".toList.idxOf c.toLower := by
  have small : c.toNat < 128 := by
    simp only [isHexDigit, Char.isDigit, Bool.or_eq_true, Bool.and_eq_true, decide_eq_true_eq] at hex
    rcases hex with (⟨_, le⟩ | ⟨_, le⟩) | ⟨_, le⟩
    all_goals exact Nat.lt_of_le_of_lt (UInt32.le_iff_toNat_le.mp le) (by decide)
  have all : ∀ n : Fin 128, isHexDigit (.ofNat n) →
      digitValue (.ofNat n) = "0123456789abcdef".toList.idxOf (Char.ofNat n).toLower := by
    decide +kernel
  simpa using all ⟨c.toNat, small⟩ (by simpa using hex)

theorem isHexDigit_of_mem {p : Char → Bool} (weaker : ∀ c, p c → isHexDigit c)
    (digit : p d) (more : ds.all (fun c => p c || c = '_')) :
    ∀ c ∈ d :: ds, c ≠ '_' → isHexDigit c := by
  refine forall_mem_cons.mpr ⟨fun _ => weaker _ digit, fun c mem other => weaker c ?_⟩
  simpa [other] using all_eq_true.mp more c mem

theorem Numeral.hexDigits (numeral : Numeral base digits text) :
    ∀ c ∈ digits, c ≠ '_' → isHexDigit c := by
  cases numeral with
  | decimal digit more =>
    exact isHexDigit_of_mem (fun _ digit => by simp [isHexDigit, digit]) digit more
  | hex digit more => exact isHexDigit_of_mem (fun _ => id) digit more
  | binary digit more =>
  refine isHexDigit_of_mem (fun c bit => ?_) digit more
  rcases Bool.or_eq_true_iff.mp bit with zero | one
  · rw [of_decide_eq_true zero]
    rfl
  rw [of_decide_eq_true one]
  rfl

theorem Numeral.value (numeral : Numeral base digits text) :
    digitsValue base digits = placeValue base digits := by
  have values : (digits.filter (· != '_')).map digitValue =
      (digits.filter (· != '_')).map fun c => "0123456789abcdef".toList.idxOf c.toLower := by
    refine map_congr_left fun c kept => digitValue_eq_idxOf ?_
    obtain ⟨mem, other⟩ := mem_filter.mp kept
    exact numeral.hexDigits c mem (bne_iff_ne.mp other)
  rw [placeValue, map_reverse, ← values, Nat.ofDigits_eq_foldr, foldr_reverse, foldl_map,
    digitsValue]
  simp only [Nat.cast_id, Nat.mul_comm, Nat.add_comm]

theorem Numeral.first (numeral : Numeral base digits text) :
    ∃ c rest, text = c :: rest ∧ first c rest = (integer base digits text, rest.length) := by
  cases numeral with
  | decimal digit more =>
    have got := first_decimal (fun _ (none : _ ∈ [].head?) => by cases none) digit more
    rw [append_nil] at got
    exact ⟨_, _, rfl, got⟩
  | hex digit more | binary digit more =>
    refine ⟨_, _, rfl, ?_⟩
    simp [Scan.first, number, digit, basedNumber, isBlank,
      takeWhile_eq_self_iff.mpr (all_eq_true.mp more)]

end Scan

/-- A whole number is one literal for the value of its digits. It is one fault, if that is too
large. -/
theorem numerals_denote {base : Nat} {digits text : List Char}
    (numeral : Numeral base digits text) :
    (placeValue base digits < 2 ^ 64 → ∃ value : UInt64, value.toNat = placeValue base digits ∧
      allTokens (lexemes text) = .ok [⟨.int value, ⟨0, byteLength text⟩, false⟩,
        ⟨.eof, ⟨byteLength text, byteLength text⟩, false⟩]) ∧
    (2 ^ 64 ≤ placeValue base digits →
      ∃ d, allTokens (lexemes text) = .error d ∧ d.kind = .lexical ∧
        d.span = ⟨0, byteLength text⟩) := by
  obtain ⟨c, rest, rfl, got⟩ := numeral.first
  rw [lexemes_whole got, integer, numeral.value, Nat.pow_eq]
  constructor
  · intro small
    refine ⟨.ofNat (placeValue base digits), UInt64.toNat_ofNat_of_lt small, ?_⟩
    rw [if_pos small]
    simp [lexemesFrom, allTokens, pure, Except.pure, bind, Except.bind]
  intro large
  rw [if_neg (Nat.not_lt.mpr large)]
  exact ⟨_, rfl, faultOf_kind _, by simp [Problem.at]⟩

theorem numerals_denote_limit :
    (∃ value : UInt64, value.toNat = 2 ^ 64 - 1 ∧
      allTokens (lexemes ('0' :: 'x' :: '0' :: '_' :: List.replicate 16 'F')) =
        .ok [⟨.int value, ⟨0, 20⟩, false⟩, ⟨.eof, ⟨20, 20⟩, false⟩]) ∧
    ∃ d, allTokens (lexemes ('0' :: 'b' :: '1' :: List.replicate 64 '0')) = .error d ∧
      d.kind = .lexical ∧ d.span = ⟨0, 67⟩ := by
  have full : Numeral 16 _ ('0' :: 'x' :: '0' :: '_' :: List.replicate 16 'F') :=
    .hex rfl rfl
  have large : Numeral 2 _ ('0' :: 'b' :: '1' :: List.replicate 64 '0') :=
    .binary rfl rfl
  have value : placeValue 16 ('0' :: '_' :: List.replicate 16 'F') = 2 ^ 64 - 1 := by
    decide +kernel
  exact ⟨value ▸ (numerals_denote full).1 (by decide +kernel),
    (numerals_denote large).2 (by decide +kernel)⟩

end Stencil
