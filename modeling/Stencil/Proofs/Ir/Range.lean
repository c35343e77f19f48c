import Stencil.Ty.Range

namespace Stencil

open List
open Nat (pow)

namespace Ir

def InRange (n : Int) (bits : Nat) : Prop :=
  -pow 2 (bits - 1) ≤ n ∧ n < pow 2 bits

instance (n : Int) (bits : Nat) : Decidable (InRange n bits) :=
  inferInstanceAs (Decidable (_ ∧ _))

/-- What a constant of a width can be. There are no widths above 64 bits; constants of 64 bits go
as far below zero as a negated literal does. -/
def Fitting (n : Int) (bits : Nat) : Prop :=
  bits ≤ 64 ∧ (InRange n bits ∨ bits = 64 ∧ -pow 2 64 < n ∧ n < -pow 2 63)

end Ir

open Ir

theorem word_of_small {n : Int} (lower : -pow 2 127 ≤ n) (upper : n < pow 2 127) : word n = n := by
  have whole : pow 2 128 = 2 * pow 2 127 := by decide
  exact Int.bmod_eq_of_le_mul_two (by omega) (by omega)

theorem pow_lt_word {exponent : Nat} (small : exponent < 127) : pow 2 exponent < pow 2 127 :=
  Nat.pow_lt_pow_right (by decide) small

theorem pow_pred (bits : Nat) (some : bits ≠ 0) : pow 2 bits = 2 * pow 2 (bits - 1) := by
  obtain ⟨k, rfl⟩ := Nat.exists_eq_succ_of_ne_zero some
  exact Nat.pow_succ'

theorem emod_pow (n : Int) (bits : Nat) :
    0 ≤ n % (pow 2 bits : Int) ∧ n % (pow 2 bits : Int) < pow 2 bits := by
  have positive : 0 < pow 2 bits := Nat.two_pow_pos bits
  exact ⟨Int.emod_nonneg n (by omega), Int.emod_lt_of_pos n (by omega)⟩

def leastInt (bits : Nat) (signed : Bool) : Int :=
  if signed then -pow 2 (bits - 1) else 0

section

variable {bits : Nat} {n m : Int} {signed : Bool}

theorem fits_iff_least (some : bits ≠ 0) (small : bits < 127) : fits n bits signed ↔
    leastInt bits signed ≤ n ∧ n < leastInt bits signed + pow 2 bits := by
  have half := pow_lt_word (by omega : bits - 1 < 127)
  have double := pow_pred bits some
  rw [fits, if_neg some, wordPower_of_lt _ (by omega), wordPower_of_lt _ small,
    word_of_small (by omega) (by omega)]
  cases signed <;>
    simp only [leastInt, Bool.false_eq_true, if_false, if_true, Bool.and_eq_true, decide_eq_true_eq] <;>
    omega

theorem normalize_eq (small : bits < 127) :
    normalize n bits signed = if signed && decide ((pow 2 bits : Int) / 2 ≤ n % pow 2 bits)
      then n % pow 2 bits - pow 2 bits else n % pow 2 bits := by
  have whole := pow_lt_word small
  obtain ⟨lower, upper⟩ := emod_pow n bits
  rw [normalize, if_neg (by omega), wordPower_of_lt _ small]
  change (if _ then word (n % (pow 2 bits : Int) - pow 2 bits) else _) = _
  rw [word_of_small (by omega) (by omega)]
  rfl

theorem normalize_emod (small : bits < 127) :
    normalize n bits signed % pow 2 bits = n % pow 2 bits := by
  rw [normalize_eq small]
  split
  · exact (Int.sub_emod_right _ _).trans (Int.emod_emod_of_dvd n (Int.dvd_refl _))
  · exact Int.emod_emod_of_dvd n (Int.dvd_refl _)

theorem fits_normalize (some : bits ≠ 0) (small : bits < 127) :
    fits (normalize n bits signed) bits signed := by
  have double := pow_pred bits some
  obtain ⟨lower, upper⟩ := emod_pow n bits
  rw [fits_iff_least some small, normalize_eq small]
  cases signed with
  | false => exact ⟨lower, by rw [leastInt]; simpa using upper⟩
  | true =>
  simp only [leastInt, Bool.true_and, decide_eq_true_eq, if_true]
  split <;> omega

theorem eq_of_fits (some : bits ≠ 0) (small : bits < 127) (holds : fits n bits signed)
    (holds' : fits m bits signed) (same : n % pow 2 bits = m % pow 2 bits) : n = m := by
  rw [fits_iff_least some small] at holds holds'
  have counted := (Int.emod_sub_cancel_right (leastInt bits signed)).mpr same
  rw [Int.emod_eq_of_lt (by omega) (by omega), Int.emod_eq_of_lt (by omega) (by omega)] at counted
  omega

theorem normalize_of_fits (some : bits ≠ 0) (small : bits < 127) (holds : fits n bits signed) :
    normalize n bits signed = n :=
  eq_of_fits some small (fits_normalize some small) holds (normalize_emod small)

end

variable {bits : Nat}

theorem inRange_of_fits {n : Int} {signed : Bool} (small : bits ≤ 64)
    (holds : fits n bits signed) : InRange n bits := by
  have some : bits ≠ 0 := by
    rintro rfl
    cases holds
  have double := pow_pred bits some
  obtain ⟨lower, upper⟩ := (fits_iff_least some (by omega)).mp holds
  have : -pow 2 (bits - 1) ≤ leastInt bits signed ∧ leastInt bits signed ≤ 0 := by
    unfold leastInt
    split <;> omega
  exact ⟨by omega, by omega⟩

theorem inRange_normalize (n : Int) (signed : Bool) (small : bits ≤ 64) :
    InRange (normalize n bits signed) bits := by
  by_cases none : bits = 0
  · subst none
    have whole : n % pow 2 0 = 0 := Int.emod_one n
    rw [normalize_eq (by decide), whole]
    cases signed <;> decide
  exact inRange_of_fits small (fits_normalize none (by omega))

theorem inRange_minUnsignedWidth {n : Nat} (bounded : n < pow 2 64) :
    InRange n (minUnsignedWidth n) := by
  have natural : ∀ bits, n < pow 2 bits → InRange n bits := fun _ _ =>
    ⟨by omega, by omega⟩
  unfold minUnsignedWidth
  repeat' split
  all_goals exact natural _ (by assumption)

/-- The narrowest width with a sign holds an integer, or none does. -/
theorem minSignedWidth_cases (n : Int) : minSignedWidth n ∈ [8, 16, 32, 64] ∧
    (fits n (minSignedWidth n) true ∨ minSignedWidth n = 64 ∧ fits n 64 true = false) := by
  unfold minSignedWidth
  cases got : [8, 16, 32, 64].find? fun bits => fits n bits true with
  | none =>
    rw [find?_eq_none] at got
    exact ⟨by simp, .inr ⟨rfl, by simpa using got 64 (by simp)⟩⟩
  | some =>
    have holds := find?_some (p := fun bits => fits n bits true) got
    exact ⟨mem_of_find?_eq_some got, .inl holds⟩

theorem minSignedWidth_le (n : Int) : minSignedWidth n ≤ 64 := by
  have mem := (minSignedWidth_cases n).1
  simp only [mem_cons, not_mem_nil, or_false] at mem
  omega

theorem inRange_minSignedWidth (n : Int) :
    InRange n (minSignedWidth n) ∨ minSignedWidth n = 64 ∧ fits n 64 true = false :=
  (minSignedWidth_cases n).2.imp_left (inRange_of_fits (minSignedWidth_le n))

theorem fits_widest {n : Int} (lower : -pow 2 63 ≤ n) (upper : n < pow 2 63) :
    fits n 64 true := by
  have double : pow 2 64 = 2 * pow 2 63 := by decide
  have least : leastInt 64 true = -pow 2 63 := rfl
  rw [fits_iff_least (by decide) (by decide)]
  omega

variable {n : Int}

theorem fitting_of_fits {signed : Bool} (small : bits ≤ 64) (holds : fits n bits signed) :
    Fitting n bits :=
  ⟨small, .inl (inRange_of_fits small holds)⟩

theorem fitting_normalize (n : Int) (signed : Bool) (small : bits ≤ 64) :
    Fitting (normalize n bits signed) bits :=
  ⟨small, .inl (inRange_normalize n signed small)⟩

theorem fitting_zero (small : bits ≤ 64) : Fitting 0 bits := by
  have positive : 0 < pow 2 bits := Nat.two_pow_pos bits
  exact ⟨small, .inl ⟨by omega, by omega⟩⟩

theorem fitting_truth (holds : Prop) [Decidable holds] : Fitting (if holds then 1 else 0) 1 := by
  refine ⟨by decide, .inl ?_⟩
  split <;> decide

theorem minUnsignedWidth_le (n : Nat) : minUnsignedWidth n ≤ 64 := by
  unfold minUnsignedWidth
  repeat' split
  all_goals decide

theorem fitting_literal (n : UInt64) : Fitting n.toNat (minUnsignedWidth n.toNat) :=
  ⟨minUnsignedWidth_le _, .inl (inRange_minUnsignedWidth n.toNat_lt)⟩

theorem fitting_negated (n : UInt64) : Fitting (-n.toNat) (minSignedWidth (-n.toNat)) := by
  refine ⟨minSignedWidth_le _, ?_⟩
  rcases inRange_minSignedWidth (-n.toNat) with lies | ⟨widest, outside⟩
  · exact .inl lies
  have bound : n.toNat < pow 2 64 := n.toNat_lt
  have positive : 0 < pow 2 63 := by decide
  refine .inr ⟨widest, by omega, Int.not_le.mp fun _ => ?_⟩
  rw [fits_widest (by omega) (by omega)] at outside
  cases outside

theorem fitting_minSignedWidth (lower : -pow 2 63 ≤ n) (negative : n < 0) :
    Fitting n (minSignedWidth n) := by
  refine ⟨minSignedWidth_le _, ?_⟩
  rcases inRange_minSignedWidth n with lies | ⟨-, outside⟩
  · exact .inl lies
  rw [fits_widest lower (by omega)] at outside
  cases outside

end Stencil
