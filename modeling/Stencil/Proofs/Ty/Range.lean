import Mathlib.Data.Int.ModEq
import Stencil.Proofs.Ir.Range

namespace Stencil

def word? (n : Int) : Option Int :=
  if word n = n then some n else none

def fits? (value : Int) (bits : Nat) (signed : Bool) : Option Bool :=
  if bits = 0 then some false
  else if signed then do
    let half ← word? (Nat.pow 2 (bits - 1))
    let least ← word? (-half)
    return least ≤ value && value < half
  else do
    let bound ← word? (Nat.pow 2 bits)
    return 0 ≤ value && value < bound

def normalize? (value : Int) (bits : Nat) (signed : Bool) : Option Int :=
  if 128 ≤ bits then some value
  else do
    let modulus ← word? (Nat.pow 2 bits)
    let wrapped ← word? (value % modulus)
    if signed && modulus / 2 ≤ wrapped then word? (wrapped - modulus) else some wrapped

variable {bits : Nat} {signed : Bool}

theorem word?_of_small {n : Int} (lower : -Nat.pow 2 127 ≤ n) (upper : n < Nat.pow 2 127) :
    word? n = some n :=
  if_pos (word_of_small lower upper)

theorem fits?_eq_some (n : Int) (small : bits < 127) :
    fits? n bits signed = some (fits n bits signed) := by
  have whole := pow_lt_word small
  have half := pow_lt_word (by omega : bits - 1 < 127)
  rw [fits, wordPower_of_lt _ (by omega), wordPower_of_lt _ small, word_of_small (by omega) (by omega)]
  unfold fits?
  rw [word?_of_small (n := Nat.pow 2 bits) (by omega) (by omega),
    word?_of_small (n := Nat.pow 2 (bits - 1)) (by omega) (by omega), Option.bind_eq_bind,
    Option.bind_some, word?_of_small (by omega) (by omega)]
  repeat' split
  all_goals rfl

theorem normalize?_eq_some (n : Int) (small : bits < 127) :
    normalize? n bits signed = some (normalize n bits signed) := by
  have whole := pow_lt_word small
  obtain ⟨lower, upper⟩ := emod_pow n bits
  have wrapped : word? (n % Nat.pow 2 bits) = some (n % Nat.pow 2 bits) :=
    word?_of_small (by omega) (by omega)
  rw [normalize_eq small, normalize?, if_neg (by omega), word?_of_small (by omega) (by omega)]
  simp only [Option.bind_eq_bind, Option.bind_some, wrapped]
  rw [word?_of_small (by omega) (by omega)]
  split <;> rfl

/-- A value wraps around to the one integer that fits and has the same bits, without an overflow on
the way. -/
theorem normalize_exact (v : Int) (bits : Nat) (some : 1 ≤ bits) (small : bits ≤ 126) (signed : Bool) :
    (∀ n, n ≡ v [ZMOD 2 ^ bits] ∧ fits n bits signed = true ↔ n = normalize v bits signed) ∧
      (normalize v bits signed = v ↔ fits v bits signed = true) ∧
      normalize (normalize v bits signed) bits signed = normalize v bits signed ∧
      normalize? v bits signed = .some (normalize v bits signed) ∧
      fits? v bits signed = .some (fits v bits signed) := by
  have less : bits < 127 := by omega
  have some : bits ≠ 0 := by omega
  have lies : fits (normalize v bits signed) bits signed := fits_normalize some less
  have wraps : normalize v bits signed ≡ v [ZMOD 2 ^ bits] := mod_cast normalize_emod less
  refine ⟨fun n => ⟨?_, ?_⟩, ⟨fun same => same ▸ lies, ?_⟩, ?_, ?_, ?_⟩
  · rintro ⟨same, holds⟩
    refine eq_of_fits some less holds lies ?_
    exact_mod_cast same.trans wraps.symm
  · rintro rfl
    exact ⟨wraps, lies⟩
  · exact normalize_of_fits some less
  · exact normalize_of_fits some less lies
  · exact normalize?_eq_some v less
  · exact fits?_eq_some v less

/-- Half of the widest range that words hold: the least value from which the sign turns. -/
theorem normalize_exact_half : 1 ≤ 126 ∧ 126 ≤ 126 ∧ fits (2 ^ 125) 126 true = false ∧
    normalize (2 ^ 125) 126 true = -2 ^ 125 ∧ normalize? (2 ^ 125) 126 true = some (-2 ^ 125) := by
  obtain ⟨unique, same, -, checked, -⟩ :=
    normalize_exact (2 ^ 125) 126 (by decide) (by decide) true
  have turned : -2 ^ 125 = normalize (2 ^ 125) 126 true :=
    (unique _).mp ⟨by decide +kernel, by decide +kernel⟩
  refine ⟨by decide, by decide, ?_, turned.symm, turned ▸ checked⟩
  rw [← Bool.not_eq_true, ← same, ← turned]
  decide +kernel

end Stencil
