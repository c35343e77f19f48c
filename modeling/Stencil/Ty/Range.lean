/-!
The ranges of integers of a given width and signedness. Constants and the bounds of ranges are
signed words of 128 bits, so a range is exact for the widths up to 126.
-/

namespace Stencil

def word (value : Int) : Int :=
  value.bmod (Nat.pow 2 128)

/-- A power of two as a word. Exponents count modulo 128, and the power 127 is the least word. -/
def wordPower (exponent : Nat) : Int :=
  word (Nat.pow 2 (exponent % 128))

theorem wordPower_of_lt (exponent : Nat) (small : exponent < 127) :
    wordPower exponent = Nat.pow 2 exponent := by
  have bound : Nat.pow 2 exponent < Nat.pow 2 127 := Nat.pow_lt_pow_right (by decide) small
  have whole : Nat.pow 2 128 = 2 * Nat.pow 2 127 := by decide
  rw [wordPower, word, Nat.mod_eq_of_lt (by omega : exponent < 128)]
  exact Int.bmod_eq_of_le_mul_two (by omega) (by omega)

def fits (value : Int) (bits : Nat) (signed : Bool) : Bool :=
  if bits = 0 then false
  else if signed then word (-wordPower (bits - 1)) ≤ value && value < wordPower (bits - 1)
  else 0 ≤ value && value < wordPower bits

/-- The value of the range that is equal modulo `2 ^ bits`. A width that holds every word keeps the
value. -/
def normalize (value : Int) (bits : Nat) (signed : Bool) : Int :=
  if 128 ≤ bits then value
  else
    let modulus := wordPower bits
    let wrapped := value.emod modulus
    if signed && modulus / 2 ≤ wrapped then word (wrapped - modulus) else wrapped

def minUnsignedWidth (value : Nat) : Nat :=
  if value < Nat.pow 2 8 then 8
  else if value < Nat.pow 2 16 then 16
  else if value < Nat.pow 2 32 then 32
  else 64

/-- The least of the widths 8, 16, 32 and 64 that holds a value with a sign; 64 if none does. -/
def minSignedWidth (value : Int) : Nat :=
  ([8, 16, 32, 64].find? fun bits => fits value bits true).getD 64

end Stencil
