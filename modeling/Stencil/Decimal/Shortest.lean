import Stencil.Decimal.Binary64

/-!
The shortest decimal of a double: the fewest digits that read back as the same double, and of
those the nearest to it, the upper one when two are equally near.
-/

namespace Stencil

structure Decimal where
  digits : Nat
  exponent : Int
  deriving DecidableEq, Repr, Inhabited

def decimalDigits (n : Nat) : List Char :=
  Nat.toDigits 10 n

namespace Decimal

structure Ratio where
  numerator : Nat
  denominator : Nat

def Ratio.leadingExponent (r : Ratio) : Int :=
  if r.denominator ≤ r.numerator then
    (decimalDigits (r.numerator / r.denominator)).length - 1
  else
    let inverse := (r.denominator + r.numerator - 1) / r.numerator
    Int.negOfNat (decimalDigits (inverse - 1)).length

def Ratio.inUnits (r : Ratio) (k : Int) : Ratio :=
  if k < 0 then ⟨r.numerator * Nat.pow 10 (-k).toNat, r.denominator⟩
  else ⟨r.numerator, r.denominator * Nat.pow 10 k.toNat⟩

/-- The numbers that round to a double: from `low` to `high`, all over one denominator, with
the ends when `closed`. -/
structure RoundingInterval where
  low : Nat
  value : Nat
  high : Nat
  denominator : Nat
  closed : Bool

namespace RoundingInterval

def ofBinary (mantissa : Nat) (exponent : Int) (tight : Bool) : RoundingInterval :=
  let quarter := exponent - 2
  let scale := Nat.pow 2 quarter.toNat
  { low := (4 * mantissa - if tight then 1 else 2) * scale
    value := 4 * mantissa * scale
    high := (4 * mantissa + 2) * scale
    denominator := Nat.pow 2 (-quarter).toNat
    closed := mantissa % 2 == 0 }

def contains (i : RoundingInterval) (n : Nat) (k : Int) : Bool :=
  let point := n * Nat.pow 10 k.toNat * i.denominator
  let low := i.low * Nat.pow 10 (-k).toNat
  let high := i.high * Nat.pow 10 (-k).toNat
  if i.closed then low ≤ point && point ≤ high else low < point && point < high

/-- The better of the two multiples of `10 ^ k` around the value, when one is in the interval. -/
def onGrid? (i : RoundingInterval) (k : Int) : Option Decimal :=
  let scaled := Ratio.inUnits ⟨i.value, i.denominator⟩ k
  let below := scaled.numerator / scaled.denominator
  let rest := scaled.numerator % scaled.denominator
  match i.contains below k, i.contains (below + 1) k with
  | true, true => some ⟨if 2 * rest < scaled.denominator then below else below + 1, k⟩
  | true, false => some ⟨below, k⟩
  | false, true => some ⟨below + 1, k⟩
  | false, false => none

def search (i : RoundingInterval) (k : Int) : Nat → Decimal
  | 0 => (i.onGrid? k).getD ⟨0, 0⟩
  | count + 1 => (i.onGrid? k).getD (search i (k - 1) count)

end RoundingInterval

def trimmed (d : Decimal) : Decimal :=
  let zeros := ((decimalDigits d.digits).reverse.takeWhile (· == '0')).length
  ⟨d.digits / Nat.pow 10 zeros, d.exponent + zeros⟩

/-- The shortest decimal of `mantissa · 2 ^ exponent`, for a positive mantissa. Seventeen digits
always suffice. -/
def shortest (mantissa : Nat) (exponent : Int) (tight : Bool) : Decimal :=
  let interval := RoundingInterval.ofBinary mantissa exponent tight
  let leading := Ratio.leadingExponent ⟨interval.value, interval.denominator⟩
  (interval.search leading 16).trimmed

end Decimal

end Stencil
