/-!
Finite doubles as `mantissa · 2 ^ exponent`, and the exact operations on them that rounding
cannot touch: truncation to an integer and the remainder of a truncated quotient.
-/

namespace Stencil

inductive Binary64 where
  | nan
  | infinite (negative : Bool)
  /-- The value `± mantissa · 2 ^ exponent`; `tight` when the next smaller double is only half
  as far away as the next larger one. -/
  | finite (negative : Bool) (mantissa : Nat) (exponent : Int) (tight : Bool)
  deriving DecidableEq, Repr

namespace Binary64

def ofFloat (x : Float) : Binary64 :=
  let bits : Nat := x.toBits.toNat
  let negative := bits / Nat.pow 2 63 == 1
  let field : Nat := bits / Nat.pow 2 52 % Nat.pow 2 11
  let fraction := bits % Nat.pow 2 52
  if field = 2047 then
    if fraction = 0 then .infinite negative else .nan
  else if field = 0 then .finite negative fraction (-1074) false
  else .finite negative (Nat.pow 2 52 + fraction) (field - 1075) (fraction == 0 && field > 1)

/-- The double `± mantissa · 2 ^ exponent`, for a mantissa below `2 ^ 53` and an exponent
from `-1074` for which it is below infinity. -/
def toFloat (negative : Bool) (mantissa : Nat) (exponent : Int) : Float :=
  let sign := if negative then Nat.pow 2 63 else 0
  if mantissa = 0 then Float.ofBits (UInt64.ofNat sign)
  else
    let top : Int := exponent + Nat.log2 mantissa
    let magnitude :=
      if top < -1022 then mantissa <<< (exponent + 1074).toNat
      else
        let full := mantissa <<< (52 - Nat.log2 mantissa)
        (top + 1023).toNat * Nat.pow 2 52 + (full - Nat.pow 2 52)
    Float.ofBits (UInt64.ofNat (sign + magnitude))

end Binary64

/-- The integer part of a double, rounded toward zero; infinities have none and count as the
given bound. NaN counts as zero. -/
def truncateWithin (low high : Int) (x : Float) : Int :=
  match Binary64.ofFloat x with
  | .nan => 0
  | .infinite negative => if negative then low else high
  | .finite negative mantissa exponent _ =>
    let magnitude : Int :=
      if exponent < 0 then mantissa / Nat.pow 2 (-exponent).toNat
      else mantissa * Nat.pow 2 exponent.toNat
    max low (min high (if negative then -magnitude else magnitude))

/-- The remainder of `x / y` rounded toward zero, with the sign of `x`. It is exact: in units of
the smaller exponent it stays below the mantissa of `x` or that of `y`. -/
def truncatedRemainder (x y : Float) : Float :=
  match Binary64.ofFloat x, Binary64.ofFloat y with
  | .finite negative m p _, .finite _ n q _ =>
    if n = 0 then 0.0 / 0.0
    else
      let least := min p q
      let rest := (m <<< (p - least).toNat) % (n <<< (q - least).toNat)
      Binary64.toFloat negative rest least
  | .finite .., .infinite _ => x
  | _, _ => 0.0 / 0.0

end Stencil
