import Stencil.Decimal.Shortest

/-!
How doubles are laid out as text. Source-level text is always positional and drops an empty fraction;
code-level text keeps one fraction digit and changes to an exponent for very large and very
small numbers.
-/

namespace Stencil

structure FloatLayout where
  pointed : Bool
  /-- The leading exponents that are written without an exponent part; `none` for all. -/
  positional : Option (Int × Int)
  deriving DecidableEq, Repr

namespace FloatLayout

def source : FloatLayout := ⟨false, none⟩

def listing : FloatLayout := ⟨true, some (-4, 15)⟩

def zeros (n : Nat) : List Char :=
  List.replicate n '0'

/-- Digits with the decimal point `exponent` places to the right of the last one. -/
def placePoint (pointed : Bool) (digits : List Char) (exponent : Int) : List Char :=
  if exponent ≥ 0 then
    digits ++ zeros exponent.toNat ++ (if pointed then ['.', '0'] else [])
  else
    let places := (-exponent).toNat
    let padded := zeros (places + 1 - digits.length) ++ digits
    padded.take (padded.length - places) ++ '.' :: padded.drop (padded.length - places)

def withExponent (digits : List Char) (leading : Int) : List Char :=
  let fraction := digits.drop 1
  digits.take 1 ++ (if fraction.isEmpty then [] else '.' :: fraction) ++
    'e' :: (toString leading).toList

def isPositional (style : FloatLayout) (leading : Int) : Bool :=
  match style.positional with
  | none => true
  | some (low, high) => low ≤ leading && leading ≤ high

def write (style : FloatLayout) (x : Float) : String :=
  match Binary64.ofFloat x with
  | .nan => "NaN"
  | .infinite negative => if negative then "-inf" else "inf"
  | .finite negative mantissa exponent tight =>
    let d := if mantissa = 0 then ⟨0, 0⟩ else Decimal.shortest mantissa exponent tight
    let digits := decimalDigits d.digits
    let leading := d.exponent + digits.length - 1
    let body :=
      if mantissa = 0 || style.isPositional leading then placePoint style.pointed digits d.exponent
      else withExponent digits leading
    String.ofList (if negative then '-' :: body else body)

end FloatLayout

/-- Reads `digits · 10 ^ exponent` as the nearest double. Far outside the range of doubles the
answer is known without computing the power. -/
def readDecimal (digits : Nat) (exponent : Int) : Float :=
  let leading := exponent + (decimalDigits digits).length
  if digits = 0 ∨ leading < -400 then 0.0
  else if leading > 400 then 1.0 / 0.0
  else if exponent < 0 then Float.ofScientific digits true exponent.natAbs
  else Float.ofScientific digits false exponent.toNat

end Stencil
