/-
# Doubles as exact decimals

A finite double is an integer times a power of two, hence also an integer times
a power of ten, without any rounding: `m / 2^k = m * 5^k / 10^k`. The texts of
numbers with a fixed count of digits are read off that exact decimal, rounded
to nearest with ties to the even neighbour.

Key definitions: `Decimal`, `Decimal.ofBinary`, `roundRatio`, `Decimal.scaleTo`,
`Text.fixed`, `Text.exponential`, `Text.general`.
-/
import DensityAlgebra.Scalar.Binary64

namespace DensityAlgebra

/-- The quotient of two naturals to the nearest natural, ties to even. -/
def roundRatio (num den : Nat) : Nat :=
  let q := num / den
  let r := num % den
  if 2 * r < den then q
  else if den < 2 * r then q + 1
  else if q % 2 = 0 then q else q + 1

/-- The number `coefficient * 10 ^ exponent`. -/
structure Decimal where
  coefficient : Nat
  exponent : Int
  deriving DecidableEq

namespace Decimal

/-- The magnitude of a finite double. -/
def ofBinary (significand : Nat) (exponent : Int) : Decimal :=
  if 0 ≤ exponent then ⟨significand * Nat.pow 2 exponent.toNat, 0⟩
  else ⟨significand * Nat.pow 5 (-exponent).toNat, exponent⟩

/-- The digits of the coefficient. -/
def digits (d : Decimal) : List Char := Nat.toDigits 10 d.coefficient

/-- The exponent of the first digit; zero for zero. -/
def leadingExponent (d : Decimal) : Int :=
  if d.coefficient = 0 then 0 else (d.digits.length : Int) - 1 + d.exponent

/-- The number as a multiple of `10 ^ place`, to the nearest, ties to even. -/
def scaleTo (d : Decimal) (place : Int) : Nat :=
  if place ≤ d.exponent then d.coefficient * Nat.pow 10 (d.exponent - place).toNat
  else roundRatio d.coefficient (Nat.pow 10 (place - d.exponent).toNat)

/-- The number to `count + 1` significant digits: the digits as one natural, and
the exponent of the first of them. -/
def significant (d : Decimal) (count : Nat) : Nat × Int :=
  let lead := d.leadingExponent
  let n := d.scaleTo (lead - count)
  if Nat.pow 10 (count + 1) ≤ n then (n / 10, lead + 1) else (n, lead)

end Decimal

namespace Text

/-- The digits of `n`, with zeros in front up to `width` of them. -/
def padded (width n : Nat) : List Char :=
  let ds := Nat.toDigits 10 n
  List.replicate (width - ds.length) '0' ++ ds

/-- The digits of `n` with a point before the last `places` of them. -/
def pointed (places n : Nat) : List Char :=
  let ds := padded (places + 1) n
  if places = 0 then ds
  else ds.take (ds.length - places) ++ '.' :: ds.drop (ds.length - places)

/-- An exponent with its sign and at least two digits. -/
def exponentMark (e : Int) : List Char :=
  'e' :: (if e < 0 then '-' else '+') :: padded 2 e.natAbs

def sign (negative : Bool) : List Char := if negative then ['-'] else []

/-- The text of a double, given the text of a finite magnitude. -/
def ofDouble (finite : Decimal → List Char) (x : Float) : String :=
  match Binary64.ofFloat x with
  | .undefined => "nan"
  | .infinite negative => String.ofList (sign negative ++ ['i', 'n', 'f'])
  | .finite negative m e => String.ofList (sign negative ++ finite (.ofBinary m e))

/-- The magnitude with `places` digits after the point. -/
def fixedDigits (places : Nat) (d : Decimal) : List Char :=
  pointed places (d.scaleTo (-places))

/-- The magnitude as one digit, `places` more after the point, and an exponent. -/
def exponentialDigits (places : Nat) (d : Decimal) : List Char :=
  let (n, e) := d.significant places
  pointed places n ++ exponentMark e

/-- Without the zeros that end a fraction, and without a point that ends. -/
def trimFraction (cs : List Char) : List Char :=
  if cs.contains '.' then
    ((cs.reverse.dropWhile (· == '0')).dropWhile (· == '.')).reverse
  else cs

/-- No double has as many significant digits. -/
def allDigits : Nat := 1100

/-- The magnitude to `precision` significant digits, positional while the first
digit stands between the fourth place after the point and the last digit kept,
with no zeros at the end of a fraction. -/
def generalDigits (precision : Nat) (d : Decimal) : List Char :=
  let p := Nat.min (Nat.max precision 1) allDigits
  let (n, e) := d.significant (p - 1)
  if -4 ≤ e ∧ e < p then
    trimFraction (fixedDigits (p - 1 - e).toNat d)
  else trimFraction (pointed (p - 1) n) ++ exponentMark e

/-- A double with `places` digits after the point. -/
def fixed (places : Nat) (x : Float) : String := ofDouble (fixedDigits places) x

/-- A double with one digit before and `places` digits after the point, and an
exponent. -/
def exponential (places : Nat) (x : Float) : String := ofDouble (exponentialDigits places) x

/-- A double to `precision` significant digits. -/
def general (precision : Nat) (x : Float) : String := ofDouble (generalDigits precision) x

end Text

end DensityAlgebra
