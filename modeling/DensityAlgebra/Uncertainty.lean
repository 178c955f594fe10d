/-
# Values with uncertainties

A value and its error as one short text, such as `12.346(1)` or `-1.23(1)e-5`:
the digits in parentheses are the error in units of the last digit shown. The
error is rounded to a number of significant digits, and the value to the same
place. Of the fixed-point form and the form with an exponent, the shorter one is
taken.

The numbers are scaled by powers of ten in an arithmetic of choice, a
`DecimalScale`: an exact one, or doubles, where a power may be too large and the
logarithm and the small powers are those of a `Machine`.

Key definitions: `Precision`, `DecimalScale`, `Uncertainty.rounded`,
`Uncertainty.fixedForm`, `Uncertainty.exponentForm`, `Uncertainty.text`, `Machine`.
-/
import DensityAlgebra.Fault
import DensityAlgebra.Scalar.Double
import DensityAlgebra.Text.Numeral

namespace DensityAlgebra

/-- How many significant digits of an error are asked for. -/
inductive Precision where
  | auto
  | whole (n : Int)
  | real (x : Float)
  | text (s : String)

/-- Whether a text says `auto`, in any case. -/
def Precision.saysAuto (s : String) : Bool := s.toLower == "auto"

/-- The integer part of a double that has one. -/
def Double.integerPart {α : Type} (x : Float) : Except (Fault α) Int :=
  if x.isNaN then .error .unreadableNumber
  else
    match (Binary64.ofFloat x).truncate? with
    | some n => .ok n
    | none => .error .overflow

namespace Precision

def isAuto : Precision → Bool
  | auto => true
  | text s => saysAuto s
  | _ => false

/-- The number of digits that is asked for, which is at least one. -/
def digits {α : Type} : Precision → Except (Fault α) Nat
  | auto => .ok 1
  | whole n => .ok (max 1 n).toNat
  | real x => do return (max 1 (← Double.integerPart x)).toNat
  | text s =>
    match Text.integer? s with
    | some n => .ok (max 1 n).toNat
    | none => .error .unreadableNumber

end Precision

/-- Numbers that can be scaled by powers of ten. -/
class DecimalScale (β : Type) where
  /-- The exponent of the first digit of a number that is not zero. -/
  decade : β → Int
  /-- A number times a power of ten. -/
  scale : β → Int → Option β
  /-- A number divided by a power of ten. -/
  mantissa : β → Int → Option β
  /-- An integer times a power of ten. -/
  scaleInt : Int → Int → Option β
  /-- The nearest integer, ties to even. -/
  nearest : β → Option Int
  /-- Whether the first digit of a mantissa is a one. -/
  leadsWithOne : β → Bool
  isZero : β → Bool
  lt : β → β → Bool
  abs : β → β
  isNaN : β → Bool
  isInf : β → Bool
  /-- The text with so many digits after the point. -/
  fixedText : Nat → β → String
  /-- The text to so many significant digits. -/
  generalText : Nat → β → String

namespace Uncertainty

variable {β : Type} [DecimalScale β]

/-- Whether the digits of an error begin with a one, of which two are then
kept. -/
def autoDigits (err : β) : Option Nat :=
  (DecimalScale.mantissa err (DecimalScale.decade err)).map fun m =>
    if DecimalScale.leadsWithOne m then 2 else 1

/-- A value and an error as multiples of `10 ^ last`, and the exponent of the
first digit of the larger of the two. -/
structure Rounded where
  value : Int
  error : Int
  last : Int
  lead : Int
  deriving Repr, DecidableEq

/-- The value and the error to the last place that `digits` digits of the error
reach. -/
def rounded (x err : β) (digits : Nat) : Option Rounded := do
  let decade := DecimalScale.decade err
  let last := decade - digits + 1
  let value ← DecimalScale.nearest (← DecimalScale.scale x (-last))
  let error ← DecimalScale.nearest (← DecimalScale.scale err (-last))
  let lead :=
    if DecimalScale.isZero x || DecimalScale.lt (DecimalScale.abs x) err then decade
    else DecimalScale.decade (DecimalScale.abs x)
  return ⟨value, error, last, lead⟩

/-- What a form shows: a number with some digits after the point, the digits in
parentheses, and an exponent if there is one. -/
structure Form (β : Type) where
  places : Nat
  value : β
  error : Int
  exponent : Option Int

/-- The text of a form. -/
def Form.text (f : Form β) : String :=
  DecimalScale.fixedText f.places f.value ++ "(" ++ toString f.error ++ ")"
    ++ (match f.exponent with
      | some e => "e" ++ toString e
      | none => "")

/-- The form with an exponent: one digit before the point. -/
def exponentForm (r : Rounded) : Option (Form β) := do
  let places := r.lead - r.last
  return ⟨places.toNat, ← DecimalScale.scaleInt r.value (-places), r.error, some r.lead⟩

/-- The form without an exponent. -/
def fixedForm (r : Rounded) : Option (Form β) := do
  let value ← DecimalScale.scaleInt r.value r.last
  return ⟨(-r.last).toNat, value, r.error * Int.pow 10 r.last.toNat, none⟩

/-- The shorter of the two forms, the one without an exponent if they are equally
long. -/
def shorter (fixed exponential : String) : String :=
  if fixed.length ≤ exponential.length then fixed else exponential

/-- The text of a value with an error that is not zero. -/
def formsText (x err : β) (digits : Nat) : Option String := do
  let r ← rounded x err digits
  let exponential : Form β ← exponentForm r
  let fixed : Form β ← fixedForm r
  return shorter fixed.text exponential.text

/-- How many significant digits of an error are kept. -/
def keptDigits {α : Type} (err : β) (p : Precision) : Except (Fault α) Nat :=
  if p.isAuto then
    if DecimalScale.isZero err then .ok 1
    else
      match autoDigits err with
      | some n => .ok n
      | none => .error .divisionByZero
  else p.digits

/-- More digits than this are not written. -/
def mostDigits : Nat := Nat.pow 2 31 - 1

/-- The text of a value with an error of either sign. -/
def text {α : Type} (x err : β) (p : Precision) : Except (Fault α) String :=
  let err := DecimalScale.abs err
  if DecimalScale.isNaN x || DecimalScale.isNaN err then .ok "NaN"
  else if DecimalScale.isInf x || DecimalScale.isInf err then .ok "inf"
  else do
    let digits ← keptDigits err p
    if DecimalScale.isZero err then
      if mostDigits < digits then throw .unreadableNumber
      return DecimalScale.generalText digits x ++ "(0)"
    else
      match formsText x err digits with
      | some text => return text
      | none => throw .overflow

end Uncertainty

namespace Double

/-- The double nearest to an integer, if there is a finite one. -/
def ofInt? (n : Int) : Option Float :=
  let y := Float.ofInt n
  if y.isFinite then some y else none

/-- The integer nearest to a double, ties to even. -/
def nearest (x : Float) : Option Int :=
  match Binary64.ofFloat x with
  | .finite negative m e =>
    let n : Nat := if 0 ≤ e then m * Nat.pow 2 e.toNat else roundRatio m (Nat.pow 2 (-e).toNat)
    some (if negative then -(n : Int) else n)
  | _ => none

end Double

/-- The functions of a machine that doubles are scaled with. -/
structure Machine where
  /-- The exponent of the first digit of a double. -/
  decade : Float → Int
  /-- A power of ten whose exponent is negative. -/
  fraction : Int → Float

namespace Machine

/-- Doubles on a machine. -/
def Number (_ : Machine) : Type := Float

variable (M : Machine)

/-- The power of ten that a double is multiplied with: exact and then rounded for
a natural exponent, the machine's power for a negative one. -/
def powerOfTen (k : Int) : Option Float :=
  if 0 ≤ k then if k ≤ 308 then some (Float.ofNat (Nat.pow 10 k.toNat)) else none
  else some (M.fraction k)

/-- An integer times a power of ten, exact as long as it is an integer. -/
def scaleInt (n k : Int) : Option Float :=
  if 0 ≤ k then Double.ofInt? (n * Int.pow 10 k.toNat)
  else do return (← Double.ofInt? n) * (← M.powerOfTen k)

instance : DecimalScale M.Number where
  decade := M.decade
  scale x k := (M.powerOfTen k).map (Float.mul x)
  mantissa x k := do
    let y ← M.powerOfTen k
    if y == 0.0 then none else some (Float.div x y)
  scaleInt := M.scaleInt
  nearest := Double.nearest
  leadsWithOne (x : Float) := 1.0 ≤ x + 1e-12 && x + 1e-12 < 2.0
  isZero (x : Float) := x == 0.0
  lt (x y : Float) := x < y
  abs := Float.abs
  isNaN := Float.isNaN
  isInf := Float.isInf
  fixedText := Text.fixed
  generalText := Text.general

/-- The machine that runs, with its logarithm and its powers. -/
def native : Machine where
  decade x := ((Binary64.ofFloat x.log10.floor).truncate?).getD 0
  fraction k := Float.pow 10.0 (Float.ofInt k)

end Machine

instance : DecimalScale Float := inferInstanceAs (DecimalScale Machine.native.Number)

end DensityAlgebra
