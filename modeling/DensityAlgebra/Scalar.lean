/-
# Scalars

The numbers that densities compute with. Everything numerical in this library
is written over a `Scalar`, so that one text serves two readings: doubles,
which run (`Scalar/Double`), and the real numbers, over which the laws of
integration, phase space and finite differences are stated.

A scalar may be undefined (not a number) or infinite; a type without such
members answers `false` to `isNaN` and `true` to `isFinite`. Comparisons are
Boolean and false as soon as an undefined number takes part.

Key definitions: `Scalar`, `Scalar.max`, `Scalar.min`, `Scalar.square`,
`Scalar.selfProduct`, `Scalar.sharedPower`, `Scalar.square?`, `Scalar.ofInt?`.
-/

namespace DensityAlgebra

/-- Arithmetic with elementary functions and Boolean comparisons. Literals are
decimals. -/
class Scalar (α : Type) extends Add α, Sub α, Mul α, Div α, Neg α, OfScientific α where
  /-- The scalar of a natural number. -/
  ofNat : Nat → α
  /-- The first argument to the power of the second. -/
  pow : α → α → α
  exp : α → α
  log : α → α
  sin : α → α
  cos : α → α
  tan : α → α
  sqrt : α → α
  abs : α → α
  /-- The length of the vector with these two coordinates. -/
  hypot : α → α → α
  /-- The angle of the vector with these two coordinates. -/
  angle : α → α → α
  lt : α → α → Bool
  le : α → α → Bool
  eq : α → α → Bool
  isNaN : α → Bool
  isFinite : α → Bool

namespace Scalar

variable {α : Type} [Scalar α]

/-- What stands for a number that does not exist. -/
def undefined : α := (0.0 : α) / 0.0

/-- The larger of two numbers, the second one of equal ones; an undefined one wins. -/
def max (x y : α) : α := if isNaN x || lt y x then x else y

/-- The smaller of two numbers, the second one of equal ones; an undefined one wins. -/
def min (x y : α) : α := if isNaN x || lt x y then x else y

/-- The square of a number that stands alone, by its power. -/
def square (x : α) : α := pow x 2.0

/-- The square of an entry of a column, by its product with itself. -/
def selfProduct (x : α) : α := x * x

/-- The power of one of many numbers with the same exponent: where the power is a
quotient, a root or a product, it is computed as such. -/
def sharedPower (exponent x : α) : α :=
  if eq exponent 2.0 then selfProduct x
  else if eq exponent 1.0 then x
  else if eq exponent 0.5 then sqrt x
  else if eq exponent 0.0 then 1.0
  else if eq exponent (-1.0) then 1.0 / x
  else pow x exponent

/-- The square of a number, or nothing if a finite number has no finite square. -/
def square? (x : α) : Option α :=
  let y := square x
  if isFinite x && !isFinite y then none else some y

/-- Zero without a sign, any other number as it is. -/
def unsignZero (x : α) : α := if eq x 0.0 then 0.0 else x

/-- The number of an integer. -/
def ofInt : Int → α
  | .ofNat n => ofNat n
  | .negSucc n => -(ofNat (n + 1))

/-- The number of an integer, or nothing if it lies beyond all finite numbers. -/
def ofInt? (n : Int) : Option α := if isFinite (ofInt n : α) then some (ofInt n) else none

end Scalar

end DensityAlgebra
