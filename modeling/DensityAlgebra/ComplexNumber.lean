/-
# Complex numbers over a scalar

Pairs of scalars with their arithmetic. Products are formed from the four products
of the parts. Division scales by the larger part of the divisor
(`ComplexNumber.div`), which keeps the quotient of large numbers finite. Powers with
small whole exponents are products; others are taken of the length and the angle.

Key definitions: `ComplexNumber`, `ComplexNumber.mul`, `ComplexNumber.div`,
`ComplexNumber.magnitude`, `ComplexNumber.power`.
-/
import DensityAlgebra.Scalar

namespace DensityAlgebra

/-- A real and an imaginary part. -/
structure ComplexNumber (α : Type) where
  re : α
  im : α
  deriving Repr, DecidableEq

namespace ComplexNumber

variable {α : Type} [Scalar α]

/-- A real number as a complex one. -/
def ofReal (x : α) : ComplexNumber α := ⟨x, 0.0⟩

def zero : ComplexNumber α := ⟨0.0, 0.0⟩

def imaginaryUnit : ComplexNumber α := ⟨0.0, 1.0⟩

def add (z w : ComplexNumber α) : ComplexNumber α := ⟨z.re + w.re, z.im + w.im⟩

def sub (z w : ComplexNumber α) : ComplexNumber α := ⟨z.re - w.re, z.im - w.im⟩

def mul (z w : ComplexNumber α) : ComplexNumber α :=
  ⟨z.re * w.re - z.im * w.im, z.re * w.im + z.im * w.re⟩

def neg (z : ComplexNumber α) : ComplexNumber α := ⟨-z.re, -z.im⟩

def isZero (z : ComplexNumber α) : Bool := Scalar.eq z.re 0.0 && Scalar.eq z.im 0.0

def isFinite (z : ComplexNumber α) : Bool := Scalar.isFinite z.re && Scalar.isFinite z.im

/-- The quotient, scaled by the larger part of the divisor. -/
def div (z w : ComplexNumber α) : ComplexNumber α :=
  let x := Scalar.abs w.re
  let y := Scalar.abs w.im
  if Scalar.le y x then
    if Scalar.eq x 0.0 && Scalar.eq y 0.0 then ⟨z.re / x, z.im / x⟩
    else
      let ratio := w.im / w.re
      let scale := 1.0 / (w.re + w.im * ratio)
      ⟨(z.re + z.im * ratio) * scale, (z.im - z.re * ratio) * scale⟩
  else
    let ratio := w.re / w.im
    let scale := 1.0 / (w.im + w.re * ratio)
    ⟨(z.re * ratio + z.im) * scale, (z.im * ratio - z.re) * scale⟩

/-- The distance from zero. -/
def magnitude (z : ComplexNumber α) : α := Scalar.hypot z.re z.im

/-- The product of `acc` with so many factors `z`, by squaring. -/
def timesPower (z acc : ComplexNumber α) (n : Nat) : ComplexNumber α :=
  if n = 0 then acc
  else timesPower (z.mul z) (if n % 2 = 1 then acc.mul z else acc) (n / 2)

/-- The largest whole exponent whose power is computed as a product. -/
def longestProduct : Nat := 100

/-- The power by length and angle; any power of zero is zero. -/
def polarPower (z w : ComplexNumber α) : ComplexNumber α :=
  if z.isZero then zero
  else
    let angle := Scalar.angle z.re z.im
    let length := Scalar.pow z.magnitude w.re / Scalar.exp (angle * w.im)
    let turn := angle * w.re + w.im * Scalar.log z.magnitude
    ⟨length * Scalar.cos turn, length * Scalar.sin turn⟩

/-- The power, which for a small whole exponent is a product or its inverse. -/
def power (z w : ComplexNumber α) : ComplexNumber α :=
  let fits (n : Nat) := Scalar.eq (Scalar.abs w.re) (Scalar.ofNat n)
  match (List.range (longestProduct + 1)).find? fits with
  | some n =>
    if !Scalar.eq w.im 0.0 then z.polarPower w
    else
      let product := timesPower z (ofReal 1.0) n
      if Scalar.lt w.re 0.0 then (ofReal 1.0).div product else product
  | none => z.polarPower w

end ComplexNumber

end DensityAlgebra
