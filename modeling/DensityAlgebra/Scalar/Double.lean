/-
# Doubles are scalars

The 64-bit binary numbers of the machine, with its elementary functions.
Comparisons with an undefined number are false, and equality does not tell the
two zeros apart. `hypot` scales by the larger coordinate, so it overflows only
where the length itself does; an infinite coordinate makes the length infinite
even beside an undefined one.
-/
import DensityAlgebra.Scalar

namespace DensityAlgebra

/-- Below this, a sum of two squares has not overflowed. -/
def Double.squareCeiling : Float := 1e300

/-- Above this, a sum of two squares has kept its digits. -/
def Double.squareFloor : Float := 1e-290

/-- The length of a vector of doubles. -/
def Double.hypot (x y : Float) : Float :=
  let a := x.abs
  let b := y.abs
  if a.isInf || b.isInf then 1.0 / 0.0
  else if a.isNaN || b.isNaN then 0.0 / 0.0
  else
    let big := if a < b then b else a
    let small := if a < b then a else b
    if big == 0.0 then 0.0
    else
      let squares := x * x + y * y
      if squares < squareCeiling && squareFloor < squares then squares.sqrt
      else
        let ratio := small / big
        big * (1.0 + ratio * ratio).sqrt

instance : Scalar Float where
  ofNat := Float.ofNat
  pow := Float.pow
  exp := Float.exp
  log := Float.log
  sin := Float.sin
  cos := Float.cos
  tan := Float.tan
  sqrt := Float.sqrt
  abs := Float.abs
  hypot := Double.hypot
  angle := fun x y => Float.atan2 y x
  lt := fun x y => x < y
  le := fun x y => x ≤ y
  eq := fun x y => x == y
  isNaN := Float.isNaN
  isFinite := Float.isFinite

end DensityAlgebra
