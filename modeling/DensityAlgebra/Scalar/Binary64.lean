/-
# Doubles by their bits

The parts of a 64-bit binary number, read off its bits, and what can be computed
from the parts exactly: the integer part of a finite double.

Key definitions: `Binary64`, `Binary64.ofBits`, `Binary64.ofFloat`,
`Binary64.truncate?`.
-/

namespace DensityAlgebra

/-- A double by its parts: a finite one is `± significand * 2 ^ exponent`. -/
inductive Binary64 where
  | undefined
  | infinite (negative : Bool)
  | finite (negative : Bool) (significand : Nat) (exponent : Int)
  deriving DecidableEq

/-- The parts that the 64 bits of a double stand for. -/
def Binary64.ofBits (bits : Nat) : Binary64 :=
  let negative := decide (Nat.pow 2 63 ≤ bits)
  let biased : Nat := bits / Nat.pow 2 52 % Nat.pow 2 11
  let fraction : Nat := bits % Nat.pow 2 52
  if biased = 2047 then
    if fraction = 0 then .infinite negative else .undefined
  else if biased = 0 then .finite negative fraction (-1074)
  else .finite negative (Nat.pow 2 52 + fraction) ((biased : Int) - 1075)

def Binary64.ofFloat (x : Float) : Binary64 :=
  if x.isNaN then .undefined else .ofBits x.toBits.toNat

/-- The integer part of a finite double. -/
def Binary64.truncate? : Binary64 → Option Int
  | .finite negative m e =>
    let n : Nat := if 0 ≤ e then m * Nat.pow 2 e.toNat else m / Nat.pow 2 (-e).toNat
    some (if negative then -(n : Int) else n)
  | _ => none

end DensityAlgebra
