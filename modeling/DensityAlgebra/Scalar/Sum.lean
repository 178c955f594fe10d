/-
# Sums in blocks

A long sum is cut into halves until a piece has at most 128 terms. Such a block
is added up in eight lanes, which are then joined as a balanced tree, and the
terms that fill no whole row of lanes come last. Pieces of fewer than eight
terms are added from left to right. The grouping bounds the rounding error; in
exact arithmetic it is the plain sum.

Key definitions: `Scalar.sumLeft`, `Scalar.sumBlock`, `Scalar.sum`.
-/
import DensityAlgebra.Scalar

namespace DensityAlgebra.Scalar

variable {α : Type} [Scalar α]

/-- The terms added to `start` from left to right. -/
def sumLeft (start : α) (xs : List α) : α := xs.foldl (· + ·) start

/-- The balanced sum of eight lanes. -/
def joinLanes : List α → α
  | [a, b, c, d, e, f, g, h] => ((a + b) + (c + d)) + ((e + f) + (g + h))
  | xs => sumLeft 0.0 xs

/-- Eight lanes take the terms row by row; what fills no row is added at the
end. -/
def sumLanes (lanes : List α) : List α → α
  | a :: b :: c :: d :: e :: f :: g :: h :: rest =>
    sumLanes (List.zipWith (· + ·) lanes [a, b, c, d, e, f, g, h]) rest
  | rest => sumLeft (joinLanes lanes) rest

/-- The sum of a piece of at most one block. -/
def sumBlock : List α → α
  | a :: b :: c :: d :: e :: f :: g :: h :: rest => sumLanes [a, b, c, d, e, f, g, h] rest
  | xs => sumLeft 0.0 xs

/-- Where a piece of `n` terms is cut: at a whole row of lanes near the middle. -/
def halfway (n : Nat) : Nat := n / 2 - n / 2 % 8

/-- The sum of any number of terms, by halves down to single blocks. -/
def sumHalves (xs : List α) : α :=
  if 128 < xs.length then
    sumHalves (xs.take (halfway xs.length)) + sumHalves (xs.drop (halfway xs.length))
  else sumBlock xs
termination_by xs.length
decreasing_by
  all_goals simp only [List.length_take, List.length_drop, halfway]; omega

/-- The sum of the terms. -/
def sum (xs : List α) : α := 0.0 + sumHalves xs

end DensityAlgebra.Scalar
