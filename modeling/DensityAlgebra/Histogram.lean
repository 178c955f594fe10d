/-
# Histograms

Numbers counted in equal bins. A bin holds its lower edge and not its upper one,
except for the last, which holds both. A range of no width is widened by one half
on either side. There are no bins finer than the numbers themselves.

Key definitions: `Histogram`, `Histogram.ofValues`, `Histogram.stands`,
`Histogram.centers`.
-/
import DensityAlgebra.Grid

namespace DensityAlgebra

/-- The edges of bins and how many numbers fall between them. -/
structure Histogram (α : Type) where
  edges : List α
  counts : List Nat

namespace Histogram

variable {α : Type} [Scalar α]

/-- The counts of numbers in the bins that edges separate; below the first of these
edges and above the last one there is a bin, too. -/
def countAll (xs : List α) : List α → List Nat
  | [] => [xs.length]
  | edge :: rest =>
    let (below, above) := xs.partition (Scalar.lt · edge)
    below.length :: countAll above rest

/-- Whether some edge does not come before the next one. -/
def stands : List α → Bool
  | a :: b :: rest => Scalar.le b a || stands (b :: rest)
  | _ => false

/-- The histogram of numbers over a range in `bins` bins. -/
def ofValues (xs : List α) (lo hi : α) (bins : Int) : Except (Fault α) (Histogram α) :=
  if bins < 1 || Grid.tooMany ≤ bins || Scalar.lt hi lo
      || !(Scalar.isFinite lo && Scalar.isFinite hi) then
    .error .badGrid
  else
    let (lo, hi) := if Scalar.eq lo hi then (lo - 0.5, hi + 0.5) else (lo, hi)
    let edges := Grid.points lo hi (bins.toNat + 1)
    if stands edges then .error .badGrid
    else
      let inside := xs.filter fun x => Scalar.le lo x && Scalar.le x hi
      .ok ⟨edges, countAll inside (edges.drop 1).dropLast⟩

/-- The middles between neighbouring edges. -/
def centers (h : Histogram α) : List α :=
  List.zipWith (fun a b => 0.5 * (a + b)) h.edges (h.edges.drop 1)

/-- The width of the first bin. -/
def width (h : Histogram α) : α := h.edges.getD 1 0.0 - h.edges.getD 0 0.0

end Histogram

end DensityAlgebra
