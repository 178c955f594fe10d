/-
# Grids

An interval cut into equal bins, given by the midpoints of the bins and their
width; and equally spaced points from one end of an interval to the other.

Key definitions: `Grid.midpoints`, `Grid.bins`, `Grid.points`.
-/
import DensityAlgebra.Fault

namespace DensityAlgebra.Grid

variable {α : Type} [Scalar α]

/-- The midpoints of the first `n` bins of a width, from `lo` upwards. -/
def midpoints (lo width : α) (n : Nat) : List α :=
  (List.range n).map fun i => lo + width * (Scalar.ofNat i + 0.5)

/-- More numbers than any list of them can hold. -/
def tooMany : Int := Int.pow 2 60

/-- The midpoints of `n` equal bins between two bounds, and the bin width. -/
def bins (lo hi : α) (n : Int) : Except (Fault α) (List α × α) :=
  let gaps : α := Scalar.ofInt n
  if n < 1 then .error .emptyGrid
  else if !Scalar.isFinite gaps then .error .overflow
  else if tooMany ≤ n then .error .badGrid
  else
    let width := (hi - lo) / gaps
    .ok (midpoints lo width n.toNat, width)

/-- Point `i` of `n + 2` equally spaced ones from `lo` to `hi`, of which the last
is `hi` itself. -/
def point (lo hi : α) (n i : Nat) : α :=
  let gaps : α := Scalar.ofNat (n + 1)
  let step := (hi - lo) / gaps
  if i = n + 1 then hi
  else if Scalar.eq step 0.0 then Scalar.ofNat i / gaps * (hi - lo) + lo
  else Scalar.ofNat i * step + lo

/-- So many equally spaced points, both ends included. -/
def points (lo hi : α) : Nat → List α
  | 0 => []
  | 1 => [0.0 * (hi - lo) + lo]
  | n + 2 => (List.range (n + 2)).map (point lo hi n)

end DensityAlgebra.Grid
