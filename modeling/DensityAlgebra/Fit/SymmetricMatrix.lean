/-
# Symmetric matrices

A symmetric matrix is diagonalized by plane rotations, each of which clears one
entry off the diagonal; sweep by sweep over all entries, what is off the diagonal
vanishes. From the diagonal form follow the pseudo-inverse, in which directions
that the matrix does not stretch stay unstretched, and the part of the matrix
that is not negative.

Key definitions: `SymmetricMatrix.rotate`, `SymmetricMatrix.diagonalize`,
`SymmetricMatrix.compose`, `SymmetricMatrix.pseudoInverse?`,
`SymmetricMatrix.deviationsOf`.
-/
import DensityAlgebra.Scalar.Sum

namespace DensityAlgebra.SymmetricMatrix

variable {α : Type} [Scalar α]

abbrev Matrix (α : Type) := List (List α)

def entry (a : Matrix α) (i j : Nat) : α := (a.getD i []).getD j 0.0

def build (n : Nat) (f : Nat → Nat → α) : Matrix α :=
  (List.range n).map fun i => (List.range n).map (f i)

def identity (n : Nat) : Matrix α := build n fun i j => if i = j then 1.0 else 0.0

/-- The columns `p` and `q` turned by an angle of this cosine and sine. -/
def turnColumns (n : Nat) (p q : Nat) (c s : α) (a : Matrix α) : Matrix α :=
  build n fun i j =>
    if j = p then c * entry a i p - s * entry a i q
    else if j = q then s * entry a i p + c * entry a i q
    else entry a i j

def transpose (n : Nat) (a : Matrix α) : Matrix α := build n fun i j => entry a j i

/-- A matrix and the rotations so far, after the rotation that clears the entry
at `p` and `q`. -/
def rotate (n p q : Nat) (state : Matrix α × Matrix α) : Matrix α × Matrix α :=
  let (a, v) := state
  let off := entry a p q
  if Scalar.eq off 0.0 then state
  else
    let theta := (entry a q q - entry a p p) / (2.0 * off)
    let root := Scalar.abs theta + Scalar.sqrt (theta * theta + 1.0)
    let t := if Scalar.lt theta 0.0 then -(1.0 / root) else 1.0 / root
    let c := 1.0 / Scalar.sqrt (t * t + 1.0)
    let s := t * c
    let half := turnColumns n p q c s a
    (turnColumns n p q c s (transpose n half), turnColumns n p q c s v)

/-- All places above the diagonal. -/
def places (n : Nat) : List (Nat × Nat) :=
  (List.range n).flatMap fun p => ((List.range n).filter (p < ·)).map fun q => (p, q)

/-- So many sweeps over all places above the diagonal. -/
def sweeps (n : Nat) : Nat → Matrix α × Matrix α → Matrix α × Matrix α
  | 0, state => state
  | k + 1, state => sweeps n k ((places n).foldl (fun st (p, q) => rotate n p q st) state)

/-- The diagonal, and the columns that belong to its entries. -/
def diagonalize (a : Matrix α) : List α × Matrix α :=
  let n := a.length
  let (d, v) := sweeps n 60 (a, identity n)
  ((List.range n).map fun i => entry d i i, v)

/-- The matrix with these columns and this diagonal. -/
def compose (n : Nat) (diagonal : List α) (v : Matrix α) : Matrix α :=
  build n fun i j =>
    Scalar.sumLeft 0.0 ((List.range n).map fun k => entry v i k * diagonal.getD k 0.0 * entry v j k)

/-- Whether all entries are finite. -/
def isFinite (a : Matrix α) : Bool := a.all (·.all Scalar.isFinite)

/-- The pseudo-inverse of a matrix of finite numbers, or of a single number that may
be infinite. -/
def pseudoInverse? (a : Matrix α) : Option (Matrix α) :=
  if a.length = 1 && !isFinite a && !Scalar.isNaN (entry a 0 0) then some [[0.0]]
  else if isFinite a then
    let (d, v) := diagonalize a
    let largest := (d.map Scalar.abs).foldl Scalar.max 0.0
    let inverse := d.map fun x =>
      if Scalar.lt (1e-15 * largest) (Scalar.abs x) then 1.0 / x else 0.0
    some (compose a.length inverse v)
  else none

def diagonalOf (a : Matrix α) : List α := (List.range a.length).map fun i => entry a i i

/-- The correlations that belong to a covariance matrix, of which the lower
triangle counts, and the standard deviations. A deviation of zero scales nothing. -/
def correlations (a : Matrix α) : List α × Matrix α :=
  let sigma := (diagonalOf a).map Scalar.sqrt
  let scale := sigma.map fun x => if Scalar.eq x 0.0 then 1.0 else x
  (sigma, build a.length fun i j =>
    entry a (Nat.max i j) (Nat.min i j) / scale.getD j 0.0 / scale.getD i 0.0)

/-- The place of the least number of a list, the first one of several. -/
def leastPlace (d : List α) : Nat :=
  (List.range d.length).foldl
    (fun best i => if Scalar.lt (d.getD i 0.0) (d.getD best 0.0) then i else best) 0

/-- What an independent quantity of some variance adds to a deviation, where it has
this coefficient; one that does not vary adds nothing. -/
def contribution (coefficient variance : α) : α :=
  if Scalar.eq variance 0.0 then 0.0
  else Scalar.square (coefficient * Scalar.sqrt variance)

/-- The standard deviations of `count` quantities with this covariance matrix: it
is scaled to the correlations, whose negative part is dropped, and these are
diagonalized. A matrix that is smaller counts for the first quantities; to a single
quantity with a larger one only the direction of least variance contributes.

Correlations that are not finite leave the deviations undefined. None if there are
no correlations to speak of, or if three or more quantities are to be diagonalized
of which two have no finite correlation. -/
def deviationsOf (count : Nat) (a : Matrix α) : Option (List α) :=
  let n := a.length
  let (sigma, r) := correlations a
  if n = 0 || (count < n && count ≠ 1) then none
  else if !isFinite r then
    if 2 < n && (places n).any (fun (i, j) => !Scalar.isFinite (entry r i j)) then none
    else some (List.replicate (Nat.min n count) Scalar.undefined)
  else
    let (d, v) := diagonalize r
    let kept := d.map fun x => if Scalar.lt x 0.0 then 0.0 else x
    let directions := if n ≤ count then List.range n else [leastPlace d]
    some ((List.range (Nat.min n count)).map fun i =>
      Scalar.sqrt (Scalar.sumLeft 0.0 (directions.map fun k =>
        contribution (entry v i k * sigma.getD i 0.0) (kept.getD k 0.0))))

end DensityAlgebra.SymmetricMatrix
