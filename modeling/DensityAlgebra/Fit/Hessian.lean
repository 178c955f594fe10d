/-
# Second derivatives by central differences

The matrix of second derivatives of a function at a point, from its values at
displaced points. The displacement of a coordinate is relative to its size and
shrinks to at most half of what is left to a bound, so no displaced point touches
a bound, not even where two coordinates are displaced at once. If a coordinate
has no room, there is no matrix and the function is not called.

There is a pair of bounds per coordinate; a single pair holds for all coordinates,
and a single coordinate stands for as many as there are bounds.

The function may be an action; it is called in a fixed order.

Key definitions: `Hessian.below`, `Hessian.above`, `Hessian.steps`,
`Hessian.shift`, `Hessian.row`, `hessian`.
-/
import DensityAlgebra.Value

namespace DensityAlgebra

/-- A lower and an upper bound, either of which may be missing. -/
abbrev Bounds (α : Type) := Option α × Option α

namespace Hessian

variable {α : Type} [Scalar α]

/-- What a coordinate leaves to its lower bound; nothing stands for any amount.
From minus infinity, no amount is known. -/
def below (lo : Option α) (x : α) : Option α :=
  match lo with
  | some b => some (Scalar.max (x - b) 0.0)
  | none => if Scalar.isFinite x || Scalar.lt 0.0 x then none else some Scalar.undefined

/-- What a coordinate leaves to its upper bound; nothing stands for any amount.
From infinity, no amount is known. -/
def above (hi : Option α) (x : α) : Option α :=
  match hi with
  | some b => some (Scalar.max (b - x) 0.0)
  | none => if Scalar.isFinite x || Scalar.lt x 0.0 then none else some Scalar.undefined

/-- A step of at most half of some room. -/
def shrink (eps : α) : Option α → α
  | some room => Scalar.min eps (0.5 * room)
  | none => eps

/-- The displacement of one coordinate. -/
def stepOf (relative x : α) (bounds : Bounds α) : α :=
  let eps := relative * (Scalar.abs x + 1.0)
  shrink (shrink eps (below bounds.1 x)) (above bounds.2 x)

/-- The displacements of all coordinates. -/
def steps (relative : α) (x : List α) (bounds : List (Bounds α)) :
    Except (Fault α) (List α) := do
  let eps ← Value.combine (stepOf relative) (.column x) (.column bounds)
  if eps.entries.isEmpty && !x.isEmpty then throw .missingItem
  return eps.entries

/-- The vector that displaces coordinate `i` by its step. -/
def shift (eps : List α) (i : Nat) : List α :=
  eps.mapIdx fun k e => if k = i then e else 0.0

/-- A point and a displacement, put together coordinate by coordinate. -/
def join (f : α → α → α) : List α → List α → List α
  | [a], ys => ys.map (f a)
  | xs, ys => List.zipWith f xs ys

def add (x y : List α) : List α := join (· + ·) x y

def sub (x y : List α) : List α := join (· - ·) x y

variable {m : Type → Type} [Monad m]

/-- The second derivative along coordinate `i`. -/
def diagonal (f : List α → m α) (x : List α) (f0 : α) (eps : List α) (i : Nat) : m α := do
  let d := shift eps i
  let up ← f (add x d)
  let down ← f (sub x d)
  return (up - 2.0 * f0 + down) / Scalar.square (eps.getD i 0.0)

/-- The mixed derivative along coordinates `i` and `j`. -/
def mixed (f : List α → m α) (x eps : List α) (i j : Nat) : m α := do
  let a := shift eps i
  let b := shift eps j
  let pp ← f (add (add x a) b)
  let pm ← f (sub (add x a) b)
  let mp ← f (add (sub x a) b)
  let mm ← f (sub (sub x a) b)
  return (pp - pm - mp + mm) / (4.0 * eps.getD i 0.0 * eps.getD j 0.0)

/-- Row `i` up to the diagonal; the diagonal is computed first. -/
def row (f : List α → m α) (x : List α) (f0 : α) (eps : List α) (i : Nat) : m (List α) := do
  let last ← diagonal f x f0 eps i
  let left ← (List.range i).mapM (mixed f x eps i)
  return left ++ [last]

/-- The entry of a symmetric matrix that is given by its rows up to the
diagonal. -/
def entry (lower : List (List α)) (i j : Nat) : α :=
  (lower.getD (Nat.max i j) []).getD (Nat.min i j) 0.0

/-- The full matrix of rows up to the diagonal. -/
def full (lower : List (List α)) : List (List α) :=
  (List.range lower.length).map fun i => (List.range lower.length).map (entry lower i)

end Hessian

/-- The matrix of second derivatives of `f` at `x`, where `f` has the value `f0`;
none if some coordinate has no room. Bounds that do not fit the coordinates are
refused before the function is called. -/
def hessian {α : Type} [Scalar α] {m : Type → Type} [Monad m] (f : List α → m α) (x : List α)
    (f0 : α) (bounds : List (Bounds α)) (relative : Option α) :
    m (Except (Fault α) (Option (List (List α)))) := do
  match Hessian.steps (relative.getD 1e-4) x bounds with
  | .error e => return .error e
  | .ok eps =>
    if eps.any (Scalar.le · 0.0) then return .ok none
    else
      let lower ← (List.range x.length).mapM (Hessian.row f x f0 eps)
      return .ok (some (Hessian.full lower))

end DensityAlgebra
