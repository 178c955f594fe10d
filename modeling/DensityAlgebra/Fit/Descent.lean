/-
# Quasi-Newton descent

A minimizer for smooth functions with bounds. It follows the gradient, taken by
central differences, through an approximation of the inverse matrix of second
derivatives that every step improves; the first step is no longer than one. A step
is halved until it pays, points are moved onto the bounds that they cross, and
coordinates that a bound holds back are left alone. It ends when a step hardly
moves the point.

Key definitions: `Descent.clampTo`, `Descent.gradient`, `Descent.lineSearch`,
`Descent.update`, `Descent.iterate`, `Descent.minimizer`.
-/
import DensityAlgebra.Fit.Search
import DensityAlgebra.Fit.SymmetricMatrix

namespace DensityAlgebra.Descent

open SymmetricMatrix

variable {α : Type} [Scalar α]

/-- A coordinate moved between its bounds. -/
def clampTo (b : Bounds α) (x : α) : α :=
  let x := match b.1 with
    | some lo => if Scalar.lt x lo then lo else x
    | none => x
  match b.2 with
  | some hi => if Scalar.lt hi x then hi else x
  | none => x

def clampAll (bs : List (Bounds α)) (x : List α) : List α := List.zipWith clampTo bs x

def dot (x y : List α) : α := Scalar.sumLeft 0.0 (List.zipWith (· * ·) x y)

def apply (a : Matrix α) (x : List α) : List α := a.map (dot · x)

/-- The derivative along coordinate `i` between two points within the bounds. -/
def slope (bs : List (Bounds α)) (x : List α) (i : Nat) : Search α α := do
  let xi := x.getD i 0.0
  let h := 1e-6 * (Scalar.abs xi + 1.0)
  let b := bs.getD i (none, none)
  let up := clampTo b (xi + h)
  let down := clampTo b (xi - h)
  if Scalar.eq up down then return 0.0
  else
    let fu ← Search.ask (x.set i up)
    let fd ← Search.ask (x.set i down)
    return (fu - fd) / (up - down)

/-- The slope, or zero where a bound forbids to follow it. -/
def freeSlope (b : Bounds α) (x g : α) : α :=
  let heldBelow := match b.1 with
    | some lo => Scalar.le x lo && Scalar.lt 0.0 g
    | none => false
  let heldAbove := match b.2 with
    | some hi => Scalar.le hi x && Scalar.lt g 0.0
    | none => false
  if heldBelow || heldAbove then 0.0 else g

/-- The gradient along the coordinates that are free to follow it. -/
def gradient (bs : List (Bounds α)) (x : List α) : Search α (List α) := do
  let g ← (List.range x.length).mapM (slope bs x)
  return List.zipWith (fun (b, xi) gi => freeSlope b xi gi) (bs.zip x) g

/-- The first of ever shorter steps that lowers the function, and not by next to
nothing for its length. -/
def lineSearch (bs : List (Bounds α)) (x d g : List α) (fx : α) :
    Nat → α → Search α (Option (List α × α))
  | 0, _ => pure none
  | left + 1, t => do
    let y := clampAll bs (List.zipWith (fun xi di => xi + t * di) x d)
    let fy ← Search.ask y
    let expected := dot g (List.zipWith (· - ·) y x)
    if Scalar.lt fy fx && Scalar.le fy (fx + 1e-4 * expected) then return some (y, fy)
    else lineSearch bs x d g fx left (0.5 * t)

/-- The inverse matrix, of which nothing may be known yet, after a step `s` that
changed the gradient by `y`. -/
def update (h : Option (Matrix α)) (s y : List α) : Option (Matrix α) :=
  let n := s.length
  let sy := dot s y
  if Scalar.lt 1e-14 sy then
    let scale := sy / dot y y
    let h := h.getD (build n fun i j => if i = j then scale else 0.0)
    let hy := apply h y
    let factor := (sy + dot y hy) / (sy * sy)
    some (build n fun i j =>
      entry h i j + factor * s.getD i 0.0 * s.getD j 0.0
        - (hy.getD i 0.0 * s.getD j 0.0 + s.getD i 0.0 * hy.getD j 0.0) / sy)
  else none

/-- Where to go from a point with this gradient, and how far at first: down the
gradient by no more than one if nothing better is known. -/
def direction (g : List α) (h : Option (Matrix α)) : List α × α :=
  let down := (g.map (- ·), Scalar.min 1.0 (1.0 / Scalar.sqrt (dot g g)))
  match h with
  | none => down
  | some h =>
    let newton := (apply h g).map (- ·)
    if Scalar.lt (dot newton g) 0.0 then (newton, 1.0) else down

/-- Whether a step is too short to matter. -/
def negligible (x y : List α) : Bool :=
  (List.zipWith (fun a b => Scalar.le (Scalar.abs (a - b)) (1e-10 * (Scalar.abs a + 1.0))) x y).all
    id

/-- At most so many steps from a point of known value and gradient. -/
def iterate (bs : List (Bounds α)) :
    Nat → List α → α → List α → Option (Matrix α) → Search α (List α × Bool)
  | 0, x, _, _, _ => pure (x, false)
  | left + 1, x, fx, g, h => do
    let (d, t) := direction g h
    match ← lineSearch bs x d g fx 60 t with
    | none => return (x, true)
    | some (y, fy) =>
      if negligible x y then return (y, true)
      else
        let gy ← gradient bs y
        let h := update h (List.zipWith (· - ·) y x) (List.zipWith (· - ·) gy g)
        iterate bs left y fy gy h

/-- The minimizer. -/
def minimizer : Minimizer α Unit := fun problem => do
  let bs := problem.bounds.getD (problem.start.map fun _ => (none, none))
  let x := clampAll bs problem.start
  let fx ← Search.ask x
  let g ← gradient bs x
  let (y, converged) ← iterate bs 300 x fx g none
  return (⟨y, converged, "", 0⟩, ())

end DensityAlgebra.Descent
