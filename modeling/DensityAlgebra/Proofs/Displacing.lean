/-
# Displaced points

Every coordinate of a point is displaced by a step of its own, which depends on the bounds that
the coordinate faces. There may be a pair of bounds per coordinate, a single pair for all of
them, or a single coordinate for all the pairs; these are the shapes that fit together, and
nothing else has steps. A coordinate together with what it faces decides its step, so points
that are displaced, once or twice, are computed from one list of coordinates with bounds.

Key definitions: `Hessian.Faces`, `Hessian.stepAt`.
Key theorems: `Hessian.Faces.steps`, `Hessian.faces_of_steps`, `Hessian.Faces.join`,
`Hessian.shift_eq`.
-/
import Mathlib.Data.List.Basic
import DensityAlgebra.Fit.Hessian

namespace DensityAlgebra

variable {α : Type}

theorem combine_of_length {β γ δ : Type} (f : β → γ → δ) {xs : List β} {ys : List γ}
    (h : xs.length = ys.length) :
    (Value.combine f (.column xs) (.column ys) : Except (Fault α) (Value δ)) =
      .ok (.column (List.zipWith f xs ys)) := if_pos h

namespace Hessian

/-- The coordinates of a point with the bounds that they face: each its own ones, all of them a
single pair, or a single coordinate all the pairs that there are. -/
inductive Faces : List α → List (Bounds α) → List (α × Bounds α) → Prop
  | each (coords : List (α × Bounds α)) : Faces (coords.map (·.1)) (coords.map (·.2)) coords
  | shared (x : List α) (b : Bounds α) : Faces x [b] (x.map (·, b))
  | alone (a : α) (b : Bounds α) (bs : List (Bounds α)) :
      Faces [a] (b :: bs) ((b :: bs).map (a, ·))

variable {x : List α} {bounds : List (Bounds α)} {coords : List (α × Bounds α)}

theorem Faces.of_length (h : x.length = bounds.length) : Faces x bounds (x.zip bounds) := by
  have hx : (x.zip bounds).map (·.1) = x := List.map_fst_zip (Nat.le_of_eq h)
  have hb : (x.zip bounds).map (·.2) = bounds := List.map_snd_zip (Nat.le_of_eq h.symm)
  simpa only [hx, hb] using Faces.each (x.zip bounds)

/-- No coordinate of a point is left out. -/
theorem Faces.exists_getElem (h : Faces x bounds coords) {k : ℕ} (hk : k < x.length) :
    ∃ hk' : k < coords.length, coords[k].1 = x[k] := by
  cases h with
  | each coords => exact ⟨by simpa using hk, by simp⟩
  | shared x b => exact ⟨by simpa using hk, by simp⟩
  | alone a b bs =>
    obtain rfl : k = 0 := by simpa using hk
    exact ⟨by simp, by simp⟩

/-! ### Points -/

theorem join_of_length (f : α → α → α) :
    ∀ {x ds : List α}, x.length = ds.length → join f x ds = List.zipWith f x ds
  | [], _, _ => rfl
  | [_], [_], _ => rfl
  | _ :: _ :: _, _, _ => rfl

/-- A displaced point can be displaced again. -/
theorem join_mapIdx (f : α → α → α) (g d : ℕ → α × Bounds α → α) :
    join f (coords.mapIdx g) (coords.mapIdx d) = coords.mapIdx fun k c => f (g k c) (d k c) := by
  rw [join_of_length f (by simp)]
  exact List.ext_getElem (by simp) fun k _ _ => by simp

/-- **A point is displaced coordinate by coordinate.** -/
theorem Faces.join (h : Faces x bounds coords) (f : α → α → α) (d : ℕ → α × Bounds α → α) :
    join f x (coords.mapIdx d) = coords.mapIdx fun k c => f c.1 (d k c) := by
  have hpoint : ∀ coords : List (α × Bounds α), Hessian.join f (coords.map (·.1))
      (coords.mapIdx d) = coords.mapIdx fun k c => f c.1 (d k c) := fun coords => by
    rw [join_of_length f (by simp)]
    exact List.ext_getElem (by simp) fun k _ _ => by simp
  cases h with
  | each coords => exact hpoint coords
  | shared x b =>
    have hx : (x.map (·, b)).map (·.1) = x := List.map_map.trans (List.map_id x)
    simpa only [hx] using hpoint (x.map (·, b))
  | alone a b bs =>
    show (((b :: bs).map (a, ·)).mapIdx d).map (f a) = _
    refine List.ext_getElem (by simp) fun k _ _ => ?_
    simp only [List.getElem_map, List.getElem_mapIdx]

/-! ### Steps -/

variable [Scalar α]

/-- The displacement of a coordinate that faces some bounds. -/
def stepAt (relative : α) (c : α × Bounds α) : α := stepOf relative c.1 c.2

theorem shift_eq (relative : α) (i : ℕ) : shift (coords.map (stepAt relative)) i =
    coords.mapIdx fun k c => if k = i then stepAt relative c else 0.0 :=
  List.ext_getElem (by simp [shift]) fun k _ _ => by simp [shift]

/-- **Coordinates that face bounds have steps.** -/
theorem Faces.steps (h : Faces x bounds coords) (relative : α) :
    steps relative x bounds = .ok (coords.map (stepAt relative)) := by
  unfold Hessian.steps
  cases h with
  | each coords =>
    rw [combine_of_length _ (by simp), List.zipWith_map, List.zipWith_self]
    cases coords <;> rfl
  | shared x b =>
    match x with
    | [] => rfl
    | [a] => rfl
    | a :: a' :: x =>
      simp [Value.combine, Value.entries, stepAt, bind, Except.bind, pure, Except.pure]
  | alone a b bs =>
    cases bs with
    | nil => rfl
    | cons b' bs =>
      simp [Value.combine, Value.entries, stepAt, bind, Except.bind, pure, Except.pure]

/-- **Only coordinates that face bounds have steps.** -/
theorem faces_of_steps {relative : α} {eps : List α} (h : steps relative x bounds = .ok eps) :
    ∃ coords, Faces x bounds coords := by
  by_cases hlength : x.length = bounds.length
  · exact ⟨_, .of_length hlength⟩
  match x, bounds with
  | [a], b :: bs => exact ⟨_, .alone a b bs⟩
  | x, [b] => exact ⟨_, .shared x b⟩
  | [], [] => exact absurd rfl hlength
  | [a], [] => cases h
  | [], b :: b' :: bs => cases h
  | a :: a' :: x, [] => cases h
  | a :: a' :: x, b :: b' :: bs =>
    have hrefused : (Value.combine (stepOf relative) (.column (a :: a' :: x))
        (.column (b :: b' :: bs)) : Except (Fault α) (Value α)) = .error .shapeMismatch :=
      if_neg hlength
    rw [steps, hrefused] at h
    cases h

end Hessian

end DensityAlgebra
