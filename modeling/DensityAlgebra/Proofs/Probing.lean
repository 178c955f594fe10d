/-
# Where second derivatives are probed

The matrix of second derivatives is computed from calls of a function. With the calls as an
inquiry, all of them are known beforehand: whatever the answers, the computation asks for points
of one kind, and running it against a function is computing with that function. So the points
that are asked for are those that any function is called with.

In exact arithmetic a coordinate has a positive step exactly if the relative step is positive
and the coordinate lies strictly between the bounds that it faces. Its step is less than what is
left to either bound, and no coordinate is displaced twice, so every point that is asked for lies
strictly between all bounds. A coordinate without a step blocks the computation before it asks.
Where there are no coordinates nothing can block it.

Key definitions: `Search.Within`, `Bounds.Holds`, `Hessian.Inside`, `Hessian.Blocked`.
Key theorems: `Search.run_bind`, `hessian_run`, `Hessian.stepAt_pos_iff`,
`Hessian.holds_of_near`, `Hessian.hessian_within`, `Hessian.probes_inside`.
-/
import Mathlib.Analysis.SpecialFunctions.Pow.Real
import Mathlib.Analysis.SpecialFunctions.Complex.Arg
import DensityAlgebra.Fit.Search
import DensityAlgebra.Proofs.Displacing
import DensityAlgebra.Proofs.Reals

namespace DensityAlgebra

/-! ### Searches as actions -/

namespace Search

variable {α β γ ι : Type}

theorem bind_done : ∀ s : Search α β, s.bind .done = s
  | .done _ => rfl
  | .probe x next => congrArg (probe x) (funext fun y => bind_done (next y))

theorem bind_bind (k : β → Search α γ) {δ : Type} (l : γ → Search α δ) :
    ∀ s : Search α β, (s.bind k).bind l = s.bind fun b => (k b).bind l
  | .done _ => rfl
  | .probe x next => congrArg (probe x) (funext fun y => bind_bind k l (next y))

instance : LawfulMonad (Search α) :=
  LawfulMonad.mk' _ bind_done (fun _ _ => rfl) fun s k l => bind_bind k l s

section

variable {m : Type → Type} [Monad m] (f : List α → m α)

theorem run_pure (b : β) : (pure b : Search α β).run f = pure b := rfl

variable [LawfulMonad m]

theorem run_bind (k : β → Search α γ) :
    ∀ s : Search α β, (s >>= k).run f = s.run f >>= fun b => (k b).run f
  | .done b => (pure_bind b fun b => (k b).run f).symm
  | .probe x next => by
    show (f x >>= fun y => (next y >>= k).run f) = (f x >>= fun y => (next y).run f) >>= _
    rw [bind_assoc]
    exact bind_congr fun y => run_bind k (next y)

theorem run_ask (x : List α) : (ask x).run f = f x := bind_pure (f x)

theorem run_mapM (g : ι → Search α β) :
    ∀ l : List ι, (l.mapM g).run f = l.mapM fun i => (g i).run f
  | [] => rfl
  | i :: l => by
    simp only [List.mapM_cons, run_bind, run_mapM g l, run_pure]

end

/-- Whatever the answers, only points of one kind are asked for, and the result is of one
kind. -/
inductive Within (P : List α → Prop) (Q : β → Prop) : Search α β → Prop
  | done {b : β} (h : Q b) : Within P Q (.done b)
  | probe {x : List α} {next : α → Search α β} (h : P x) (hnext : ∀ y, Within P Q (next y)) :
      Within P Q (.probe x next)

variable {P : List α → Prop} {Q : β → Prop} {R : γ → Prop}

theorem Within.result {b : β} (h : Within P Q (.done b : Search α β)) : Q b := by
  cases h with
  | done hb => exact hb

theorem Within.bind {s : Search α β} (hs : s.Within P Q) {k : β → Search α γ}
    (hk : ∀ b, Q b → (k b).Within P R) : (s >>= k).Within P R := by
  induction hs with
  | done hb => exact hk _ hb
  | probe hx _ ih => exact .probe hx ih

theorem Within.ask {x : List α} (h : P x) : (ask x).Within P fun _ => True :=
  .probe h fun _ => .done trivial

theorem Within.mapM {g : ι → Search α β} :
    ∀ {l : List ι}, (∀ i ∈ l, (g i).Within P fun _ => True) → (l.mapM g).Within P fun _ => True
  | [], _ => .done trivial
  | i :: l, h => by
    rw [List.mapM_cons]
    exact (h i List.mem_cons_self).bind fun _ _ =>
      (Within.mapM fun j hj => h j (List.mem_cons_of_mem i hj)).bind fun _ _ => .done trivial

end Search

namespace Hessian

section

variable {α : Type} [Scalar α] {m : Type → Type} [Monad m] [LawfulMonad m] (f : List α → m α)

theorem run_diagonal (x : List α) (f0 : α) (eps : List α) (i : ℕ) :
    (diagonal Search.ask x f0 eps i).run f = diagonal f x f0 eps i := by
  simp only [diagonal, Search.run_bind, Search.run_ask, Search.run_pure]

theorem run_mixed (x eps : List α) (i j : ℕ) :
    (mixed Search.ask x eps i j).run f = mixed f x eps i j := by
  simp only [mixed, Search.run_bind, Search.run_ask, Search.run_pure]

theorem run_row (x : List α) (f0 : α) (eps : List α) (i : ℕ) :
    (row Search.ask x f0 eps i).run f = row f x f0 eps i := by
  simp only [row, Search.run_bind, Search.run_mapM, Search.run_pure, run_diagonal, run_mixed]

end

end Hessian

/-- **An inquiry into second derivatives**, answered by a function, takes its second
derivatives. -/
theorem hessian_run {α : Type} [Scalar α] {m : Type → Type} [Monad m] [LawfulMonad m]
    (f : List α → m α) (x : List α) (f0 : α) (bounds : List (Bounds α)) (relative : Option α) :
    (hessian Search.ask x f0 bounds relative).run f = hessian f x f0 bounds relative := by
  unfold hessian
  cases Hessian.steps (relative.getD 1e-4) x bounds with
  | error e => rfl
  | ok eps =>
    show (if _ then _ else _ : Search _ _).run f = if _ then _ else _
    split_ifs
    · rfl
    · simp only [Search.run_bind, Search.run_mapM, Search.run_pure, Hessian.run_row]

/-! ### Room for displacements -/

/-- A number lies strictly between the bounds, as far as there are any. -/
def Bounds.Holds (b : Bounds ℝ) (v : ℝ) : Prop := (∀ lo ∈ b.1, lo < v) ∧ ∀ hi ∈ b.2, v < hi

namespace Hessian

/-- What is left to the bounds of one side. -/
theorem stepOf_eq (relative x : ℝ) (b : Bounds ℝ) : stepOf relative x b =
    shrink (shrink (relative * (|x| + 1.0)) (b.1.map fun lo => Scalar.max (x - lo) 0.0))
      (b.2.map fun hi => Scalar.max (hi - x) 0.0) := by
  obtain ⟨lo, hi⟩ := b
  cases lo <;> cases hi <;> rfl

section

variable {eps : ℝ} {bound : Option ℝ} {gap : ℝ → ℝ}

theorem half_max (r : ℝ) : 0.5 * Scalar.max r 0.0 = max r 0 / 2 := by
  rw [Reals.max_eq]
  norm_num
  ring

theorem shrink_pos_iff : 0 < shrink eps (bound.map fun b => Scalar.max (gap b) 0.0) ↔
    0 < eps ∧ ∀ b ∈ bound, 0 < gap b := by
  cases bound with
  | none => simp [shrink]
  | some b => simp [shrink, Reals.min_eq, half_max]

theorem shrink_le : shrink eps (bound.map fun b => Scalar.max (gap b) 0.0) ≤ eps := by
  cases bound with
  | none => exact le_rfl
  | some b => exact (Reals.min_eq _ _).trans_le (min_le_left _ _)

theorem shrink_lt {b : ℝ} (hb : b ∈ bound) (h : 0 < gap b) :
    shrink eps (bound.map fun b => Scalar.max (gap b) 0.0) < gap b := by
  obtain rfl := hb
  refine (Reals.min_eq _ _).trans_lt ((min_le_right _ _).trans_lt ?_)
  rw [half_max, max_eq_left h.le]
  exact half_lt_self h

end

/-- **A coordinate has room** exactly if the step is positive and it touches no bound. -/
theorem stepAt_pos_iff {relative : ℝ} {c : ℝ × Bounds ℝ} :
    0 < stepAt relative c ↔ 0 < relative ∧ c.2.Holds c.1 := by
  have hsize : 0 < relative * (|c.1| + 1.0) ↔ 0 < relative :=
    mul_pos_iff_of_pos_right (by positivity)
  rw [stepAt, stepOf_eq, shrink_pos_iff, shrink_pos_iff, hsize, and_assoc]
  simp only [sub_pos, Bounds.Holds]

theorem stepAt_lt (relative : ℝ) {c : ℝ × Bounds ℝ} (h : c.2.Holds c.1) :
    (∀ lo ∈ c.2.1, stepAt relative c < c.1 - lo) ∧ ∀ hi ∈ c.2.2, stepAt relative c < hi - c.1 := by
  rw [stepAt, stepOf_eq]
  exact ⟨fun lo hlo => shrink_le.trans_lt (shrink_lt hlo (sub_pos.mpr (h.1 lo hlo))),
    fun hi hhi => shrink_lt hhi (sub_pos.mpr (h.2 hi hhi))⟩

/-- **A displaced coordinate touches no bound**. -/
theorem holds_of_near {relative : ℝ} {c : ℝ × Bounds ℝ} (h : c.2.Holds c.1) {v : ℝ}
    (hv : |v - c.1| ≤ stepAt relative c) : c.2.Holds v := by
  obtain ⟨hbelow, habove⟩ := stepAt_lt relative h
  obtain ⟨hdown, hup⟩ := abs_le.mp hv
  exact ⟨fun lo hlo => by linarith [hbelow lo hlo], fun hi hhi => by linarith [habove hi hhi]⟩

/-! ### The points that are probed -/

section

variable {relative : ℝ} {x : List ℝ} {bounds : List (Bounds ℝ)} {coords : List (ℝ × Bounds ℝ)}

/-- Every coordinate of a point lies strictly between the bounds it faces. -/
def Inside (coords : List (ℝ × Bounds ℝ)) (p : List ℝ) : Prop :=
  List.Forall₂ (fun c v => c.2.Holds v) coords p

theorem inside_mapIdx (hroom : ∀ c ∈ coords, 0 < stepAt relative c) {g : ℕ → ℝ × Bounds ℝ → ℝ}
    (hg : ∀ k c, 0 < stepAt relative c → |g k c - c.1| ≤ stepAt relative c) :
    Inside coords (coords.mapIdx g) := by
  refine List.forall₂_iff_get.mpr ⟨by simp, fun k hk _ => ?_⟩
  have hpos := hroom _ (List.getElem_mem hk)
  simpa using holds_of_near (stepAt_pos_iff.mp hpos).2 (hg k coords[k] hpos)

/-- A coordinate is displaced by its step or not at all. -/
theorem once_le {e : ℝ} (he : 0 < e) (P : Prop) [Decidable P] : |if P then e else 0.0| ≤ e := by
  split_ifs
  · exact (abs_of_pos he).le
  · norm_num
    exact he.le

/-- Two displacements do not meet in one coordinate. -/
theorem twice_le {e : ℝ} (he : 0 < e) {i j : ℕ} (hij : i ≠ j) (k : ℕ) :
    |if k = i then e else 0.0| + |if k = j then e else 0.0| ≤ e := by
  have hzero : |(0.0 : ℝ)| = 0 := by rw [Reals.zero_eq, abs_zero]
  by_cases hk : k = i
  · subst hk
    rw [if_pos rfl, if_neg hij, abs_of_pos he, hzero, add_zero]
  · rw [if_neg hk, hzero, zero_add]
    exact once_le he _

theorem near_of_twice {u a b e : ℝ} (h : |a| + |b| ≤ e) : |u + a + b - u| ≤ e ∧
    |u + a - b - u| ≤ e ∧ |u - a + b - u| ≤ e ∧ |u - a - b - u| ≤ e := by
  obtain ⟨ha, ha'⟩ := abs_le.mp (le_refl |a|)
  obtain ⟨hb, hb'⟩ := abs_le.mp (le_refl |b|)
  refine ⟨?_, ?_, ?_, ?_⟩ <;> rw [abs_le] <;> constructor <;> linarith

variable (hf : Faces x bounds coords) (hroom : ∀ c ∈ coords, 0 < stepAt relative c)

include hf hroom

theorem diagonal_within (f0 : ℝ) (i : ℕ) :
    (diagonal Search.ask x f0 (coords.map (stepAt relative)) i).Within (Inside coords)
      fun _ => True := by
  simp only [diagonal, shift_eq, add, sub, hf.join]
  refine (Search.Within.ask ?up).bind fun _ _ => (Search.Within.ask ?down).bind fun _ _ =>
    .done trivial
  case up =>
    refine inside_mapIdx hroom fun k c hc => ?_
    rw [add_sub_cancel_left]
    exact once_le hc _
  case down =>
    refine inside_mapIdx hroom fun k c hc => ?_
    rw [sub_sub_cancel_left, abs_neg]
    exact once_le hc _

theorem mixed_within {i j : ℕ} (hij : i ≠ j) :
    (mixed Search.ask x (coords.map (stepAt relative)) i j).Within (Inside coords)
      fun _ => True := by
  have hnear : ∀ k (c : ℝ × Bounds ℝ), 0 < stepAt relative c → _ := fun k c hc =>
    near_of_twice (u := c.1) (twice_le hc hij k)
  simp only [mixed, shift_eq, add, sub, hf.join, join_mapIdx]
  exact (Search.Within.ask (inside_mapIdx hroom fun k c hc => (hnear k c hc).1)).bind fun _ _ =>
    (Search.Within.ask (inside_mapIdx hroom fun k c hc => (hnear k c hc).2.1)).bind fun _ _ =>
    (Search.Within.ask (inside_mapIdx hroom fun k c hc => (hnear k c hc).2.2.1)).bind fun _ _ =>
    (Search.Within.ask (inside_mapIdx hroom fun k c hc => (hnear k c hc).2.2.2)).bind fun _ _ =>
    .done trivial

theorem row_within (f0 : ℝ) (i : ℕ) :
    (row Search.ask x f0 (coords.map (stepAt relative)) i).Within (Inside coords)
      fun _ => True :=
  (diagonal_within hf hroom f0 i).bind fun _ _ =>
    (Search.Within.mapM fun _ hj => mixed_within hf hroom (List.mem_range.mp hj).ne').bind
      fun _ _ => .done trivial

end

end Hessian

/-! ### The whole matrix -/

section

variable {α : Type} [Scalar α] {m : Type → Type} [Monad m] {f : List α → m α} {x : List α}
  {f0 : α} {bounds : List (Bounds α)} {relative : Option α} {coords : List (α × Bounds α)}

theorem hessian_of_faces (h : Hessian.Faces x bounds coords) :
    hessian f x f0 bounds relative =
      let eps := coords.map (Hessian.stepAt (relative.getD 1e-4))
      if eps.any (Scalar.le · 0.0) then pure (.ok none)
      else do
        let lower ← (List.range x.length).mapM (Hessian.row f x f0 eps)
        return .ok (some (Hessian.full lower)) := by
  unfold hessian
  rw [h.steps]

end

/-- A point cannot be displaced: there is a coordinate but no positive step, or a coordinate
lies on or outside a bound. -/
def Hessian.Blocked (relative : Option ℝ) (coords : List (ℝ × Bounds ℝ)) : Prop :=
  (coords ≠ [] ∧ relative.getD 1e-4 ≤ 0) ∨ ∃ c ∈ coords, ¬ c.2.Holds c.1

namespace Hessian

variable {relative : Option ℝ} {x : List ℝ} {bounds : List (Bounds ℝ)}
  {coords : List (ℝ × Bounds ℝ)}

theorem not_blocked_iff :
    ¬ Blocked relative coords ↔ ∀ c ∈ coords, 0 < stepAt (relative.getD 1e-4) c := by
  simp only [stepAt_pos_iff, Blocked, not_or, not_and, not_le, not_exists, not_not]
  constructor
  · rintro ⟨hstep, hbounds⟩ c hc
    exact ⟨hstep (List.ne_nil_of_mem hc), hbounds c hc⟩
  · intro h
    refine ⟨fun hne => ?_, fun c hc => (h c hc).2⟩
    obtain ⟨c, hc⟩ := List.exists_mem_of_ne_nil coords hne
    exact (h c hc).1

theorem any_le_zero_iff :
    (coords.map (stepAt (relative.getD 1e-4))).any (Scalar.le · 0.0) = true ↔
      Blocked relative coords := by
  rw [← not_iff_not, not_blocked_iff]
  simp [Reals.le_iff, Reals.zero_eq]

theorem hessian_of_blocked {m : Type → Type} [Monad m] {f : List ℝ → m ℝ} {f0 : ℝ}
    (hf : Faces x bounds coords) (h : Blocked relative coords) :
    hessian f x f0 bounds relative = pure (.ok none) := by
  rw [hessian_of_faces hf]
  exact if_pos (any_le_zero_iff.mpr h)

theorem hessian_of_room {m : Type → Type} [Monad m] {f : List ℝ → m ℝ} {f0 : ℝ}
    (hf : Faces x bounds coords) (h : ¬ Blocked relative coords) :
    hessian f x f0 bounds relative = do
      let lower ← (List.range x.length).mapM
        (row f x f0 (coords.map (stepAt (relative.getD 1e-4))))
      return .ok (some (full lower)) := by
  rw [hessian_of_faces hf]
  exact if_neg (any_le_zero_iff.not.mpr h)

theorem hessian_within (hf : Faces x bounds coords) (f0 : ℝ) (h : ¬ Blocked relative coords) :
    (hessian Search.ask x f0 bounds relative).Within (Inside coords)
      fun r => ∃ H, r = .ok (some H) := by
  rw [hessian_of_room hf h]
  exact (Search.Within.mapM fun i _ => row_within hf (not_blocked_iff.mp h) f0 i).bind
    fun lower _ => .done ⟨full lower, rfl⟩

/-- Bounds that do not fit the coordinates are refused. -/
theorem hessian_of_unfit {m : Type → Type} [Monad m] {f : List ℝ → m ℝ} {f0 : ℝ}
    (h : ∀ coords, ¬ Faces x bounds coords) :
    ∃ e, hessian f x f0 bounds relative = pure (.error e) := by
  unfold hessian
  cases hsteps : steps (relative.getD 1e-4) x bounds with
  | error e => exact ⟨e, rfl⟩
  | ok eps =>
    obtain ⟨coords, hf⟩ := faces_of_steps hsteps
    exact absurd hf (h coords)

/-- **Where a function is probed for its second derivatives.** -/
theorem probes_inside (x : List ℝ) (f0 : ℝ) (bounds : List (Bounds ℝ)) (relative : Option ℝ) :
    let calls := hessian Search.ask x f0 bounds relative
    (∀ (m : Type → Type) [Monad m] [LawfulMonad m] (f : List ℝ → m ℝ),
      hessian f x f0 bounds relative = calls.run f) ∧
    (∀ coords, Faces x bounds coords →
      (calls = .done (.ok none) ↔ Blocked relative coords) ∧
      (¬ Blocked relative coords →
        calls.Within (Inside coords) fun r => ∃ H, r = .ok (some H))) ∧
    ((∀ coords, ¬ Faces x bounds coords) → ∃ e, calls = .done (.error e)) := by
  intro calls
  refine ⟨fun m _ _ f => (hessian_run f x f0 bounds relative).symm, fun coords hf => ?_,
    hessian_of_unfit⟩
  have hroom : ¬ Blocked relative coords →
      calls.Within (Inside coords) fun r => ∃ H, r = .ok (some H) := hessian_within hf f0
  refine ⟨⟨fun hcalls => ?_, hessian_of_blocked hf⟩, hroom⟩
  -- without a block every run ends with a matrix, so this one would
  by_contra hfree
  have hwithin := hroom hfree
  rw [hcalls] at hwithin
  obtain ⟨H, hH⟩ := hwithin.result
  cases hH

/-- Two positive coordinates that are to stay positive. -/
theorem probes_inside_shared :
    let coords : List (ℝ × Bounds ℝ) := [(1, (some 0, none)), (2, (some 0, none))]
    ¬ Blocked none coords ∧ (hessian Search.ask [1, 2] 5 [(some 0, none)] none).Within
      (Inside coords) fun r => ∃ H, r = .ok (some H) := by
  intro coords
  have hfree : ¬ Blocked none coords := by
    have hstep : (0 : ℝ) < 1e-4 := by norm_num
    simp [coords, Blocked, Bounds.Holds, hstep]
  exact ⟨hfree,
    ((probes_inside [1, 2] 5 [(some 0, none)] none).2.1 coords (.shared [1, 2] _)).2 hfree⟩

/-- Without coordinates nothing is blocked, whatever the step. -/
theorem hessian_of_no_coordinates : ¬ (0 : ℝ) < 0 ∧
    hessian Search.ask [] 1 [] (some (0 : ℝ)) = .done (.ok (some [])) := by
  have h : ¬ Blocked (some 0) [] := by simp [Blocked]
  exact ⟨lt_irrefl 0, hessian_of_room (.each []) h⟩

end Hessian

end DensityAlgebra
