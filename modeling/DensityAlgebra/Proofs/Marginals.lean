/-
# The norm, the grid and the marginal density

In exact arithmetic a decay density whose stored normalization is its integral, and positive,
adds up to one over the grid of midpoints on which that integral was taken; and so does its
marginal density in m12 over the midpoints of m12. Integral and marginal density build their
grids, leave out what lies outside and add up in different ways: the integral takes the points
inside out of one long list, the marginal density puts values back into a table and adds up its
rows. Both come to one double sum.

Key definitions: `Decay.binWidth`, `Decay.binCenter`, `Decay.gridPoint`, `Decay.AddsUp`.
Key theorems: `Grid.bins_eq`, `Decay.Numerator.integral_eq_sum`, `Decay.marginal_eq_sum`,
`Decay.normalized_on_grid`.
-/
import Mathlib.Algebra.BigOperators.Field
import DensityAlgebra.Proofs.Reals

namespace DensityAlgebra

/-! ### Grids of real numbers -/

/-- The bins of an interval that can be cut into so many. -/
theorem Grid.bins_eq {lo hi : ℝ} {n : ℤ} {xs : List ℝ} {dx : ℝ}
    (h : (bins lo hi n : Except (Fault ℝ) _) = .ok (xs, dx)) :
    0 < n ∧ dx = (hi - lo) / n ∧
      xs = (List.range n.toNat).map fun k : ℕ => lo + dx * (k + 1 / 2) := by
  simp only [bins] at h
  split_ifs at h with hsmall
  obtain ⟨rfl, rfl⟩ := Prod.mk.inj (Except.ok.inj h)
  refine ⟨by omega, by rw [Reals.ofInt_eq], List.map_congr_left fun k _ => ?_⟩
  show lo + _ * ((k : ℝ) + 0.5) = _
  norm_num

/-- An interval can be cut into as many bins as any other. -/
theorem Grid.bins_ok {α : Type} [Scalar α] {lo hi : α} {n : ℤ} {b : List α × α}
    (h : (bins lo hi n : Except (Fault α) _) = .ok b) (lo' hi' : α) :
    ∃ ys dy, (bins lo' hi' n : Except (Fault α) _) = .ok (ys, dy) := by
  simp only [bins] at h ⊢
  split_ifs at h ⊢
  exact ⟨_, _, rfl⟩

namespace Decay

variable {s : Store ℝ} {d : Decay ℝ} {f : ℝ × ℝ × ℝ → ℝ}

/-- The number of bins per axis. -/
noncomputable def binCount (s : Store ℝ) (d : Decay ℝ) : ℕ := (s.state d.state).resolution.toNat

/-- The width of the bins of a variable. -/
noncomputable def binWidth (s : Store ℝ) (d : Decay ℝ) (i : Pair) : ℝ :=
  (d.space.sqMax i - d.space.sqMin i) / d.binCount s

/-- The midpoint of bin `k` of a variable. -/
noncomputable def binCenter (s : Store ℝ) (d : Decay ℝ) (i : Pair) (k : ℕ) : ℝ :=
  d.space.sqMin i + d.binWidth s i * (k + 1 / 2)

/-- The point of the grid at bin `j` of m12 and bin `k` of m13. -/
noncomputable def gridPoint (s : Store ℝ) (d : Decay ℝ) (j k : ℕ) : ℝ × ℝ × ℝ :=
  let x := d.binCenter s .of12 j
  let y := d.binCenter s .of13 k
  (x, y, d.space.third x y)

/-- A density that has an integral has a grid on each axis. -/
theorem bins_of_integral {x : ℝ} (h : d.integral s = .ok x) (i : Pair) :
    Grid.bins (d.space.sqMin i) (d.space.sqMax i) (s.state d.state).resolution =
      (.ok ((List.range (d.binCount s)).map (d.binCenter s i), d.binWidth s i) :
        Except (Fault ℝ) _) := by
  obtain ⟨b, hb, -⟩ := bind_eq_ok_iff.mp h
  obtain ⟨ys, dy, hy⟩ := Grid.bins_ok hb (d.space.sqMin i) (d.space.sqMax i)
  obtain ⟨hpos, hdy, hys⟩ := Grid.bins_eq hy
  have hcount : ((s.state d.state).resolution : ℝ) = (d.binCount s : ℝ) := by
    have hnat := Int.toNat_of_nonneg hpos.le
    exact_mod_cast hnat.symm
  have hwidth : dy = d.binWidth s i := by rw [hdy, hcount, binWidth]
  rw [hy, hys, hwidth]
  rfl

/-! ### Double sums -/

/-- A sum over a list of numbers is a sum over the numbers. -/
theorem sum_map_range (n : ℕ) (g : ℕ → ℝ) :
    ((List.range n).map g).sum = ∑ k ∈ Finset.range n, g k := rfl

theorem masked_eq (p : PhaseSpace ℝ) (f : ℝ × ℝ × ℝ → ℝ) (e : ℝ × ℝ × ℝ) :
    masked p f e = if p.contains Scalar.square e.1 e.2.1 e.2.2 then f e else 0 := by
  unfold masked
  rw [Reals.square_eq_selfProduct]
  norm_num

/-- The sum over what lies inside is the sum over everything, where nothing outside counts. -/
theorem sum_inside (p : PhaseSpace ℝ) (f : ℝ × ℝ × ℝ → ℝ) (es : List (ℝ × ℝ × ℝ)) :
    ((es.filter fun e => p.contains Scalar.selfProduct e.1 e.2.1 e.2.2).map f).sum =
      (es.map (masked p f)).sum := by
  induction es with
  | nil => rfl
  | cons e es ih =>
    cases hin : p.contains Scalar.selfProduct e.1 e.2.1 e.2.2 with
    | true => simp [masked, hin, ih]
    | false =>
      have hzero : (0.0 : ℝ) = 0 := by norm_num
      simp [masked, hin, ih, hzero]

/-- **A sum over the points inside** is a double sum over the grid. -/
theorem sum_insidePoints (p : PhaseSpace ℝ) (f : ℝ × ℝ × ℝ → ℝ) (x y : ℕ → ℝ) (m n : ℕ) :
    ((insidePoints p ((List.range m).map x) ((List.range n).map y)).map f).sum =
      ∑ j ∈ Finset.range m, ∑ k ∈ Finset.range n,
        masked p f (x j, y k, p.third (x j) (y k)) := by
  refine (sum_inside p f _).trans ?_
  rw [List.map_flatMap, List.flatMap_def, List.sum_flatten, List.map_map, List.map_map,
    sum_map_range]
  refine Finset.sum_congr rfl fun j _ => ?_
  simp only [Function.comp_apply, List.map_map]
  exact sum_map_range n _

/-- **The integral as a double sum.** -/
theorem Numerator.integral_eq_sum (h : d.Numerator s f) {x : ℝ} (hx : d.integral s = .ok x) :
    x = (∑ j ∈ Finset.range (d.binCount s), ∑ k ∈ Finset.range (d.binCount s),
      masked d.space f (d.gridPoint s j k)) * (d.binWidth s .of12 * d.binWidth s .of13) := by
  have hsum := h.integral (bins_of_integral hx .of12) (bins_of_integral hx .of13)
  rw [hx, Except.ok.injEq, Reals.sum_eq, sum_insidePoints] at hsum
  rw [hsum, mul_assoc]
  rfl

/-- **The marginal density of m12 as a sum.** -/
theorem marginal_eq_sum (g : ℝ × ℝ × ℝ → ℝ) (x : ℝ) :
    marginal d.space g .of12 ((List.range (d.binCount s)).map (d.binCenter s .of13))
        (d.binWidth s .of13) x =
      (∑ k ∈ Finset.range (d.binCount s), masked d.space g
        (x, d.binCenter s .of13 k, d.space.third x (d.binCenter s .of13 k))) *
          d.binWidth s .of13 := by
  unfold marginal
  rw [Reals.sum_eq, List.map_map, sum_map_range]
  rfl

/-! ### The two sums -/

/-- The density is `f` at every point and has the marginal density `q` in m12, alone or in
columns, and both add up to one: `f` over the grid points inside of the Dalitz region, times the
area of a bin, and `q` over the midpoints of m12, times the width of a bin. -/
structure AddsUp (s : Store ℝ) (d : Decay ℝ) (f : ℝ × ℝ × ℝ → ℝ) (q : ℝ → ℝ) : Prop where
  point : ∀ ρ : View (ℝ × ℝ × ℝ), d.evaluateAt s ((Quantity.varying (·.1)).view ρ)
    ((Quantity.varying (·.2.1)).view ρ) (some ((Quantity.varying (·.2.2)).view ρ)) =
      .ok ((Quantity.varying f).view ρ)
  pair : ∀ ρ : View (ℝ × ℝ), d.evaluateAt s ((Quantity.varying (·.1)).view ρ)
    ((Quantity.varying (·.2)).view ρ) none =
      .ok ((Quantity.varying fun e => f (e.1, e.2, d.space.third e.1 e.2)).view ρ)
  marginal : ∀ ρ : View ℝ, d.project s d.role12 ((Quantity.varying id).view ρ) =
    .ok ((Quantity.varying q).view ρ)
  total : (∑ j ∈ Finset.range (d.binCount s), ∑ k ∈ Finset.range (d.binCount s),
    let e := d.gridPoint s j k
    if d.space.contains Scalar.square e.1 e.2.1 e.2.2 then f e else 0) *
      (d.binWidth s .of12 * d.binWidth s .of13) = 1
  marginalTotal : (∑ j ∈ Finset.range (d.binCount s), q (d.binCenter s .of12 j)) *
    d.binWidth s .of12 = 1

/-- **The stored norm normalizes the density on its grid**, and its marginal density as well,
for every decay density that is pointwise and stores its integral, if that is positive. -/
theorem normalized_on_grid (s : Store ℝ) (d : Decay ℝ) (hpoint : d.Pointwise s)
    (hfresh : d.Fresh s) (hpos : 0 < (s.state d.state).norm) : ∃ f q, d.AddsUp s f q := by
  obtain ⟨f, hf⟩ := hpoint.numerator Reals.powersAgree
  set norm := (s.state d.state).norm with hnorm
  have hrole : d.roleOf? d.role12 = some .of12 := if_pos rfl
  have hbins : Grid.bins (d.space.sqMin (Pair.next .of12)) (d.space.sqMax (Pair.next .of12))
      (s.state d.state).resolution = (.ok _ : Except (Fault ℝ) _) := bins_of_integral hfresh .of13
  -- dividing every value by the norm divides the sum by it
  have hmasked : ∀ e, masked d.space (normalized s d f) e = masked d.space f e / norm := by
    intro e
    rw [masked_eq, masked_eq]
    split_ifs
    · rfl
    · exact (zero_div norm).symm
  have htotal : (∑ j ∈ Finset.range (d.binCount s), ∑ k ∈ Finset.range (d.binCount s),
      masked d.space (normalized s d f) (d.gridPoint s j k)) *
        (d.binWidth s .of12 * d.binWidth s .of13) = 1 := by
    have hsum := hf.integral_eq_sum hfresh
    simp only [hmasked, ← Finset.sum_div]
    rw [div_mul_eq_mul_div, ← hsum]
    exact div_self hpos.ne'
  refine ⟨normalized s d f, _,
    { point := hf.evaluateAt _ _ _
      pair := hf.evaluateAt_pair _ _
      marginal := hf.project hbins hrole id
      total := by simpa only [masked_eq] using htotal
      marginalTotal := ?_ }⟩
  rw [← htotal]
  simp only [id, marginal_eq_sum, ← Finset.sum_mul]
  rw [mul_assoc, mul_comm (d.binWidth s .of13)]
  rfl

/-- The density of the sample session adds up to one over the grid points inside, of which there
are three. -/
theorem normalized_on_grid_massless :
    let s := (Session.after Reals.calls).store
    Reals.decay.Pointwise s ∧ Reals.decay.Fresh s ∧
      (s.state Reals.decay.state).norm = 331 / 1700 ∧ Reals.decay.binCount s = 2 ∧
      insidePoints Reals.decay.space [1 / 4, 3 / 4] [1 / 4, 3 / 4] =
        [(1 / 4, 1 / 4, 1 / 2), (1 / 4, 3 / 4, 0), (3 / 4, 1 / 4, 0)] ∧
      ∃ f q, Reals.decay.AddsUp s f q := by
  intro s
  obtain ⟨hfresh, hnorm⟩ := Reals.fresh_calls
  have hpos : 0 < (s.state Reals.decay.state).norm := by
    rw [hnorm]
    norm_num
  have hcount : Reals.decay.binCount s = 2 :=
    congrArg (fun x : DecayState ℝ => x.resolution.toNat) (Reals.decay_calls.2.state ⟨0⟩)
  exact ⟨Reals.pointwise_calls, hfresh, hnorm, hcount, Reals.insidePoints_space,
    normalized_on_grid s _ Reals.pointwise_calls hfresh hpos⟩

end Decay

end DensityAlgebra
