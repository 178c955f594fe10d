/-
# The bounding box of the region

Integrals are sums over a grid in the box of the pair masses, marginal densities are sums over a
grid on one of its sides, and events are drawn from the box. In exact arithmetic the accepted
points lie in the box, and so none of them is missed: on every axis a point is within half a bin
of a midpoint, however fine the grid is, and there are numbers between zero and one that draw
the point.

Key definitions: `PhaseSpace.Covers`.
Key theorems: `Grid.exists_near`, `exists_uniform`, `PhaseSpace.region_covered`.
-/
import Mathlib.Analysis.SpecialFunctions.Pow.Real
import Mathlib.Analysis.SpecialFunctions.Complex.Arg
import DensityAlgebra.Proofs.Drawing
import DensityAlgebra.Proofs.Marginals
import DensityAlgebra.Proofs.Regions

namespace DensityAlgebra

/-! ### Intervals -/

/-- A number between zero and `n` lies between two neighbouring numbers up to `n`. -/
theorem exists_unit {t : ℝ} {n : ℕ} (hn : 0 < n) (h0 : 0 ≤ t) (h : t ≤ n) :
    ∃ k < n, (k : ℝ) ≤ t ∧ t ≤ k + 1 := by
  rcases h.lt_or_eq with hlt | rfl
  · exact ⟨⌊t⌋₊, (Nat.floor_lt h0).mpr hlt, Nat.floor_le h0, (Nat.lt_floor_add_one t).le⟩
  · obtain ⟨k, rfl⟩ := Nat.exists_eq_add_one.mpr hn
    refine ⟨k, Nat.lt_succ_self k, ?_, ?_⟩ <;> push_cast
    · exact (lt_add_one _).le
    · exact le_rfl

/-- **A grid covers its interval**: every point is within half a bin of a midpoint. -/
theorem Grid.exists_near {lo hi x dx : ℝ} {n : ℤ} {xs : List ℝ}
    (h : (bins lo hi n : Except (Fault ℝ) _) = .ok (xs, dx)) (hx : x ∈ Set.Icc lo hi) :
    ∃ y ∈ xs, |x - y| ≤ dx / 2 := by
  obtain ⟨hn, hdx, rfl⟩ := bins_eq h
  obtain ⟨hlo, hhi⟩ := hx
  have hcount : (n.toNat : ℝ) = n := by exact_mod_cast Int.toNat_of_nonneg hn.le
  have hpos : (0 : ℝ) < n := by exact_mod_cast hn
  have hwidth : dx * n.toNat = hi - lo := by rw [hcount, hdx, div_mul_cancel₀ _ hpos.ne']
  have hnonneg : 0 ≤ dx := hdx ▸ div_nonneg (by linarith) hpos.le
  obtain ⟨k, hk, hbelow, habove⟩ :
      ∃ k < n.toNat, dx * k ≤ x - lo ∧ x - lo ≤ dx * (k + 1) := by
    -- the bins of an interval without width are all the same point
    rcases hnonneg.eq_or_lt with rfl | hdxpos
    · exact ⟨0, by omega, by linarith, by linarith⟩
    · have hle : (x - lo) / dx ≤ n.toNat := (div_le_iff₀' hdxpos).mpr (by linarith)
      obtain ⟨k, hk, hbelow, habove⟩ :=
        exists_unit (by omega) (div_nonneg (by linarith) hnonneg) hle
      exact ⟨k, hk, (le_div_iff₀' hdxpos).mp hbelow, (div_le_iff₀' hdxpos).mp habove⟩
  refine ⟨_, List.mem_map_of_mem (List.mem_range.mpr hk), ?_⟩
  rw [abs_le]
  constructor <;> linarith

/-- **Uniform draws cover their interval.** -/
theorem exists_uniform {lo hi x : ℝ} (hx : x ∈ Set.Icc lo hi) :
    ∃ u ∈ Set.Icc (0 : ℝ) 1, uniform lo hi u = x := by
  obtain ⟨hlo, hhi⟩ := hx
  have hroom : 0 ≤ hi - lo := by linarith
  refine ⟨(x - lo) / (hi - lo), ⟨div_nonneg (by linarith) hroom,
    div_le_one_of_le₀ (by linarith) hroom⟩, ?_⟩
  unfold uniform
  rcases hroom.eq_or_lt with hzero | hpos
  · rw [← hzero]
    linarith
  · rw [mul_div_cancel₀ _ hpos.ne']
    ring

namespace PhaseSpace

variable {p : PhaseSpace ℝ} {m12 m13 m23 : ℝ} {sq : ℝ → ℝ}

/-- A point is not missed: it lies in the box of the pair masses; on each axis, however many bins
there are, it is within half a bin of a midpoint; and two numbers between zero and one draw it. -/
structure Covers (p : PhaseSpace ℝ) (m12 m13 m23 : ℝ) : Prop where
  box : ∀ i : Pair, i.select m12 m13 m23 ∈ Set.Icc (p.sqMin i) (p.sqMax i)
  bins : ∀ (i : Pair) n xs dx, Grid.bins (p.sqMin i) (p.sqMax i) n =
    (.ok (xs, dx) : Except (Fault ℝ) _) → ∃ x ∈ xs, |i.select m12 m13 m23 - x| ≤ dx / 2
  drawn : ∃ u ∈ Set.Icc (0 : ℝ) 1, ∃ v ∈ Set.Icc (0 : ℝ) 1,
    Decay.candidate p u v = (m12, m13, m23)

theorem select_eq (m12 m13 m23 : ℝ) (i : Pair) :
    i.select m12 m13 m23 = ![m23, m13, m12] i.leftOut := by
  cases i <;> rfl

/-- **No accepted point is missed.** -/
theorem region_covered (hp : p.Allowed) (hsq : sq = Scalar.square ∨ sq = Scalar.selfProduct)
    (hsum : m12 + m13 + m23 = p.sqSum) (hin : p.contains sq m12 m13 m23 = true) :
    p.Covers m12 m13 m23 := by
  have hplane : ∑ k, ![m23, m13, m12] k = p.sqSum := by
    rw [← hsum, Fin.sum_univ_three]
    simp only [Matrix.cons_val]
    ring
  have hpos : 0 < m12 := (admits_iff.mp (contains_eq.mp hin).1).2.2
  have hregion := (contains_iff hp (sq_of_either hsq) hplane hpos).mp hin
  have hbox : ∀ i : Pair, i.select m12 m13 m23 ∈ Set.Icc (p.sqMin i) (p.sqMax i) := fun i =>
    select_eq m12 m13 m23 i ▸ (inRegion_iff.mp hregion).1 i
  obtain ⟨u, hu, hfirst⟩ := exists_uniform (hbox .of12)
  obtain ⟨v, hv, hsecond⟩ := exists_uniform (hbox .of13)
  refine ⟨hbox, fun i n xs dx h => Grid.exists_near h (hbox i), u, hu, v, hv, ?_⟩
  have hthird : p.third m12 m13 = m23 := by
    rw [third, ← hsum]
    ring
  simp only [Decay.candidate]
  rw [hfirst, hsecond]
  exact Prod.ext rfl (Prod.ext rfl hthird)

theorem region_covered_unequal : unequal.contains Scalar.square 5 15 26 = true ∧
    unequal.Covers 5 15 26 := by
  have hsum : (5 : ℝ) + 15 + 26 = unequal.sqSum := by norm_num [sqSum_eq, unequal]
  exact ⟨contains_unequal, region_covered allowed_unequal (.inl rfl) hsum contains_unequal⟩

end PhaseSpace

end DensityAlgebra
