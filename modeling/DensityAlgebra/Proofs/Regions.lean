/-
# The region and the numbering of the daughters

The Dalitz region is decided from m12 and m23 alone: m12 has to lie between its limits, and m23
in a range that comes from energies and momenta in the rest frame of the pair (12). In exact
arithmetic the region is described by the three squared pair masses on an equal footing. Each
lies between the squared mass of its daughters and that of what the third daughter leaves, and
the determinant of the products of the four-momenta is not negative.

In the rest frame four times that determinant is the squared mass of the pair times the
difference of two squares, one of the momenta and one of m23 off the middle of its range. So its
sign says that m23 is in the range, and then the limits of m13 and m23 hold of themselves, since
the product of two momenta is at most that of the energies less that of the masses. As the
determinant is symmetric, the region does not depend on how the daughters are numbered.

Key definitions: `PhaseSpace.Allowed`, `PhaseSpace.Frame`, `PhaseSpace.gram`,
`PhaseSpace.InRegion`.
Key theorems: `PhaseSpace.ofMasses_eq_ok_iff`, `PhaseSpace.exists_frame`,
`PhaseSpace.Frame.box`, `PhaseSpace.Frame.gram_eq`, `PhaseSpace.contains_iff`,
`PhaseSpace.InRegion.comp_iff`, `PhaseSpace.contains_renumbered`.
-/
import Mathlib.Analysis.SpecialFunctions.Pow.Real
import Mathlib.Analysis.SpecialFunctions.Complex.Arg
import Mathlib.Tactic.LinearCombination
import DensityAlgebra.Proofs.Reals

namespace DensityAlgebra

/-- The daughter that a pair leaves out. -/
def Pair.leftOut : Pair → Fin 3
  | of12 => 2
  | of13 => 1
  | of23 => 0

theorem Pair.leftOut_surjective : Function.Surjective Pair.leftOut
  | 0 => ⟨of23, rfl⟩
  | 1 => ⟨of13, rfl⟩
  | 2 => ⟨of12, rfl⟩

namespace PhaseSpace

/-! ### Allowed masses -/

/-- No daughter has a negative mass, and the mother is heavier than the daughters together. -/
structure Allowed (p : PhaseSpace ℝ) : Prop where
  m1_nonneg : 0 ≤ p.m1
  m2_nonneg : 0 ≤ p.m2
  m3_nonneg : 0 ≤ p.m3
  sum_lt : p.m1 + p.m2 + p.m3 < p.mother

theorem ofMasses_eq_ok_iff {mother m1 m2 m3 : ℝ} {p : PhaseSpace ℝ} :
    ofMasses mother m1 m2 m3 = .ok p ↔ p = ⟨mother, m1, m2, m3⟩ ∧ p.Allowed := by
  have hsquares : ∀ q : PhaseSpace ℝ, q.hasSquares = true := fun q => by
    simp [hasSquares, Scalar.square?, Scalar.isFinite]
  have haccepted : ofMasses mother m1 m2 m3 = accept mother m1 m2 m3 := by
    unfold ofMasses
    cases accept mother m1 m2 m3 with
    | error f => rfl
    | ok q =>
      simp only [ok_bind]
      rw [if_pos (hsquares q)]
  simp only [haccepted, accept, Reals.zero_eq, zero_add, List.any_cons, List.any_nil,
    Bool.or_eq_true, Bool.or_false, Reals.lt_iff, Reals.le_iff]
  constructor
  · intro h
    split_ifs at h with hdaughter hmother hsum
    obtain rfl := Except.ok.inj h
    simp only [not_or, not_lt] at hdaughter
    obtain ⟨h1, h2, h3⟩ := hdaughter
    exact ⟨rfl, h1, h2, h3, not_le.mp hsum⟩
  · rintro ⟨rfl, h1, h2, h3, hsum⟩
    simp only at h1 h2 h3 hsum
    have hdaughter : ¬ (m1 < 0 ∨ m2 < 0 ∨ m3 < 0) := by
      simp only [not_or, not_lt]
      exact ⟨h1, h2, h3⟩
    rw [if_neg hdaughter, if_neg (by linarith), if_neg (not_le.mpr hsum)]

/-! ### Energies and momenta -/

/-- Energies and momenta in the rest frame of the pair (12), whose mass is `mass`: the daughters
1 and 2 have opposite momenta, the third daughter has the momentum of the mother. -/
structure Frame (p : PhaseSpace ℝ) (mass e1 e2 e3 inner outer : ℝ) : Prop where
  mass_pos : 0 < mass
  energies : e1 + e2 = mass
  m1_le : p.m1 ≤ e1
  m2_le : p.m2 ≤ e2
  m3_le : p.m3 ≤ e3
  mother_le : p.mother ≤ mass + e3
  inner_nonneg : 0 ≤ inner
  outer_nonneg : 0 ≤ outer
  inner_first : inner ^ 2 = e1 ^ 2 - p.m1 ^ 2
  inner_second : inner ^ 2 = e2 ^ 2 - p.m2 ^ 2
  outer_third : outer ^ 2 = e3 ^ 2 - p.m3 ^ 2
  outer_mother : outer ^ 2 = (mass + e3) ^ 2 - p.mother ^ 2

variable {p : PhaseSpace ℝ} {m12 m13 m23 : ℝ} {sq : ℝ → ℝ}

theorem admits_iff : p.admits m12 = true ↔
    p.sqMin .of12 ≤ m12 ∧ m12 ≤ p.sqMax .of12 ∧ 0 < m12 := by
  simp only [admits, Bool.and_eq_true, Reals.le_iff, Reals.lt_iff, Reals.zero_eq, and_assoc]

/-- The masses of an admitted pair. -/
theorem sqrt_of_admits (hp : p.Allowed) (h : p.admits m12 = true) :
    p.m1 + p.m2 ≤ √m12 ∧ √m12 ≤ p.mother - p.m3 := by
  obtain ⟨hlo, hhi, -⟩ := admits_iff.mp h
  simp only [sqMin, sqMax, pairMass, remainingMass, Reals.square_eq_sq] at hlo hhi
  obtain ⟨h1, h2, h3, hsum⟩ := hp
  exact ⟨Real.le_sqrt_of_sq_le hlo, Real.sqrt_le_iff.mpr ⟨by linarith, hhi⟩⟩

/-- The energies in the rest frame of a pair that is heavy enough for its daughters and leaves
enough to the third one. -/
theorem frame_of_energies {s e2 e3 : ℝ} (hp : p.Allowed) (hs : 0 < s) (hlo : p.m1 + p.m2 ≤ s)
    (hhi : s ≤ p.mother - p.m3) (hinner : e2 * (2 * s) = s ^ 2 - p.m1 ^ 2 + p.m2 ^ 2)
    (houter : e3 * (2 * s) = p.mother ^ 2 - s ^ 2 - p.m3 ^ 2) :
    0 ≤ e2 ^ 2 - p.m2 ^ 2 ∧ 0 ≤ e3 ^ 2 - p.m3 ^ 2 ∧
      p.Frame s (s - e2) e2 e3 √(e2 ^ 2 - p.m2 ^ 2) √(e3 ^ 2 - p.m3 ^ 2) := by
  have hdouble : 0 < 2 * s := by linarith
  obtain ⟨h1, h2, h3, hsum⟩ := hp
  -- each energy is at least its mass because a mass is at least the sum of its parts
  have hm1 : p.m1 ≤ s - e2 := le_of_mul_le_mul_right (by
    linarith [mul_nonneg (show 0 ≤ s - p.m1 - p.m2 by linarith)
      (show 0 ≤ s - p.m1 + p.m2 by linarith)]) hdouble
  have hm2 : p.m2 ≤ e2 := le_of_mul_le_mul_right (by
    linarith [mul_nonneg (show 0 ≤ s - p.m2 - p.m1 by linarith)
      (show 0 ≤ s - p.m2 + p.m1 by linarith)]) hdouble
  have hm3 : p.m3 ≤ e3 := le_of_mul_le_mul_right (by
    linarith [mul_nonneg (show 0 ≤ p.mother - (s + p.m3) by linarith)
      (show 0 ≤ p.mother + (s + p.m3) by linarith)]) hdouble
  have hmother : p.mother ≤ s + e3 := le_of_mul_le_mul_right (by
    linarith [mul_nonneg (show 0 ≤ p.mother - s - p.m3 by linarith)
      (show 0 ≤ p.mother - s + p.m3 by linarith)]) hdouble
  have hp2 : 0 ≤ e2 ^ 2 - p.m2 ^ 2 := sub_nonneg.mpr (pow_le_pow_left₀ h2 hm2 2)
  have hp3 : 0 ≤ e3 ^ 2 - p.m3 ^ 2 := sub_nonneg.mpr (pow_le_pow_left₀ h3 hm3 2)
  exact ⟨hp2, hp3,
    { mass_pos := hs
      energies := sub_add_cancel s e2
      m1_le := hm1
      m2_le := hm2
      m3_le := hm3
      mother_le := hmother
      inner_nonneg := Real.sqrt_nonneg _
      outer_nonneg := Real.sqrt_nonneg _
      inner_first := by
        rw [Real.sq_sqrt hp2]
        linear_combination hinner
      inner_second := Real.sq_sqrt hp2
      outer_third := Real.sq_sqrt hp3
      outer_mother := by
        rw [Real.sq_sqrt hp3]
        linear_combination -houter }⟩

/-- **The rest frame** of an admitted pair, in which the range of m23 is that of the angle
between the momenta of the daughters 2 and 3. -/
theorem exists_frame (hp : p.Allowed) (hsq : ∀ x, sq x = x ^ 2) (h : p.admits m12 = true) :
    ∃ s e1 e2 e3 inner outer, p.Frame s e1 e2 e3 inner outer ∧ m12 = s ^ 2 ∧
      p.limits sq m12 =
        ((e2 + e3) ^ 2 - (inner + outer) ^ 2, (e2 + e3) ^ 2 - (inner - outer) ^ 2) := by
  obtain ⟨hlo, hhi⟩ := sqrt_of_admits hp h
  have hpos := (admits_iff.mp h).2.2
  have hself : √m12 ^ 2 = m12 := Real.sq_sqrt hpos.le
  have hs : 0 < √m12 := Real.sqrt_pos.mpr hpos
  have hdouble : 2 * √m12 ≠ 0 := (mul_pos two_pos hs).ne'
  set s := √m12 with hroot
  set e2 := (s ^ 2 - p.m1 ^ 2 + p.m2 ^ 2) / (2 * s) with he2
  set e3 := (p.mother ^ 2 - s ^ 2 - p.m3 ^ 2) / (2 * s) with he3
  obtain ⟨hp2, hp3, hf⟩ := frame_of_energies hp hs hlo hhi (div_mul_cancel₀ _ hdouble)
    (div_mul_cancel₀ _ hdouble)
  refine ⟨s, s - e2, e2, e3, _, _, hf, hself.symm, ?_⟩
  simp only [limits, sqMother, Reals.square_eq_sq, Reals.max_eq, Reals.sqrt_eq, hsq,
    Reals.two_eq, Reals.zero_eq, ← hroot]
  rw [← hself, ← he2, ← he3, max_eq_left hp2, max_eq_left hp3]

/-! ### What the momenta span -/

/-- For two particles the product of the masses is at most what is left of the product of the
energies by the product of the momenta. -/
theorem mass_product_le {m e m' e' u v : ℝ} (hm : 0 ≤ m) (he : m ≤ e) (hm' : 0 ≤ m')
    (he' : m' ≤ e') (hu : u ^ 2 = e ^ 2 - m ^ 2) (hv : v ^ 2 = e' ^ 2 - m' ^ 2) :
    m * m' ≤ e * e' - u * v := by
  have hle : 0 ≤ e * e' - m * m' :=
    sub_nonneg.mpr (mul_le_mul he he' hm' (hm.trans he))
  have hsq : (u * v) ^ 2 ≤ (e * e' - m * m') ^ 2 := by
    calc (u * v) ^ 2 = (e ^ 2 - m ^ 2) * (e' ^ 2 - m' ^ 2) := by rw [mul_pow, hu, hv]
      _ = (e * e' - m * m') ^ 2 - (e * m' - e' * m) ^ 2 := by ring
      _ ≤ (e * e' - m * m') ^ 2 := sub_le_self _ (sq_nonneg _)
  linarith [(le_abs_self _).trans (abs_le_of_sq_le_sq hsq hle)]

namespace Frame

variable {s e1 e2 e3 inner outer : ℝ}

/-- The limits of m23 are those of the angle between two momenta. -/
theorem between_iff (hf : p.Frame s e1 e2 e3 inner outer) :
    ((e2 + e3) ^ 2 - (inner + outer) ^ 2 ≤ m23 ∧ m23 ≤ (e2 + e3) ^ 2 - (inner - outer) ^ 2) ↔
      |m23 - p.m2 ^ 2 - p.m3 ^ 2 - 2 * (e2 * e3)| ≤ 2 * (inner * outer) := by
  rw [abs_le]
  constructor <;> rintro ⟨hlo, hhi⟩ <;> constructor <;>
    linarith [hf.inner_second, hf.outer_third]

/-- **The bounding box**: a pair that is admitted in the rest frame of the pair (12) has at
least the mass of its daughters and leaves at least its mass to the third one. -/
theorem box (hp : p.Allowed) (hf : p.Frame s e1 e2 e3 inner outer) (h12 : m12 = s ^ 2)
    (hsum : m12 + m13 + m23 = p.mother ^ 2 + p.m1 ^ 2 + p.m2 ^ 2 + p.m3 ^ 2)
    (hnear : |m23 - p.m2 ^ 2 - p.m3 ^ 2 - 2 * (e2 * e3)| ≤ 2 * (inner * outer)) :
    (p.sqMin .of13 ≤ m13 ∧ m13 ≤ p.sqMax .of13) ∧ p.sqMin .of23 ≤ m23 ∧ m23 ≤ p.sqMax .of23 := by
  simp only [sqMin, sqMax, pairMass, remainingMass, Reals.square_eq_sq]
  obtain ⟨hlo, hhi⟩ := abs_le.mp hnear
  have hmother : 0 ≤ p.mother := by
    linarith [hp.m1_nonneg, hp.m2_nonneg, hp.m3_nonneg, hp.sum_lt]
  have h23 := mass_product_le hp.m2_nonneg hf.m2_le hp.m3_nonneg hf.m3_le hf.inner_second
    hf.outer_third
  have h13 := mass_product_le hp.m1_nonneg hf.m1_le hp.m3_nonneg hf.m3_le hf.inner_first
    hf.outer_third
  have h1 := mass_product_le hp.m1_nonneg hf.m1_le hmother hf.mother_le hf.inner_first
    hf.outer_mother
  have h2 := mass_product_le hp.m2_nonneg hf.m2_le hmother hf.mother_le hf.inner_second
    hf.outer_mother
  have hfirst := hf.inner_first
  have hsecond := hf.inner_second
  have hthird := hf.outer_third
  have hforth := hf.outer_mother
  obtain rfl : e1 = s - e2 := eq_sub_of_add_eq hf.energies
  refine ⟨⟨?_, ?_⟩, ?_, ?_⟩ <;> linarith

end Frame

/-! ### The region -/

/-- The product of the four-momenta of two daughters, from the squared mass of their pair. A pair
is named after the daughter that it leaves out. -/
noncomputable def pairProduct (m c : Fin 3 → ℝ) (k : Fin 3) : ℝ :=
  0.5 * (c k - (∑ j, m j ^ 2 - m k ^ 2))

/-- The determinant of the products of the four-momenta of the daughters. -/
noncomputable def gram (m c : Fin 3 → ℝ) : ℝ :=
  -- the two cycles through all three daughters have the same product
  ∏ k, m k ^ 2 + (∏ k, pairProduct m c k + ∏ k, pairProduct m c k) -
    ∑ k, m k ^ 2 * pairProduct m c k ^ 2

/-- The region in which three daughters with masses `m` of a mother can have the squared pair
masses `c`. -/
structure InRegion (mother : ℝ) (m c : Fin 3 → ℝ) : Prop where
  least : ∀ k, (∑ j, m j - m k) ^ 2 ≤ c k
  largest : ∀ k, c k ≤ (mother - m k) ^ 2
  gram_nonneg : 0 ≤ gram m c

/-- The masses of the daughters. -/
def daughters (p : PhaseSpace ℝ) : Fin 3 → ℝ := ![p.m1, p.m2, p.m3]

theorem sum_daughters (p : PhaseSpace ℝ) : ∑ j, p.daughters j = p.m1 + p.m2 + p.m3 :=
  Fin.sum_univ_three _

theorem sqMin_eq (p : PhaseSpace ℝ) (i : Pair) :
    p.sqMin i = (∑ j, p.daughters j - p.daughters i.leftOut) ^ 2 := by
  rw [sum_daughters, sqMin, Reals.square_eq_sq]
  congr 1
  cases i <;> simp only [pairMass, daughters, Pair.leftOut, Matrix.cons_val] <;> ring

theorem sqMax_eq (p : PhaseSpace ℝ) (i : Pair) :
    p.sqMax i = (p.mother - p.daughters i.leftOut) ^ 2 := by
  cases i <;> exact Reals.square_eq_sq _

/-- The region lies in the box of the pair masses. -/
theorem inRegion_iff {c : Fin 3 → ℝ} : InRegion p.mother p.daughters c ↔
    (∀ i : Pair, p.sqMin i ≤ c i.leftOut ∧ c i.leftOut ≤ p.sqMax i) ∧
      0 ≤ gram p.daughters c := by
  simp only [sqMin_eq, sqMax_eq]
  constructor
  · rintro ⟨hleast, hlargest, hgram⟩
    exact ⟨fun i => ⟨hleast _, hlargest _⟩, hgram⟩
  · rintro ⟨hbox, hgram⟩
    refine ⟨fun k => ?_, fun k => ?_, hgram⟩ <;> obtain ⟨i, rfl⟩ := Pair.leftOut_surjective k
    · exact (hbox i).1
    · exact (hbox i).2

theorem sqSum_eq (p : PhaseSpace ℝ) :
    p.sqSum = p.mother ^ 2 + p.m1 ^ 2 + p.m2 ^ 2 + p.m3 ^ 2 := by
  simp only [sqSum, Reals.square_eq_sq]

theorem plane_eq {c : Fin 3 → ℝ} (hsum : ∑ k, c k = p.sqSum) : c 2 + c 1 + c 0 = p.sqSum := by
  rw [← hsum, Fin.sum_univ_three]
  ring

/-- **The determinant in the rest frame** of the pair (12). -/
theorem Frame.gram_eq {s e1 e2 e3 inner outer : ℝ} {c : Fin 3 → ℝ}
    (hf : p.Frame s e1 e2 e3 inner outer) (h12 : c 2 = s ^ 2) (hsum : ∑ k, c k = p.sqSum) :
    4 * gram p.daughters c = s ^ 2 * ((2 * (inner * outer)) ^ 2 -
      (c 0 - p.m2 ^ 2 - p.m3 ^ 2 - 2 * (e2 * e3)) ^ 2) := by
  obtain rfl : e1 = s - e2 := eq_sub_of_add_eq hf.energies
  have hm1 : p.m1 ^ 2 = (s - e2) ^ 2 - inner ^ 2 := by linarith [hf.inner_first]
  have hm2 : p.m2 ^ 2 = e2 ^ 2 - inner ^ 2 := by linarith [hf.inner_second]
  have hm3 : p.m3 ^ 2 = e3 ^ 2 - outer ^ 2 := by linarith [hf.outer_third]
  have hmother : p.mother ^ 2 = (s + e3) ^ 2 - outer ^ 2 := by linarith [hf.outer_mother]
  have h13 : c 1 = p.sqSum - c 0 - c 2 := by linarith [plane_eq hsum]
  simp only [gram, pairProduct, daughters, Fin.sum_univ_three, Fin.prod_univ_three,
    Matrix.cons_val_zero, Matrix.cons_val_one, Matrix.cons_val]
  rw [h13, sqSum_eq, hm1, hm2, hm3, hmother, h12]
  ring

theorem Frame.gram_nonneg_iff {s e1 e2 e3 inner outer : ℝ} {c : Fin 3 → ℝ}
    (hf : p.Frame s e1 e2 e3 inner outer) (h12 : c 2 = s ^ 2) (hsum : ∑ k, c k = p.sqSum) :
    0 ≤ gram p.daughters c ↔
      |c 0 - p.m2 ^ 2 - p.m3 ^ 2 - 2 * (e2 * e3)| ≤ 2 * (inner * outer) := by
  have hmomenta : 0 ≤ 2 * (inner * outer) :=
    mul_nonneg zero_le_two (mul_nonneg hf.inner_nonneg hf.outer_nonneg)
  have hfour : 0 ≤ gram p.daughters c ↔ 0 ≤ 4 * gram p.daughters c :=
    (mul_nonneg_iff_of_pos_left (by norm_num)).symm
  rw [hfour, hf.gram_eq h12 hsum, mul_nonneg_iff_of_pos_left (pow_pos hf.mass_pos 2), sub_nonneg,
    sq_le_sq, abs_of_nonneg hmomenta]

/-! ### Which points are accepted -/

theorem contains_eq : p.contains sq m12 m13 m23 = true ↔
    p.admits m12 = true ∧ |m12 + m13 + m23 - p.sqSum| ≤ 1e-9 * p.sqSum ∧
      (p.limits sq m12).1 ≤ m23 ∧ m23 ≤ (p.limits sq m12).2 := by
  unfold contains limits?
  cases p.admits m12 with
  | false => simp
  | true =>
    simp only [if_true, Bool.and_eq_true, Reals.le_iff, Reals.abs_eq, true_and, and_assoc]

variable {c : Fin 3 → ℝ}

/-- A point on the plane of the masses is accepted if its m12 is admitted and its m23 lies
between the limits. -/
theorem contains_of_sum (hsum : ∑ k, c k = p.sqSum) : p.contains sq (c 2) (c 1) (c 0) = true ↔
    p.admits (c 2) = true ∧ (p.limits sq (c 2)).1 ≤ c 0 ∧ c 0 ≤ (p.limits sq (c 2)).2 := by
  have hplane : c 2 + c 1 + c 0 - p.sqSum = 0 := sub_eq_zero.mpr (plane_eq hsum)
  have htolerance : 0 ≤ 1e-9 * p.sqSum := by
    rw [sqSum_eq]
    positivity
  rw [contains_eq, hplane, abs_zero]
  simp only [htolerance, true_and]

/-- **The accepted points** are those of the region, of which the program looks only at m12 and
at m23 in the rest frame of the pair (12). -/
theorem contains_iff (hp : p.Allowed) (hsq : ∀ x, sq x = x ^ 2) (hsum : ∑ k, c k = p.sqSum)
    (hpos : 0 < c 2) :
    p.contains sq (c 2) (c 1) (c 0) = true ↔ InRegion p.mother p.daughters c := by
  rw [contains_of_sum hsum, inRegion_iff]
  constructor
  · rintro ⟨hin, hbetween⟩
    obtain ⟨s, e1, e2, e3, inner, outer, hf, h12, hlimits⟩ := exists_frame hp hsq hin
    rw [hlimits, hf.between_iff] at hbetween
    obtain ⟨h13, h23⟩ := hf.box hp h12 ((plane_eq hsum).trans (sqSum_eq p)) hbetween
    refine ⟨fun i => ?_, (hf.gram_nonneg_iff h12 hsum).mpr hbetween⟩
    cases i with
    | of12 => exact ⟨(admits_iff.mp hin).1, (admits_iff.mp hin).2.1⟩
    | of13 => exact h13
    | of23 => exact h23
  · rintro ⟨hbox, hgram⟩
    have hin : p.admits (c 2) = true := admits_iff.mpr ⟨(hbox .of12).1, (hbox .of12).2, hpos⟩
    obtain ⟨s, e1, e2, e3, inner, outer, hf, h12, hlimits⟩ := exists_frame hp hsq hin
    rw [hlimits, hf.between_iff]
    exact ⟨hin, (hf.gram_nonneg_iff h12 hsum).mp hgram⟩

/-! ### Renumbering the daughters -/

variable (σ : Equiv.Perm (Fin 3)) {mother : ℝ} {m : Fin 3 → ℝ}

theorem pairProduct_comp (k : Fin 3) :
    pairProduct (m ∘ σ) (c ∘ σ) k = pairProduct m c (σ k) := by
  have hsum : ∑ j, (m ∘ σ) j ^ 2 = ∑ j, m j ^ 2 := Equiv.sum_comp σ fun j => m j ^ 2
  rw [pairProduct, pairProduct, hsum]
  rfl

theorem gram_comp : gram (m ∘ σ) (c ∘ σ) = gram m c := by
  simp only [gram, pairProduct_comp, Function.comp_apply]
  rw [Equiv.prod_comp σ fun k => m k ^ 2, Equiv.prod_comp σ (pairProduct m c),
    Equiv.sum_comp σ fun k => m k ^ 2 * pairProduct m c k ^ 2]

/-- **The region does not depend on how the daughters are numbered.** -/
theorem InRegion.comp_iff : InRegion mother (m ∘ σ) (c ∘ σ) ↔ InRegion mother m c := by
  have hsum : ∑ j, (m ∘ σ) j = ∑ j, m j := Equiv.sum_comp σ m
  constructor
  · rintro ⟨hleast, hlargest, hgram⟩
    refine ⟨fun k => ?_, fun k => ?_, gram_comp σ ▸ hgram⟩
    · have h := hleast (σ.symm k)
      rwa [hsum, Function.comp_apply, Function.comp_apply, σ.apply_symm_apply] at h
    · have h := hlargest (σ.symm k)
      rwa [Function.comp_apply, Function.comp_apply, σ.apply_symm_apply] at h
  · rintro ⟨hleast, hlargest, hgram⟩
    exact ⟨fun k => hsum ▸ hleast (σ k), fun k => hlargest (σ k), (gram_comp σ).symm ▸ hgram⟩

theorem Allowed.comp (h : Allowed ⟨mother, m 0, m 1, m 2⟩) :
    Allowed ⟨mother, m (σ 0), m (σ 1), m (σ 2)⟩ := by
  obtain ⟨h0, h1, h2, hsum⟩ := h
  have hnonneg : ∀ k, 0 ≤ m k := fun k => by fin_cases k <;> assumption
  refine ⟨hnonneg _, hnonneg _, hnonneg _, ?_⟩
  have hcomp : m (σ 0) + m (σ 1) + m (σ 2) = m 0 + m 1 + m 2 := by
    rw [← Fin.sum_univ_three m, ← Equiv.sum_comp σ m, Fin.sum_univ_three]
  exact hcomp.trans_lt hsum

theorem sqSum_eq_sum (mother : ℝ) (m : Fin 3 → ℝ) :
    (⟨mother, m 0, m 1, m 2⟩ : PhaseSpace ℝ).sqSum = mother ^ 2 + ∑ k, m k ^ 2 := by
  rw [sqSum_eq, Fin.sum_univ_three]
  ring

theorem daughters_eq (mother : ℝ) (m : Fin 3 → ℝ) :
    daughters ⟨mother, m 0, m 1, m 2⟩ = m := by
  funext k
  fin_cases k <;> rfl

/-- Squares in exact arithmetic, of a number that stands alone or in a column. -/
theorem sq_of_either (hsq : sq = Scalar.square ∨ sq = Scalar.selfProduct) (x : ℝ) :
    sq x = x ^ 2 := by
  rcases hsq with rfl | rfl
  · exact Reals.square_eq_sq x
  · exact (pow_two x).symm

/-- **Acceptance does not depend on how the daughters are numbered.** Daughter `k` of the
new numbering is daughter `σ k` of the old one, and its pair is the one that leaves it out. -/
theorem contains_renumbered (mother : ℝ) (m : Fin 3 → ℝ) {p : PhaseSpace ℝ}
    (hp : ofMasses mother (m 0) (m 1) (m 2) = .ok p)
    (hsq : sq = Scalar.square ∨ sq = Scalar.selfProduct) (σ : Equiv.Perm (Fin 3)) :
    ∃ q, ofMasses mother (m (σ 0)) (m (σ 1)) (m (σ 2)) = .ok q ∧
      ∀ c : Fin 3 → ℝ, (∀ k, 0 < c k) → ∑ k, c k = p.sqSum →
        q.contains sq (c (σ 2)) (c (σ 1)) (c (σ 0)) = p.contains sq (c 2) (c 1) (c 0) := by
  obtain ⟨rfl, hallowed⟩ := ofMasses_eq_ok_iff.mp hp
  have hallowed' := hallowed.comp σ
  refine ⟨_, ofMasses_eq_ok_iff.mpr ⟨rfl, hallowed'⟩, fun c hpos hsum => ?_⟩
  have hsum' : ∑ k, (c ∘ σ) k = (⟨mother, m (σ 0), m (σ 1), m (σ 2)⟩ : PhaseSpace ℝ).sqSum := by
    calc ∑ k, (c ∘ σ) k = ∑ k, c k := Equiv.sum_comp σ c
      _ = mother ^ 2 + ∑ k, m k ^ 2 := hsum.trans (sqSum_eq_sum mother m)
      _ = mother ^ 2 + ∑ k, (m ∘ σ) k ^ 2 :=
        congrArg (mother ^ 2 + ·) (Equiv.sum_comp σ fun k => m k ^ 2).symm
      _ = _ := (sqSum_eq_sum mother (m ∘ σ)).symm
  have hnew : daughters ⟨mother, m (σ 0), m (σ 1), m (σ 2)⟩ = m ∘ σ := daughters_eq mother (m ∘ σ)
  have h := contains_iff hallowed (sq_of_either hsq) hsum (hpos 2)
  have h' := contains_iff hallowed' (sq_of_either hsq) hsum' (hpos (σ 2))
  rw [daughters_eq] at h
  rw [hnew] at h'
  exact Bool.eq_iff_iff.mpr (h'.trans ((InRegion.comp_iff σ).trans h.symm))

/-- A mother of mass 6 with daughters of the masses 0, 1 and 3. -/
def unequal : PhaseSpace ℝ := ⟨6, 0, 1, 3⟩

theorem allowed_unequal : unequal.Allowed := by
  constructor <;> norm_num [unequal]

/-- The squared masses of the pairs at a point of its region. -/
def unequalPoint : Fin 3 → ℝ := ![26, 15, 5]

theorem sum_unequalPoint : ∑ k, unequalPoint k = unequal.sqSum := by
  simp only [Fin.sum_univ_three, unequalPoint, Matrix.cons_val]
  norm_num [sqSum_eq, unequal]

theorem unequalPoint_pos (k : Fin 3) : 0 < unequalPoint k := by
  fin_cases k <;> norm_num [unequalPoint]

theorem contains_unequal : unequal.contains Scalar.square 5 15 26 = true := by
  refine (contains_iff (c := unequalPoint) allowed_unequal Reals.square_eq_sq sum_unequalPoint
    (unequalPoint_pos 2)).mpr ⟨fun k => ?_, fun k => ?_, ?_⟩
  · rw [sum_daughters]
    fin_cases k <;> norm_num [daughters, unequal, unequalPoint]
  · fin_cases k <;> norm_num [daughters, unequal, unequalPoint]
  · simp only [gram, pairProduct, Fin.sum_univ_three, Fin.prod_univ_three, daughters, unequal,
      unequalPoint, Matrix.cons_val]
    norm_num

/-- The first and the third daughter change places, and with them m12 and m23. -/
theorem contains_renumbered_exchanged : ofMasses 6 0 1 3 = .ok unequal ∧
    ∃ q, ofMasses (6 : ℝ) 3 1 0 = .ok q ∧ q.contains Scalar.square 26 15 5 = true := by
  have hp : ofMasses 6 0 1 3 = .ok unequal := ofMasses_eq_ok_iff.mpr ⟨rfl, allowed_unequal⟩
  obtain ⟨q, hq, hsame⟩ := contains_renumbered 6 ![0, 1, 3] hp (.inl rfl) (Equiv.swap 0 2)
  exact ⟨hp, q, hq, (hsame unequalPoint unequalPoint_pos sum_unequalPoint).trans contains_unequal⟩

end PhaseSpace

end DensityAlgebra
