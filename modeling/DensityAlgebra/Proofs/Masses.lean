/-
# Which masses are accepted

A check refuses what it can compare, so an undefined mass passes each of them
(`PhaseSpace.accept_eq_ok_iff`). If all masses are numbers, those that are accepted are finite and
not negative for the daughters and positive for the mother; the sum that is compared is rounded
twice, so that it may be below the mother's mass where the exact sum is equal to it
(`PhaseSpace.sum_le`), but not where it is above. The range of a pair runs from a rounded
sum to a rounded difference, and as rounding keeps the order its ends are never the wrong way
round. They may fall on one number.

Key definitions: `PhaseSpace.Defined`, `PhaseSpace.Physical`, `PhaseSpace.Accepted`.
Key theorems: `PhaseSpace.accept_eq_ok_iff`, `PhaseSpace.pairMass_le`,
`PhaseSpace.accepted_of_defined`, `PhaseSpace.physical_iff`.
-/
import DensityAlgebra.PhaseSpace
import DensityAlgebra.Proofs.Comparing

namespace DensityAlgebra

namespace PhaseSpace

open Double

variable {p : PhaseSpace Float} {mother m1 m2 m3 : Float}

/-- All masses are numbers. -/
def Defined (p : PhaseSpace Float) : Prop :=
  ∀ m ∈ [p.mother, p.m1, p.m2, p.m3], m.isNaN = false

instance (p : PhaseSpace Float) : Decidable p.Defined :=
  inferInstanceAs (Decidable (∀ m ∈ [p.mother, p.m1, p.m2, p.m3], m.isNaN = false))

/-- The sum of the daughters' masses, as it is compared with the mother's. -/
def daughterSum (p : PhaseSpace Float) : Float := 0.0 + p.m1 + p.m2 + p.m3

/-- A decay that has a region: the masses are numbers, the mother is heavier than the daughters
together, and the squared mass of no pair has an empty range. -/
structure Physical (p : PhaseSpace Float) : Prop where
  defined : p.Defined
  mother_pos : 0 < value p.mother
  daughters_nonneg : ∀ m ∈ [p.m1, p.m2, p.m3], 0 ≤ value m
  sum_lt : value p.m1 + value p.m2 + value p.m3 < value p.mother
  range_lt : ∀ i, value (p.pairMass i) ^ 2 < value (p.remainingMass i) ^ 2

/-- What masses that are numbers and accepted have in common. -/
structure Accepted (p : PhaseSpace Float) : Prop where
  mother_pos : 0 < value p.mother
  daughters_nonneg : ∀ m ∈ [p.m1, p.m2, p.m3], 0 ≤ value m
  daughters_finite : ∀ m ∈ [p.m1, p.m2, p.m3], m.isFinite = true
  daughterSum_lt : p.daughterSum < p.mother
  sum_le : value p.m1 + value p.m2 + value p.m3 ≤ value p.mother
  range_defined : ∀ i, (p.pairMass i).isNaN = false ∧ (p.remainingMass i).isNaN = false
  range_le : ∀ i, value (p.pairMass i) ^ 2 ≤ value (p.remainingMass i) ^ 2

theorem forall_daughters {P : Float → Prop} :
    (∀ m ∈ [p.m1, p.m2, p.m3], P m) ↔ P p.m1 ∧ P p.m2 ∧ P p.m3 := by
  simp only [List.forall_mem_cons, List.not_mem_nil, false_imp_iff, implies_true, and_true]

/-! ### The checks -/

theorem toRat_zero : toRat 0.0 = 0 := by rw [toRat, unpack_zero, valueOf_zero]

theorem value_zero : value 0.0 = 0 := by
  rw [value_of_isFinite rfl, toRat_zero, Rat.cast_zero, EReal.coe_zero]

theorem isNaN_zero : (0.0 : Float).isNaN = false := rfl

/-- **Which masses are accepted**: those that no comparison refuses. -/
theorem accept_eq_ok_iff : accept mother m1 m2 m3 = .ok p ↔ p = ⟨mother, m1, m2, m3⟩ ∧
    (∀ m ∈ [m1, m2, m3], ¬m < 0.0) ∧ ¬mother ≤ 0.0 ∧ ¬mother ≤ 0.0 + m1 + m2 + m3 := by
  have hle {x y : Float} : Scalar.le x y = true ↔ x ≤ y := decide_eq_true_iff
  have hdaughters : ([m1, m2, m3].any (Scalar.lt · 0.0)) = true ↔
      ¬∀ m ∈ [m1, m2, m3], ¬m < 0.0 := by
    rw [List.any_eq_true]
    push Not
    exact exists_congr fun m => and_congr_right fun _ => decide_eq_true_iff
  simp only [accept]
  split_ifs with hdaughter hmother hsum
  · exact iff_of_false nofun fun h => hdaughters.mp hdaughter h.2.1
  · exact iff_of_false nofun fun h => h.2.2.1 (hle.mp hmother)
  · exact iff_of_false nofun fun h => h.2.2.2 (hle.mp hsum)
  · constructor
    · intro h
      exact ⟨(Except.ok.inj h).symm, not_not.mp (mt hdaughters.mpr hdaughter), mt hle.mpr hmother,
        mt hle.mpr hsum⟩
    · rintro ⟨rfl, -⟩
      rfl

/-! ### The sum of the daughters -/

/-- The sums of the daughters' masses grow, so that none of them is above the last one. -/
theorem le_daughterSum (hnan : ∀ m ∈ [p.m1, p.m2, p.m3], m.isNaN = false)
    (hnonneg : ∀ m ∈ [p.m1, p.m2, p.m3], 0 ≤ value m) :
    p.daughterSum.isNaN = false ∧ ∀ m ∈ [p.m1, p.m2, p.m3, 0.0 + p.m1, 0.0 + p.m1 + p.m2],
      m.isNaN = false ∧ 0 ≤ value m ∧ value m ≤ value p.daughterSum := by
  obtain ⟨hnan1, hnan2, hnan3⟩ := forall_daughters.mp hnan
  obtain ⟨hpos1, hpos2, hpos3⟩ := forall_daughters.mp hnonneg
  obtain ⟨hnan0, hle0, hle1⟩ := value_le_add isNaN_zero value_zero.ge hnan1 hpos1
  have hpos0 := hpos1.trans hle1
  obtain ⟨hnan12, hle12, hle2⟩ := value_le_add hnan0 hpos0 hnan2 hpos2
  have hpos12 := hpos2.trans hle2
  obtain ⟨hnan123, hle123, hle3⟩ := value_le_add hnan12 hpos12 hnan3 hpos3
  simp only [List.forall_mem_cons, List.not_mem_nil, false_imp_iff, implies_true, and_true]
  exact ⟨hnan123, ⟨hnan1, hpos1, hle1.trans (hle12.trans hle123)⟩, ⟨hnan2, hpos2, hle2.trans hle123⟩,
    ⟨hnan3, hpos3, hle3⟩, ⟨hnan0, hpos0, hle12.trans hle123⟩, hnan12, hpos12, hle123⟩

/-- Daughters whose sum is finite are finite, and their sum is rounded twice. -/
theorem daughterSum_eq (hnan : ∀ m ∈ [p.m1, p.m2, p.m3], m.isNaN = false)
    (hnonneg : ∀ m ∈ [p.m1, p.m2, p.m3], 0 ≤ value m) (hsum : value p.daughterSum ≠ ⊤) :
    (∀ m ∈ [p.m1, p.m2, p.m3], m.isFinite = true) ∧
      value p.daughterSum = rounded (Double.round (toRat p.m1 + toRat p.m2) + toRat p.m3) := by
  have hfinite : ∀ m ∈ [p.m1, p.m2, p.m3, 0.0 + p.m1, 0.0 + p.m1 + p.m2], m.isFinite = true :=
    fun m hm => by
      obtain ⟨hnan, hpos, hle⟩ := (le_daughterSum hnan hnonneg).2 m hm
      exact isFinite_of_value hnan (EReal.bot_lt_zero.trans_le hpos).ne'
        (ne_top_of_le_ne_top hsum hle)
  simp only [List.forall_mem_cons, List.not_mem_nil, false_imp_iff, implies_true, and_true]
    at hfinite
  obtain ⟨h1, h2, h3, h0, h12⟩ := hfinite
  have hzero : toRat (0.0 + p.m1) = toRat p.m1 := by
    rw [toRat_add rfl h1 h0, toRat_zero, zero_add, round_toRat h1]
  refine ⟨forall_daughters.mpr ⟨h1, h2, h3⟩, ?_⟩
  rw [daughterSum, (value_add h12 h3).2, toRat_add h0 h2 h12, hzero]

/-- Finite doubles add up to what they stand for, before a sum is rounded. -/
theorem value_add_add {a b c : Float} (ha : a.isFinite) (hb : b.isFinite) (hc : c.isFinite) :
    value a + value b + value c = (((toRat a + toRat b + toRat c : ℚ) : ℝ) : EReal) := by
  rw [value_of_isFinite ha, value_of_isFinite hb, value_of_isFinite hc]
  push_cast
  rfl

/-- **The exact sum of the daughters** is not above the mother's mass if the rounded one is below
it. -/
theorem sum_le (hdefined : p.Defined) (hnonneg : ∀ m ∈ [p.m1, p.m2, p.m3], 0 ≤ value m)
    (hlt : value p.daughterSum < value p.mother) :
    (∀ m ∈ [p.m1, p.m2, p.m3], m.isFinite = true) ∧
      value p.m1 + value p.m2 + value p.m3 ≤ value p.mother := by
  obtain ⟨hmother, hdaughters⟩ := List.forall_mem_cons.mp hdefined
  obtain ⟨hfinite, hsum⟩ := daughterSum_eq hdaughters hnonneg hlt.ne_top
  refine ⟨hfinite, ?_⟩
  obtain ⟨hfinite1, hfinite2, hfinite3⟩ := forall_daughters.mp hfinite
  obtain ⟨hpos1, hpos2, hpos3⟩ := forall_daughters.mp hnonneg
  rw [value_nonneg_iff hfinite1] at hpos1
  rw [value_nonneg_iff hfinite2] at hpos2
  rw [value_nonneg_iff hfinite3] at hpos3
  by_cases htop : value p.mother = ⊤
  · rw [htop]
    exact le_top
  have hfinite : p.mother.isFinite = true :=
    isFinite_of_value hmother (bot_le.trans_lt hlt).ne' htop
  have hpos : 0 ≤ Double.round (toRat p.m1 + toRat p.m2) + toRat p.m3 :=
    add_nonneg (round_nonneg (add_nonneg hpos1 hpos2)) hpos3
  rw [hsum] at hlt
  have hbelow : Double.round (toRat p.m1 + toRat p.m2) + toRat p.m3 < ceiling := by
    by_contra hge
    rw [rounded_of_ceiling_le (not_lt.mp hge)] at hlt
    exact not_top_lt hlt
  rw [rounded_of_abs_lt (by rwa [abs_of_nonneg hpos]), value_of_isFinite hfinite,
    EReal.coe_lt_coe_iff, Rat.cast_lt] at hlt
  rw [value_add_add hfinite1 hfinite2 hfinite3, value_of_isFinite hfinite, EReal.coe_le_coe_iff,
    Rat.cast_le]
  exact sum_le_of_round_lt (add_nonneg hpos1 hpos2) hpos3 (round_toRat hfinite) hlt

/-! ### The ranges -/

/-- What is left by one daughter is rounded to no less than the sum of the other two. -/
theorem add_le_sub {a b c M : Float} (ha : a.isFinite) (hb : b.isFinite) (hc : c.isFinite)
    (hM : M.isNaN = false) (hle : value a + value b + value c ≤ value M) :
    (a + b).isNaN = false ∧ (M - c).isNaN = false ∧ value (a + b) ≤ value (M - c) := by
  rw [value_add_add ha hb hc] at hle
  obtain ⟨hnan, hsum⟩ := value_add ha hb
  refine ⟨hnan, ?_⟩
  by_cases htop : value M = ⊤
  · have hneg : (-c).isFinite = true := (isFinite_neg c).trans hc
    have hbot : value (-c) ≠ ⊥ := by
      rw [value_of_isFinite hneg]
      exact EReal.coe_ne_bot _
    obtain ⟨hnan', hrest⟩ := value_add_of_top htop (isNaN_of_isFinite hneg) hbot
    rw [float_sub_eq_add_neg, hrest]
    exact ⟨hnan', le_top⟩
  · have hfinite : M.isFinite = true :=
      isFinite_of_value hM ((EReal.bot_lt_coe _).trans_le hle).ne' htop
    obtain ⟨hnan', hrest⟩ := value_sub hfinite hc
    rw [value_of_isFinite hfinite, EReal.coe_le_coe_iff, Rat.cast_le] at hle
    rw [hsum, hrest]
    exact ⟨hnan', rounded_mono (le_sub_iff_add_le.mpr hle)⟩

/-- What is left by one daughter of a mother that is as heavy as the three is the rounded sum of
the other two. -/
theorem add_eq_sub {a b c M : Float} (ha : a.isFinite) (hb : b.isFinite) (hc : c.isFinite)
    (hM : M.isNaN = false) (heq : value a + value b + value c = value M) :
    value (a + b) = value (M - c) := by
  rw [value_add_add ha hb hc] at heq
  have hfinite : M.isFinite = true :=
    isFinite_of_value hM (heq ▸ EReal.coe_ne_bot _) (heq ▸ EReal.coe_ne_top _)
  rw [value_of_isFinite hfinite, EReal.coe_eq_coe_iff, Rat.cast_inj] at heq
  rw [(value_add ha hb).2, (value_sub hfinite hc).2, ← heq, add_sub_cancel_right]

/-- **The ends of each range** are in order. -/
theorem pairMass_le (hdefined : p.Defined)
    (hfinite : ∀ m ∈ [p.m1, p.m2, p.m3], m.isFinite = true)
    (hle : value p.m1 + value p.m2 + value p.m3 ≤ value p.mother) (i : Pair) :
    (p.pairMass i).isNaN = false ∧ (p.remainingMass i).isNaN = false ∧
      value (p.pairMass i) ≤ value (p.remainingMass i) := by
  obtain ⟨hmother, -⟩ := List.forall_mem_cons.mp hdefined
  obtain ⟨h1, h2, h3⟩ := forall_daughters.mp hfinite
  cases i with
  | of12 => exact add_le_sub h1 h2 h3 hmother hle
  | of13 => exact add_le_sub h1 h3 h2 hmother ((add_right_comm _ _ _).trans_le hle)
  | of23 =>
    refine add_le_sub h2 h3 h1 hmother (Eq.trans_le ?_ hle)
    rw [add_comm, ← add_assoc]

theorem sq_lt_sq_iff {a b : EReal} (ha : 0 ≤ a) (h : a ≤ b) : a ^ 2 < b ^ 2 ↔ a ≠ b := by
  refine ⟨fun hlt heq => hlt.ne (congrArg (· ^ 2) heq), fun hne => ?_⟩
  have hlt := h.lt_of_ne hne
  lift a to ℝ using ⟨hlt.ne_top, (EReal.bot_lt_zero.trans_le ha).ne'⟩
  have ha : 0 ≤ a := EReal.coe_nonneg.mp ha
  rw [← EReal.coe_pow]
  by_cases htop : b = ⊤
  · rw [htop, pow_two ⊤, EReal.top_mul_top]
    exact EReal.coe_lt_top _
  · lift b to ℝ using ⟨htop, (bot_le.trans_lt hlt).ne'⟩
    rw [← EReal.coe_pow, EReal.coe_lt_coe_iff]
    exact pow_lt_pow_left₀ (EReal.coe_lt_coe_iff.mp hlt) ha two_ne_zero

theorem pairMass_nonneg (hdefined : p.Defined) (hnonneg : ∀ m ∈ [p.m1, p.m2, p.m3], 0 ≤ value m)
    (i : Pair) : 0 ≤ value (p.pairMass i) := by
  obtain ⟨-, hnan⟩ := List.forall_mem_cons.mp hdefined
  obtain ⟨hnan1, hnan2, hnan3⟩ := forall_daughters.mp hnan
  obtain ⟨hpos1, hpos2, hpos3⟩ := forall_daughters.mp hnonneg
  cases i with
  | of12 => exact hpos1.trans (value_le_add hnan1 hpos1 hnan2 hpos2).2.1
  | of13 => exact hpos1.trans (value_le_add hnan1 hpos1 hnan3 hpos3).2.1
  | of23 => exact hpos2.trans (value_le_add hnan2 hpos2 hnan3 hpos3).2.1

/-- **What the checks ensure** of masses that are numbers. -/
theorem accepted_of_defined (hp : accept mother m1 m2 m3 = .ok p) (hdefined : p.Defined) :
    p.Accepted := by
  obtain ⟨rfl, hdaughters, hmother, hsum⟩ := accept_eq_ok_iff.mp hp
  obtain ⟨hnan, hnans⟩ := List.forall_mem_cons.mp hdefined
  have hnonneg : ∀ m ∈ [m1, m2, m3], 0 ≤ value m := fun m hm =>
    value_zero.ge.trans (value_le_of_not_lt (hnans m hm) isNaN_zero (hdaughters m hm))
  have hpos : 0 < value mother :=
    value_zero.symm.trans_lt (value_lt_of_not_le hnan isNaN_zero hmother)
  have hsumnan : (0.0 + m1 + m2 + m3).isNaN = false := (le_daughterSum hnans hnonneg).1
  have hlt := value_lt_of_not_le hnan hsumnan hsum
  obtain ⟨hfinite, hle⟩ := sum_le hdefined hnonneg hlt
  exact {
    mother_pos := hpos
    daughters_nonneg := hnonneg
    daughters_finite := hfinite
    daughterSum_lt := (lt_iff _ _).mpr ⟨hsumnan, hnan, hlt⟩
    sum_le := hle
    range_defined := fun i =>
      ⟨(pairMass_le hdefined hfinite hle i).1, (pairMass_le hdefined hfinite hle i).2.1⟩
    range_le := fun i => pow_le_pow_left₀ (pairMass_nonneg hdefined hnonneg i)
      (pairMass_le hdefined hfinite hle i).2.2 2 }

/-- **What accepted masses are**: if all are numbers, the checks keep what they say up to the
rounding of the sum; and the decay has a region exactly if all are numbers and the ends of no
range fall together. -/
theorem physical_of_accept (hp : accept mother m1 m2 m3 = .ok p) :
    p = ⟨mother, m1, m2, m3⟩ ∧ (p.Defined → p.Accepted) ∧
      (p.Physical ↔ p.Defined ∧ ∀ i, value (p.pairMass i) ≠ value (p.remainingMass i)) := by
  refine ⟨(accept_eq_ok_iff.mp hp).1, accepted_of_defined hp, ?_⟩
  constructor
  · intro h
    refine ⟨h.defined, fun i heq => (h.range_lt i).ne ?_⟩
    rw [heq]
  · rintro ⟨hdefined, hrange⟩
    have h := accepted_of_defined hp hdefined
    have hsum : value p.m1 + value p.m2 + value p.m3 ≠ value p.mother := fun heq => by
      obtain ⟨h1, h2, h3⟩ := forall_daughters.mp h.daughters_finite
      exact hrange .of12 (add_eq_sub h1 h2 h3 (List.forall_mem_cons.mp hdefined).1 heq)
    refine ⟨hdefined, h.mother_pos, h.daughters_nonneg, h.sum_le.lt_of_ne hsum, fun i => ?_⟩
    obtain ⟨-, -, hle⟩ := pairMass_le hdefined h.daughters_finite h.sum_le i
    exact (sq_lt_sq_iff (pairMass_nonneg hdefined h.daughters_nonneg i) hle).mpr (hrange i)

/-- A mother that decays into three particles without mass. -/
def massless : PhaseSpace Float := ⟨1.0, 0.0, 0.0, 0.0⟩

/-- Daughters that leave nothing between the ends of a range after rounding: in units of the last
place of the mother, its mass is 2^52 + 3 and theirs are 2^52, 1/2 and 2. -/
def narrow : PhaseSpace Float :=
  ⟨.ofBits 0x3FF0000000000003, 1.0, .ofBits 0x3CA0000000000000, .ofBits 0x3CC0000000000000⟩

theorem value_one : value 1.0 = 1 := by
  have hone : toRat 1.0 = 1 := by
    have hunpack : (1.0 : Float).toModel.unpack = .finite .positive (2 ^ 52) (-52) (by decide) := rfl
    rw [toRat, hunpack, valueOf]
    norm_num [Float.Model.UnpackedFloat.Sign.apply]
  rw [value_of_isFinite rfl, hone, Rat.cast_one, EReal.coe_one]

/-- Particles without mass have a region; an undefined mother is accepted and has none, and
neither have daughters that leave nothing to one of the ranges. -/
theorem physical_of_accept_massless :
    (accept 1.0 0.0 0.0 0.0 = .ok massless ∧ massless.Physical) ∧
    (accept Float.nan 0.1 0.1 0.1 = .ok (⟨Float.nan, 0.1, 0.1, 0.1⟩ : PhaseSpace Float) ∧
      ¬(⟨Float.nan, 0.1, 0.1, 0.1⟩ : PhaseSpace Float).Physical) ∧
    accept narrow.mother narrow.m1 narrow.m2 narrow.m3 = .ok narrow ∧ narrow.Accepted ∧
      ¬narrow.Physical := by
  have hmassless : accept 1.0 0.0 0.0 0.0 = .ok massless := rfl
  have hundefined : accept Float.nan 0.1 0.1 0.1 =
      .ok (⟨Float.nan, 0.1, 0.1, 0.1⟩ : PhaseSpace Float) := rfl
  have hnarrow : accept narrow.mother narrow.m1 narrow.m2 narrow.m3 = .ok narrow := rfl
  have hzero_ne_one : value 0.0 ≠ value 1.0 := by
    rw [value_zero, value_one]
    exact zero_ne_one
  refine ⟨⟨hmassless, (physical_of_accept hmassless).2.2.mpr ⟨by decide, fun i => ?_⟩⟩,
    ⟨hundefined, fun h => ?_⟩, hnarrow, (physical_of_accept hnarrow).2.1 (by decide), fun h => ?_⟩
  · cases i <;> exact hzero_ne_one
  · exact absurd (((physical_of_accept hundefined).2.2.mp h).1 Float.nan (by simp)) (by decide)
  · exact ((physical_of_accept hnarrow).2.2.mp h).2 .of13 rfl

end PhaseSpace

end DensityAlgebra
