/-
# The order of doubles

Doubles that are numbers, finite or not, compare as what they stand for (`Double.lt_iff`,
`Double.le_iff`). A comparison in which an undefined double takes part has no outcome, so that both
relations are false.

Key theorems: `Double.compares_magnitudes`, `Double.compare_spec`, `Double.compare_cases`,
`Double.lt_iff`, `Double.le_iff`.
-/
import DensityAlgebra.Proofs.Sums

namespace DensityAlgebra

namespace Double

open Float.Model (UnpackedFloat Format)
open Float.Model.UnpackedFloat (Sign)

theorem valueOf_pos {m : ℕ} {e : ℤ} (hm : 0 < m) : 0 < valueOf (.finite .positive m e hm) :=
  mul_pos (Int.cast_pos.mpr (Int.natCast_pos.mpr hm)) (zpow_pos (by norm_num) e)

theorem valueOf_neg_lt {m : ℕ} {e : ℤ} (hm : 0 < m) : valueOf (.finite .negative m e hm) < 0 := by
  have hneg := valueOf_neg (.finite .positive m e hm)
  exact hneg.trans_lt (neg_neg_of_pos (valueOf_pos hm))

theorem compares_neg {o : Ordering} {a b : ℚ} (h : o.Compares a b) : o.swap.Compares (-a) (-b) := by
  cases o with
  | lt => exact neg_lt_neg (show a < b from h)
  | eq => exact congrArg Neg.neg (show a = b from h)
  | gt => exact neg_lt_neg (show b < a from h)

/-- Magnitudes compare as their exponents do, and as their significands where these are equal. -/
theorem compares_magnitudes {m n : ℕ} {d e : ℤ} {hm : 0 < m} {hn : 0 < n}
    (hf : Canonical (.finite .positive m d hm)) (hg : Canonical (.finite .positive n e hn)) :
    ((compare d e).then (compare m n)).Compares (valueOf (.finite .positive m d hm))
      (valueOf (.finite .positive n e hn)) := by
  have hlower {m n : ℕ} {d e : ℤ} {hm : 0 < m} {hn : 0 < n} (hlt : d < e)
      (hf : Canonical (.finite .positive m d hm)) (hg : Canonical (.finite .positive n e hn)) :
      valueOf (.finite .positive m d hm) < valueOf (.finite .positive n e hn) := by
    obtain ⟨hm', hd, -⟩ := hf
    obtain ⟨-, -, hn'⟩ := hg
    have hn' := hn'.resolve_right (by omega)
    calc (m : ℚ) * 2 ^ d < 2 ^ 53 * 2 ^ d :=
          mul_lt_mul_of_pos_right (by exact_mod_cast hm') (zpow_pos (by norm_num) d)
      _ = 2 ^ 52 * 2 ^ (d + 1) := by
          rw [zpow_add_one₀ (by norm_num)]
          ring
      _ ≤ 2 ^ 52 * 2 ^ e :=
          mul_le_mul_of_nonneg_left (zpow_le_zpow_right₀ (by norm_num) hlt) (by norm_num)
      _ ≤ n * 2 ^ e :=
          mul_le_mul_of_nonneg_right (by exact_mod_cast hn') (zpow_pos (by norm_num) e).le
  obtain hlt | rfl | hgt := lt_trichotomy d e
  · rw [Int.compare_eq_lt.mpr hlt]
    exact hlower hlt hf hg
  · have hunit : (0 : ℚ) < 2 ^ d := zpow_pos (by norm_num) d
    rw [Int.compare_eq_eq.mpr rfl]
    show (compare m n).Compares ((m : ℚ) * 2 ^ d) (n * 2 ^ d)
    obtain hlt | rfl | hgt := lt_trichotomy m n
    · rw [Nat.compare_eq_lt.mpr hlt]
      exact mul_lt_mul_of_pos_right (by exact_mod_cast hlt) hunit
    · rw [Nat.compare_eq_eq.mpr rfl]
      rfl
    · rw [Nat.compare_eq_gt.mpr hgt]
      exact mul_lt_mul_of_pos_right (by exact_mod_cast hgt) hunit
  · rw [Int.compare_eq_gt.mpr hgt]
    exact hlower hgt hg hf

/-- **Canonical numbers compare** as what they stand for. -/
theorem compare_spec {f g : UnpackedFloat} (hf : Canonical f) (hg : Canonical g) :
    ∃ o, f.compare g = some o ∧ o.Compares (valueOf f) (valueOf g) := by
  cases f with
  | infinity s => cases hf
  | notANumber => cases hf
  | zero s =>
    cases g with
    | infinity t => cases hg
    | notANumber => cases hg
    | zero t => exact ⟨.eq, rfl, rfl⟩
    | finite t n e hn =>
      cases t with
      | negative => exact ⟨.gt, rfl, valueOf_neg_lt hn⟩
      | positive => exact ⟨.lt, rfl, valueOf_pos hn⟩
  | finite s m d hm =>
    cases g with
    | infinity t => cases hg
    | notANumber => cases hg
    | zero t =>
      cases s with
      | negative => exact ⟨.lt, rfl, valueOf_neg_lt hm⟩
      | positive => exact ⟨.gt, rfl, valueOf_pos hm⟩
    | finite t n e hn =>
      have hmagnitudes : ((compare d e).then (compare m n)).Compares
          (valueOf (.finite .positive m d hm)) (valueOf (.finite .positive n e hn)) :=
        compares_magnitudes hf hg
      cases s with
      | negative =>
        cases t with
        | negative =>
          refine ⟨_, rfl, ?_⟩
          have hneg := compares_neg hmagnitudes
          rwa [← valueOf_neg, ← valueOf_neg] at hneg
        | positive => exact ⟨.lt, rfl, (valueOf_neg_lt hm).trans (valueOf_pos hn)⟩
      | positive =>
        cases t with
        | negative => exact ⟨.gt, rfl, (valueOf_neg_lt hn).trans (valueOf_pos hm)⟩
        | positive => exact ⟨_, rfl, hmagnitudes⟩

/-- What a double that is a number can be. -/
theorem canonical_or_infinity {x : Float} (hx : x.isNaN = false) :
    Canonical x.toModel.unpack ∨ ∃ s, x.toModel.unpack = .infinity s := by
  have hx : x.toModel.unpack.isNaN = false := hx
  have hfits := fits_unpack x
  cases h : x.toModel.unpack with
  | infinity s => exact .inr ⟨s, rfl⟩
  | notANumber => simp [h, UnpackedFloat.isNaN] at hx
  | zero s => exact .inl trivial
  | finite s m e hm => exact .inl (h ▸ hfits : Fits (.finite s m e hm)).1

theorem compare_infinity {f : UnpackedFloat} (hf : Canonical f) (s : Sign) :
    f.compare (.infinity s) = some (match s with | .negative => .gt | .positive => .lt) ∧
      (UnpackedFloat.infinity s).compare f =
        some (match s with | .negative => .lt | .positive => .gt) := by
  cases f with
  | infinity t => cases hf
  | notANumber => cases hf
  | zero t => cases s <;> exact ⟨rfl, rfl⟩
  | finite t m e hm => cases s <;> cases t <;> exact ⟨rfl, rfl⟩

/-- Numbers compare with infinities as they do with the ends of the line. -/
theorem compare_extended {f g : UnpackedFloat} (hf : Canonical f ∨ ∃ s, f = .infinity s)
    (hg : Canonical g ∨ ∃ s, g = .infinity s) :
    ∃ o, f.compare g = some o ∧ o.Compares (extended f) (extended g) := by
  obtain hf | ⟨s, rfl⟩ := hf <;> obtain hg | ⟨t, rfl⟩ := hg
  · obtain ⟨o, ho, hcompares⟩ := compare_spec hf hg
    have hcast (a b : ℚ) : ((a : ℝ) : EReal) < ((b : ℝ) : EReal) ↔ a < b := by
      rw [EReal.coe_lt_coe_iff, Rat.cast_lt]
    refine ⟨o, ho, ?_⟩
    rw [extended_of_canonical hf, extended_of_canonical hg]
    cases o with
    | lt => exact (hcast _ _).mpr hcompares
    | eq => exact congrArg (fun q : ℚ => ((q : ℝ) : EReal)) hcompares
    | gt => exact (hcast _ _).mpr hcompares
  · rw [(compare_infinity hf t).1, extended_of_canonical hf]
    cases t with
    | negative => exact ⟨.gt, rfl, EReal.bot_lt_coe _⟩
    | positive => exact ⟨.lt, rfl, EReal.coe_lt_top _⟩
  · rw [(compare_infinity hg s).2, extended_of_canonical hg]
    cases s with
    | negative => exact ⟨.lt, rfl, EReal.bot_lt_coe _⟩
    | positive => exact ⟨.gt, rfl, EReal.coe_lt_top _⟩
  · cases s with
    | negative =>
      cases t with
      | negative => exact ⟨.eq, rfl, rfl⟩
      | positive => exact ⟨.lt, rfl, bot_lt_top⟩
    | positive =>
      cases t with
      | negative => exact ⟨.gt, rfl, bot_lt_top⟩
      | positive => exact ⟨.eq, rfl, rfl⟩

/-- A comparison with an undefined double has no outcome. -/
theorem compare_eq_none {x y : Float} (h : x.isNaN = true ∨ y.isNaN = true) :
    x.toModel.unpack.compare y.toModel.unpack = none := by
  obtain h | h := h
  · rw [isNaN_iff.mp h]
    rfl
  · rw [isNaN_iff.mp h]
    cases x.toModel.unpack with
    | infinity s => cases s <;> rfl
    | finite s m e hm => cases s <;> rfl
    | _ => rfl

/-- What a comparison finds out: what the numbers are, if both are numbers, and else nothing. -/
theorem compare_cases (x y : Float) :
    (∃ o, x.toModel.unpack.compare y.toModel.unpack = some o ∧ x.isNaN = false ∧
      y.isNaN = false ∧ o.Compares (value x) (value y)) ∨
    (x.toModel.unpack.compare y.toModel.unpack = none ∧ (x.isNaN = true ∨ y.isNaN = true)) := by
  by_cases h : x.isNaN = true ∨ y.isNaN = true
  · exact .inr ⟨compare_eq_none h, h⟩
  · rw [not_or, Bool.not_eq_true, Bool.not_eq_true] at h
    obtain ⟨o, ho, hcompares⟩ :=
      compare_extended (canonical_or_infinity h.1) (canonical_or_infinity h.2)
    exact .inl ⟨o, ho, h.1, h.2, hcompares⟩

/-- **Which double is smaller.** -/
theorem lt_iff (x y : Float) :
    x < y ↔ x.isNaN = false ∧ y.isNaN = false ∧ value x < value y := by
  have hlt : x < y ↔ (x.toModel.unpack.compare y.toModel.unpack == some .lt) = true :=
    decide_eq_true_iff
  rw [hlt]
  obtain ⟨o, ho, hx, hy, hcompares⟩ | ⟨hnone, hnan⟩ := compare_cases x y
  · rw [ho, ← hcompares.eq_lt]
    simp only [hx, hy, true_and, beq_iff_eq, Option.some.injEq]
  · rw [hnone]
    refine iff_of_false nofun fun ⟨hx, hy, _⟩ => ?_
    simp only [hx, hy, Bool.false_eq_true, or_self] at hnan

/-- **Which double is not larger.** -/
theorem le_iff (x y : Float) :
    x ≤ y ↔ x.isNaN = false ∧ y.isNaN = false ∧ value x ≤ value y := by
  have hle : x ≤ y ↔ (x.toModel.unpack.compare y.toModel.unpack).any (·.isLE) = true :=
    decide_eq_true_iff
  rw [hle]
  obtain ⟨o, ho, hx, hy, hcompares⟩ | ⟨hnone, hnan⟩ := compare_cases x y
  · rw [ho, ← hcompares.ne_gt]
    simp only [hx, hy, true_and, Option.any_some]
    cases o <;> decide
  · rw [hnone]
    refine iff_of_false nofun fun ⟨hx, hy, _⟩ => ?_
    simp only [hx, hy, Bool.false_eq_true, or_self] at hnan

/-- What is not found to be smaller is not smaller, if both are numbers. -/
theorem value_le_of_not_lt {x y : Float} (hx : x.isNaN = false) (hy : y.isNaN = false)
    (h : ¬x < y) : value y ≤ value x := by
  rw [lt_iff, not_and, not_and] at h
  exact not_lt.mp (h hx hy)

theorem value_lt_of_not_le {x y : Float} (hx : x.isNaN = false) (hy : y.isNaN = false)
    (h : ¬x ≤ y) : value y < value x := by
  rw [le_iff, not_and, not_and] at h
  exact not_le.mp (h hx hy)

end Double

end DensityAlgebra
