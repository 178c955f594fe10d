/-
# How many digits an error is shown with

The place to which an error is rounded is counted from the first digit that it has before it is
rounded. In units of that place the error has as many digits as are kept
(`Uncertainty.scaled_bounds`), and so has what it is rounded to, unless all of them are nines
that are rounded up: half a unit below the next power of ten (`Uncertainty.carryAt`) the error is
shown as that power, with one digit more.

Key definitions: `Uncertainty.carryAt`.
Key theorems: `Uncertainty.scaled_bounds`, `Uncertainty.nearest_lt_iff`,
`Uncertainty.error_digits`.
-/
import DensityAlgebra.Proofs.Decoding

namespace DensityAlgebra

namespace Text

/-- A number is written with as many digits as there are powers of ten up to it. -/
theorem length_toDigits_eq {n k : ℕ} (hlow : 10 ^ k ≤ n) (hhigh : n < 10 ^ (k + 1)) :
    (Nat.toDigits 10 n).length = k + 1 := by
  apply le_antisymm
  · exact (Nat.length_toDigits_le_iff (by norm_num) k.succ_pos).mpr hhigh
  · by_contra hlt
    obtain rfl | hk := k.eq_zero_or_pos
    · exact hlt (Nat.length_toDigits_pos)
    · have hle := (Nat.length_toDigits_le_iff (b := 10) (n := n) (by norm_num) hk).mp (by omega)
      omega

theorem length_toString {n : ℤ} {k : ℕ} (hlow : 10 ^ k ≤ n) (hhigh : n < 10 ^ (k + 1)) :
    (toString n).length = k + 1 := by
  lift n to ℕ using le_trans (by positivity) hlow
  rw [← String.length_toList, toList_toString_natCast]
  exact length_toDigits_eq (by exact_mod_cast hlow) (by exact_mod_cast hhigh)

end Text

namespace Uncertainty

variable {q : ℚ} {digits : ℕ}

/-- From here on an error with so many digits down to a place is rounded to one digit more, half
a unit below the power of ten. -/
def carryAt (digits : ℕ) (last : ℤ) : ℚ := (10 ^ digits - 1 / 2) * 10 ^ last

/-- **In units of the last place that is kept** a number has as many digits as are kept. -/
theorem scaled_bounds (hq : 0 < q) (hdigits : 1 ≤ digits) :
    10 ^ (digits - 1) ≤ q * 10 ^ (-(Int.log 10 q - digits + 1)) ∧
      q * 10 ^ (-(Int.log 10 q - digits + 1)) < 10 ^ digits := by
  have hlow : (10 : ℚ) ^ Int.log 10 q ≤ q := by
    exact_mod_cast Int.zpow_log_le_self (b := 10) (by norm_num) hq
  have hhigh : q < (10 : ℚ) ^ (Int.log 10 q + 1) := by
    exact_mod_cast Int.lt_zpow_succ_log_self (b := 10) (by norm_num) q
  have hunit : (0 : ℚ) < 10 ^ (-(Int.log 10 q - digits + 1)) := zpow_pos (by norm_num) _
  constructor
  · calc (10 : ℚ) ^ (digits - 1) = 10 ^ Int.log 10 q * 10 ^ (-(Int.log 10 q - digits + 1)) := by
          rw [← zpow_natCast, ← zpow_add₀ (by norm_num)]
          congr 1
          omega
      _ ≤ _ := mul_le_mul_of_nonneg_right hlow hunit.le
  · calc q * 10 ^ (-(Int.log 10 q - digits + 1))
        < 10 ^ (Int.log 10 q + 1) * 10 ^ (-(Int.log 10 q - digits + 1)) :=
          mul_lt_mul_of_pos_right hhigh hunit
      _ = 10 ^ digits := by
          rw [← zpow_natCast, ← zpow_add₀ (by norm_num)]
          congr 1
          omega

/-- What is rounded has the digits that are kept, or is the next power of ten. -/
theorem nearest_bounds (hq : 0 < q) (hdigits : 1 ≤ digits) :
    10 ^ (digits - 1) ≤ Rational.nearest (q * 10 ^ (-(Int.log 10 q - digits + 1))) ∧
      Rational.nearest (q * 10 ^ (-(Int.log 10 q - digits + 1))) ≤ 10 ^ digits := by
  obtain ⟨hlow, hhigh⟩ := scaled_bounds hq hdigits
  have hnear := Rational.nearest_isNearest (q * 10 ^ (-(Int.log 10 q - digits + 1)))
  exact ⟨hnear.ge_of_ge (by exact_mod_cast hlow), hnear.le_of_le (by exact_mod_cast hhigh.le)⟩

/-- **Where a digit more comes out**: the power of ten is even, so that it is taken from half a
unit below it on. -/
theorem nearest_lt_iff (hdigits : 1 ≤ digits) (q : ℚ) (last : ℤ) :
    Rational.nearest (q * 10 ^ (-last)) < 10 ^ digits ↔ q < carryAt digits last := by
  have heven : (10 ^ digits : ℤ) % 2 = 0 := by
    obtain ⟨k, rfl⟩ := Nat.exists_eq_add_of_le' hdigits
    rw [pow_succ]
    omega
  have hreached := (Rational.nearest_isNearest (q * 10 ^ (-last))).le_iff_of_even heven
  have hunit : (0 : ℚ) < 10 ^ last := zpow_pos (by norm_num) _
  have hscaled : ((10 ^ digits : ℤ) : ℚ) - 1 / 2 ≤ q * 10 ^ (-last) ↔ carryAt digits last ≤ q := by
    rw [zpow_neg, ← div_eq_mul_inv, le_div_iff₀ hunit, carryAt]
    push_cast
    rfl
  rw [← not_le, hreached, hscaled, not_le]

/-- Exact numbers are rounded to the last place, whatever is shown in front of it. -/
theorem exists_rounded (x err : ℚ) (digits : ℕ) :
    ∃ lead, rounded x err digits = some
      ⟨Rational.nearest (x * 10 ^ (-(Int.log 10 err - digits + 1))),
        Rational.nearest (err * 10 ^ (-(Int.log 10 err - digits + 1))),
        Int.log 10 err - digits + 1, lead⟩ :=
  ⟨_, rfl⟩

/-- **How many digits an error is shown with**: as many as are kept, or one more for an error that
is rounded up to a power of ten. -/
theorem error_digits {α : Type} (x : ℚ) {err : ℚ} (herr : err ≠ 0) {p : Precision}
    (hdigits : keptDigits (α := α) |err| p = .ok digits) :
    ∃ (r : Rounded) (fixed exponential : Form ℚ),
      rounded x |err| digits = some r ∧ fixedForm r = some fixed ∧
      exponentForm r = some exponential ∧
      text (α := α) x err p = .ok (shorter fixed.text exponential.text) ∧
      exponential.error = r.error ∧ fixed.error = r.error * 10 ^ r.last.toNat ∧
      r.last = ⌊Real.logb 10 |(err : ℝ)|⌋ - digits + 1 ∧
      10 ^ (digits - 1) ≤ r.error ∧ r.error ≤ 10 ^ digits ∧
      (r.error < 10 ^ digits ↔ |err| < carryAt digits r.last) ∧
      (toString r.error).length = if |err| < carryAt digits r.last then digits else digits + 1 := by
  have hpos : 0 < |err| := abs_pos.mpr herr
  have hone := one_le_of_keptDigits hdigits
  have hlast : Int.log 10 |err| = ⌊Real.logb 10 |(err : ℝ)|⌋ := by
    have hcast : |(err : ℝ)| = ((|err| : ℚ) : ℝ) := (Rat.cast_abs err).symm
    rw [hcast, floor_logb_eq hpos]
  obtain ⟨lead, hrounded⟩ := exists_rounded x |err| digits
  obtain ⟨hlow, hhigh⟩ := nearest_bounds hpos hone
  have hcarry := nearest_lt_iff hone |err| (Int.log 10 |err| - digits + 1)
  rw [← hlast]
  refine ⟨_, _, _, hrounded, rfl, rfl, ?_, rfl, rfl, rfl, hlow, hhigh, hcarry, ?_⟩
  · refine text_eq_shorter x herr hdigits ?_
    rw [formsText, hrounded]
    rfl
  · obtain ⟨k, rfl⟩ := Nat.exists_eq_add_of_le' hone
    split_ifs with hbelow
    · exact Text.length_toString hlow (hcarry.mpr hbelow)
    · have hpower := le_antisymm hhigh (not_lt.mp (mt hcarry.mp hbelow))
      simp only [hpower]
      exact Text.length_toString le_rfl (pow_lt_pow_right₀ (by norm_num) (Nat.lt_succ_self _))

/-- An error of 0.096 that is to be shown with one digit is shown as 0.10, with two of them. -/
theorem error_digits_carried :
    (12 / 125 : ℚ) ≠ 0 ∧ keptDigits (α := Empty) |(12 / 125 : ℚ)| (.whole 1) = .ok 1 ∧
      text (α := Empty) (1 : ℚ) (12 / 125) (.whole 1) = .ok "1.00(10)" ∧
      rounded (1 : ℚ) |12 / 125| 1 = some ⟨100, 10, -2, 0⟩ ∧
      (toString (10 : ℤ)).length = if |(12 / 125 : ℚ)| < carryAt 1 (-2) then 1 else 2 := by
  have herr : (12 / 125 : ℚ) ≠ 0 := by norm_num
  have hplace : rounded (1 : ℚ) |12 / 125| 1 = some ⟨100, 10, -2, 0⟩ := by decide +kernel
  obtain ⟨r, fixed, exponential, hrounded, -, -, -, -, -, -, -, -, -, hlength⟩ :=
    error_digits (α := Empty) 1 herr (p := .whole 1) rfl
  obtain rfl := Option.some.inj (hplace.symm.trans hrounded)
  exact ⟨herr, rfl, text_eq_shorter 1 herr rfl (by decide +kernel), hplace, hlength⟩

end Uncertainty

end DensityAlgebra
