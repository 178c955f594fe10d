/-
# Rounding

What is rounded to an integer lies at most half a unit from it, and where it lies halfway
between two integers the even one is taken. No other integer does so (`IsNearest.eq`), so two
ways to round that both keep to it come to the same integer.

A number is rounded to 53 binary digits by rounding it in units of the last digit that is kept
(`Double.place`); digits behind 2^-1074 are not kept at all. What comes out is below 2^1024
exactly if the number is below a ceiling that is half a unit lower.

Key definitions: `IsNearest`, `Rational.nearest`, `Double.place`, `Double.round`,
`Double.ceiling`.
Key theorems: `IsNearest.eq`, `IsNearest.le_iff_of_even`, `roundRatio_isNearest`,
`Double.round_eq_self`, `Double.abs_round_lt_iff`.
-/
import DensityAlgebra.Text.Decimal
import Mathlib.Algebra.Order.Field.Basic
import Mathlib.Data.Int.Log
import Mathlib.Data.Rat.Cast.Order
import Mathlib.Data.Rat.Floor
import Mathlib.Tactic.Linarith
import Mathlib.Tactic.NormNum
import Mathlib.Tactic.Positivity
import Mathlib.Tactic.Ring

namespace DensityAlgebra

/-! ### Rounding to an integer -/

/-- An integer is nearest to a number, and even where another integer is as near. -/
def IsNearest (n : ℤ) (q : ℚ) : Prop := |q - n| < 1 / 2 ∨ |q - n| = 1 / 2 ∧ n % 2 = 0

namespace IsNearest

variable {n m : ℤ} {q : ℚ}

theorem abs_sub_le (h : IsNearest n q) : |q - n| ≤ 1 / 2 := h.elim le_of_lt fun h => h.1.le

theorem intCast (n : ℤ) : IsNearest n n := .inl (by simp)

protected theorem neg (h : IsNearest n q) : IsNearest (-n) (-q) := by
  have habs : |-q - ((-n : ℤ) : ℚ)| = |q - n| := by
    rw [Int.cast_neg, neg_sub_neg, abs_sub_comm]
  rw [IsNearest, habs]
  exact h.imp_right fun h => ⟨h.1, by omega⟩

/-- A number below an integer is rounded to one that is not above it. -/
theorem le_of_le (h : IsNearest n q) (hq : q ≤ m) : n ≤ m := by
  have hn := (abs_le.mp h.abs_sub_le).1
  have hlt : (n : ℚ) < m + 1 := by linarith
  exact Int.lt_add_one_iff.mp (by exact_mod_cast hlt)

/-- A number above an integer is rounded to one that is not below it. -/
theorem ge_of_ge (h : IsNearest n q) (hq : m ≤ q) : m ≤ n := by
  have hneg := h.neg.le_of_le (m := -m) (by push_cast; linarith)
  omega

/-- **The nearest integer is unique.** -/
protected theorem eq (hn : IsNearest n q) (hm : IsNearest m q) : n = m := by
  by_contra hne
  have hn' := abs_le.mp hn.abs_sub_le
  have hm' := abs_le.mp hm.abs_sub_le
  -- two different integers that are near are one apart, so that both are half a unit away
  have hfar : 1 ≤ |(n : ℚ) - m| := by
    exact_mod_cast Int.one_le_abs (sub_ne_zero.mpr hne)
  have hsum : |(n : ℚ) - m| ≤ |q - m| + |q - n| := by
    rw [abs_sub_comm q n]
    calc |(n : ℚ) - m| = |(q - m) + (n - q)| := by ring_nf
      _ ≤ _ := abs_add_le _ _
  have hhalf : |q - n| = 1 / 2 ∧ |q - m| = 1 / 2 := by
    constructor <;> linarith [hn.abs_sub_le, hm.abs_sub_le]
  have hevenn : n % 2 = 0 := (hn.resolve_left fun h => h.ne hhalf.1).2
  have hevenm : m % 2 = 0 := (hm.resolve_left fun h => h.ne hhalf.2).2
  have hnear : |(n : ℚ) - m| ≤ 1 := by linarith
  have hnear : |n - m| ≤ 1 := by exact_mod_cast hnear
  have hapart : n ≠ m := hne
  rw [abs_le] at hnear
  omega

/-- An even integer is reached from half a unit below it. -/
theorem le_iff_of_even (h : IsNearest n q) (hm : m % 2 = 0) : m ≤ n ↔ m - 1 / 2 ≤ q := by
  constructor
  · intro hle
    have hcast : (m : ℚ) ≤ n := by exact_mod_cast hle
    linarith [(abs_le.mp h.abs_sub_le).1]
  · intro hle
    obtain hq | hq := le_total (m : ℚ) q
    · exact h.ge_of_ge hq
    · have hnear : IsNearest m q := by
        obtain heq | hlt := hle.eq_or_lt
        · refine .inr ⟨?_, hm⟩
          rw [← heq, abs_sub_comm, sub_sub_cancel, abs_of_pos (by norm_num)]
        · refine .inl ?_
          rw [abs_lt]
          constructor <;> linarith
      exact (hnear.eq h).le

/-- What is rounded at most doubles. -/
theorem abs_le_two_mul (h : IsNearest n q) : |(n : ℚ)| ≤ 2 * |q| := by
  obtain rfl | hn := eq_or_ne n 0
  · simp
  · have hone : 1 ≤ |(n : ℚ)| := by exact_mod_cast Int.one_le_abs hn
    have hsum : |(n : ℚ)| ≤ |q| + |q - n| := by
      calc |(n : ℚ)| = |q + (n - q)| := by ring_nf
        _ ≤ |q| + |(n : ℚ) - q| := abs_add_le _ _
        _ = _ := by rw [abs_sub_comm]
    linarith [h.abs_sub_le]

end IsNearest

/-- **The rounded quotient** of two naturals is nearest to their quotient. -/
theorem roundRatio_isNearest (num : ℕ) {den : ℕ} (hden : 0 < den) :
    IsNearest (roundRatio num den) (num / den) := by
  have hd : (0 : ℚ) < den := by exact_mod_cast hden
  have hsplit : (num : ℚ) / den = (num / den : ℕ) + (num % den : ℕ) / den := by
    rw [div_eq_iff hd.ne', add_mul, div_mul_cancel₀ _ hd.ne']
    exact_mod_cast (Nat.div_add_mod' num den).symm
  have hlt : ((num % den : ℕ) : ℚ) < den := by exact_mod_cast Nat.mod_lt num hden
  rw [hsplit]
  unfold roundRatio
  simp only
  generalize num / den = q at *
  generalize num % den = r at *
  have hr : (0 : ℚ) ≤ r / den := by positivity
  split_ifs with hbelow habove heven
  · have hhalf : (r : ℚ) / den < 1 / 2 := by
      rw [div_lt_iff₀ hd]
      have : (2 * r : ℚ) < den := by exact_mod_cast hbelow
      linarith
    exact .inl (by simpa [abs_of_nonneg hr] using hhalf)
  · have hhalf : 1 / 2 < (r : ℚ) / den := by
      rw [lt_div_iff₀ hd]
      have : (den : ℚ) < 2 * r := by exact_mod_cast habove
      linarith
    have hone : (r : ℚ) / den < 1 := by rwa [div_lt_one hd]
    refine .inl ?_
    push_cast
    rw [abs_lt]
    constructor <;> linarith
  all_goals
    have htie : (r : ℚ) / den = 1 / 2 := by
      rw [div_eq_iff hd.ne']
      have : (2 * r : ℚ) = den := by exact_mod_cast (by omega : 2 * r = den)
      linarith
    refine .inr ⟨?_, by omega⟩
    rw [htie]
    push_cast
  · rw [add_sub_cancel_left, abs_of_pos (by norm_num)]
  · rw [show (q : ℚ) + 1 / 2 - (q + 1) = -(1 / 2) by ring, abs_neg, abs_of_pos (by norm_num)]

namespace Rational

/-- The integer nearest to a rational number, ties to even. -/
def nearest (q : ℚ) : ℤ := q.num.sign * roundRatio q.num.natAbs q.den

theorem nearest_isNearest (q : ℚ) : IsNearest (nearest q) q := by
  have hround := roundRatio_isNearest q.num.natAbs q.den_pos
  obtain hneg | hzero | hpos := lt_trichotomy q.num 0
  · have hq : -((q.num.natAbs : ℚ) / q.den) = q := by
      rw [← neg_div, Nat.cast_natAbs, abs_of_neg hneg]
      push_cast
      rw [neg_neg, Rat.num_div_den]
    have hsign : nearest q = -(roundRatio q.num.natAbs q.den : ℤ) := by
      rw [nearest, Int.sign_eq_neg_one_of_neg hneg, neg_one_mul]
    rw [hsign]
    simpa only [hq] using hround.neg
  · obtain rfl : q = 0 := Rat.num_eq_zero.mp hzero
    exact IsNearest.intCast 0
  · have hq : (q.num.natAbs : ℚ) / q.den = q := by
      rw [Nat.cast_natAbs, abs_of_pos hpos, Rat.num_div_den]
    have hsign : nearest q = (roundRatio q.num.natAbs q.den : ℤ) := by
      rw [nearest, Int.sign_eq_one_of_pos hpos, one_mul]
    rw [hsign]
    simpa only [hq] using hround

theorem nearest_intCast (n : ℤ) : nearest n = n := (nearest_isNearest n).eq (.intCast n)

theorem nearest_zero : nearest 0 = 0 := nearest_intCast 0

theorem nearest_neg (q : ℚ) : nearest (-q) = -nearest q :=
  (nearest_isNearest (-q)).eq (nearest_isNearest q).neg

theorem nearest_nonneg {q : ℚ} (h : 0 ≤ q) : 0 ≤ nearest q :=
  (nearest_isNearest q).ge_of_ge (by simpa using h)

end Rational

namespace Double

/-! ### Rounding to 53 binary digits -/

/-- The exponent of the last binary digit that is kept of a number. -/
def place (q : ℚ) : ℤ := max (Int.log 2 |q| - 52) (-1074)

/-- The nearest number with 53 binary digits, none of them behind the smallest place. -/
def round (q : ℚ) : ℚ := Rational.nearest (q / 2 ^ place q) * 2 ^ place q

/-- From here on a number is rounded beyond all doubles, half a unit in the last place below
the power of two that would come after them. -/
def ceiling : ℚ := (2 ^ 54 - 1) * 2 ^ (970 : ℤ)

theorem place_neg (q : ℚ) : place (-q) = place q := by rw [place, place, abs_neg]

theorem pos_place (q : ℚ) : (0 : ℚ) < 2 ^ place q := zpow_pos (by norm_num) _

theorem neg_le_place (q : ℚ) : -1074 ≤ place q := le_max_right _ _

theorem place_le {q : ℚ} (hq : q ≠ 0) {e : ℤ} (h : |q| < 2 ^ (e + 53)) (he : -1074 ≤ e) :
    place q ≤ e := by
  have hlog := (Int.lt_zpow_iff_log_lt (by norm_num : 1 < 2) (abs_pos.mpr hq)).mp
    (by exact_mod_cast h)
  unfold place
  omega

theorem le_place {q : ℚ} (hq : q ≠ 0) {e : ℤ} (h : 2 ^ (e + 52) ≤ |q|) : e ≤ place q := by
  have hlog := (Int.zpow_le_iff_le_log (by norm_num : 1 < 2) (abs_pos.mpr hq)).mp
    (by exact_mod_cast h)
  unfold place
  omega

theorem round_neg (q : ℚ) : round (-q) = -round q := by
  rw [round, place_neg, neg_div, Rational.nearest_neg, round]
  push_cast
  ring

theorem round_zero : round 0 = 0 := by
  rw [round, zero_div, Rational.nearest_zero, Int.cast_zero, zero_mul]

theorem round_nonneg {q : ℚ} (h : 0 ≤ q) : 0 ≤ round q :=
  mul_nonneg (by exact_mod_cast Rational.nearest_nonneg (div_nonneg h (pos_place q).le))
    (pos_place q).le

/-- What has a digit that is kept is not rounded to zero. -/
theorem round_pos {q : ℚ} (h : 2 ^ (-1074 : ℤ) ≤ q) : 0 < round q := by
  have hq : 0 < q := (zpow_pos (by norm_num) _).trans_le h
  have hlog : -1074 ≤ Int.log 2 |q| := by
    rw [abs_of_pos hq]
    exact (Int.zpow_le_iff_le_log (by norm_num) hq).mp (by exact_mod_cast h)
  have hplace : (2 : ℚ) ^ place q ≤ q := by
    have hle : (2 : ℚ) ^ Int.log 2 |q| ≤ |q| := by
      exact_mod_cast Int.zpow_log_le_self (by norm_num) (abs_pos.mpr hq.ne')
    have hexponent : place q ≤ Int.log 2 |q| := by
      unfold place
      omega
    exact (zpow_le_zpow_right₀ (by norm_num) hexponent).trans (hle.trans_eq (abs_of_pos hq))
  have hone : 1 ≤ Rational.nearest (q / 2 ^ place q) :=
    (Rational.nearest_isNearest _).ge_of_ge (by
      rw [Int.cast_one, one_le_div (pos_place q)]
      exact hplace)
  exact mul_pos (by exact_mod_cast hone) (pos_place q)

theorem abs_round (q : ℚ) : |round q| = round |q| := by
  obtain hq | hq := le_total 0 q
  · rw [abs_of_nonneg hq, abs_of_nonneg (round_nonneg hq)]
  · rw [abs_of_nonpos hq, round_neg, ← abs_neg, ← round_neg,
      abs_of_nonneg (round_nonneg (neg_nonneg.mpr hq)), round_neg]

/-- Rounding at most doubles. -/
theorem abs_round_le (q : ℚ) : |round q| ≤ 2 * |q| := by
  have hp := pos_place q
  have hle := (Rational.nearest_isNearest (q / 2 ^ place q)).abs_le_two_mul
  rw [abs_div, abs_of_pos hp] at hle
  calc |round q| = |(Rational.nearest (q / 2 ^ place q) : ℚ)| * 2 ^ place q := by
        rw [round, abs_mul, abs_of_pos hp]
    _ ≤ 2 * (|q| / 2 ^ place q) * 2 ^ place q := mul_le_mul_of_nonneg_right hle hp.le
    _ = 2 * |q| := by rw [mul_assoc, div_mul_cancel₀ _ hp.ne']

theorem round_le_two_mul {q : ℚ} (h : 0 ≤ q) : round q ≤ 2 * q :=
  (le_abs_self _).trans ((abs_round_le q).trans_eq (by rw [abs_of_nonneg h]))

/-- A multiple of the unit in the last place is not rounded. -/
theorem round_eq_self_of_place_le {k e : ℤ} (h : place (k * 2 ^ e) ≤ e) :
    round (k * 2 ^ e) = k * 2 ^ e := by
  have hquotient : (k * 2 ^ e : ℚ) / 2 ^ place (k * 2 ^ e) =
      ((k * 2 ^ (e - place (k * 2 ^ e)).toNat : ℤ) : ℚ) := by
    push_cast
    rw [mul_div_assoc, ← zpow_sub₀ (by norm_num), ← zpow_natCast, Int.toNat_of_nonneg (by omega)]
  rw [round, hquotient, Rational.nearest_intCast, ← hquotient,
    div_mul_cancel₀ _ (pos_place _).ne']

/-- **What has at most 53 binary digits** is not rounded. -/
theorem round_eq_self {k e : ℤ} (hk : |k| ≤ 2 ^ 53) (he : -1074 ≤ e) :
    round (k * 2 ^ e) = k * 2 ^ e := by
  obtain rfl | hzero := eq_or_ne k 0
  · simp [round_zero]
  have hne : (k * 2 ^ e : ℚ) ≠ 0 :=
    mul_ne_zero (by exact_mod_cast hzero) (zpow_ne_zero _ (by norm_num))
  have habs : |(k * 2 ^ e : ℚ)| = (|k| : ℤ) * 2 ^ e := by
    rw [abs_mul, abs_of_pos (zpow_pos (by norm_num : (0 : ℚ) < 2) e), Int.cast_abs]
  obtain hlt | heq := hk.lt_or_eq
  · refine round_eq_self_of_place_le (place_le hne ?_ he)
    rw [habs, add_comm, zpow_add₀ (by norm_num)]
    exact mul_lt_mul_of_pos_right (by exact_mod_cast hlt) (zpow_pos (by norm_num) e)
  · -- 54 digits, of which the last one is zero
    obtain ⟨j, rfl⟩ : (2 : ℤ) ∣ k := by
      rw [← dvd_abs, heq]
      exact ⟨2 ^ 52, by norm_num⟩
    have hshift : ((2 * j : ℤ) * 2 ^ e : ℚ) = j * 2 ^ (e + 1) := by
      rw [zpow_add_one₀ (by norm_num)]
      push_cast
      ring
    rw [hshift] at hne habs ⊢
    refine round_eq_self_of_place_le (place_le hne ?_ (by omega))
    rw [habs, heq, show e + 1 + 53 = 54 + e by ring, zpow_add₀ (by norm_num)]
    exact mul_lt_mul_of_pos_right (by norm_num) (zpow_pos (by norm_num) e)

/-- A number is not rounded below the power of two that it has reached. -/
theorem zpow_log_le_round {r : ℚ} (hr : 0 < r) (hlog : -1022 ≤ Int.log 2 r) :
    2 ^ Int.log 2 r ≤ round r := by
  have hplace : place r = Int.log 2 r - 52 := by
    rw [place, abs_of_pos hr]
    omega
  have hp := pos_place r
  have hsplit : (2 : ℚ) ^ Int.log 2 r = ((2 ^ 52 : ℤ) : ℚ) * 2 ^ place r := by
    rw [show Int.log 2 r = 52 + place r by omega, zpow_add₀ (by norm_num)]
    norm_num
  rw [hsplit]
  refine mul_le_mul_of_nonneg_right ?_ hp.le
  have hle : ((2 ^ 52 : ℤ) : ℚ) ≤ r / 2 ^ place r := by
    rw [le_div_iff₀ hp, ← hsplit]
    exact_mod_cast Int.zpow_log_le_self (by norm_num) hr
  exact_mod_cast (Rational.nearest_isNearest _).ge_of_ge hle

/-- Powers of two in units of the distance between the ceiling and the end. -/
theorem two_zpow_add (n : ℕ) : (2 : ℚ) ^ (970 + n : ℤ) = 2 ^ n * 2 ^ (970 : ℤ) := by
  rw [add_comm, zpow_add₀ (by norm_num), zpow_natCast]

theorem two_zpow_le_ceiling : (2 : ℚ) ^ (1023 : ℤ) ≤ ceiling := by
  have hlast : (2 : ℚ) ^ (1023 : ℤ) = 2 ^ 53 * 2 ^ (970 : ℤ) := two_zpow_add 53
  rw [hlast, ceiling]
  exact mul_le_mul_of_nonneg_right (by norm_num) (zpow_pos (by norm_num) _).le

theorem ceiling_le_two_zpow : ceiling ≤ (2 : ℚ) ^ (1024 : ℤ) := by
  have hend : (2 : ℚ) ^ (1024 : ℤ) = 2 ^ 54 * 2 ^ (970 : ℤ) := two_zpow_add 54
  rw [hend, ceiling]
  exact mul_le_mul_of_nonneg_right (by norm_num) (zpow_pos (by norm_num) _).le

/-- Just before the end the last place is known, and the ceiling is half a unit below the end. -/
theorem round_lt_iff_of_last {r : ℚ} (hlow : 2 ^ (1023 : ℤ) ≤ r) (hhigh : r < 2 ^ (1024 : ℤ)) :
    round r < 2 ^ (1024 : ℤ) ↔ r < ceiling := by
  have hpos : 0 < r := (zpow_pos (by norm_num) _).trans_le hlow
  have hv : (0 : ℚ) < 2 ^ (971 : ℤ) := zpow_pos (by norm_num) _
  have hplace : place r = 971 := by
    refine le_antisymm (place_le hpos.ne' ?_ (by norm_num)) (le_place hpos.ne' ?_)
    · rw [abs_of_pos hpos]
      exact hhigh
    · rw [abs_of_pos hpos]
      exact hlow
  have hend : (2 : ℚ) ^ (1024 : ℤ) / 2 ^ (971 : ℤ) = 2 ^ 53 :=
    (zpow_sub₀ (by norm_num) 1024 971).symm.trans (zpow_natCast 2 53)
  have hside : (((2 ^ 53 : ℤ) : ℚ) - 1 / 2) * 2 ^ (971 : ℤ) = ceiling := by
    have hplaces : (2 : ℚ) ^ (971 : ℤ) = 2 ^ 1 * 2 ^ (970 : ℤ) := two_zpow_add 1
    rw [hplaces, ceiling]
    generalize (2 : ℚ) ^ (970 : ℤ) = u
    push_cast
    ring
  have hnear := ((Rational.nearest_isNearest (r / 2 ^ (971 : ℤ))).le_iff_of_even
    (m := 2 ^ 53) (by norm_num)).not
  rw [not_le, not_le, div_lt_iff₀ hv, hside] at hnear
  rw [← hnear, round, hplace, ← lt_div_iff₀ hv, hend]
  exact_mod_cast Iff.rfl

/-- **What is rounded beyond all doubles** is exactly what is not below the ceiling. -/
theorem abs_round_lt_iff (q : ℚ) : |round q| < 2 ^ (1024 : ℤ) ↔ |q| < ceiling := by
  rw [abs_round]
  generalize hr : |q| = r
  have hr : 0 ≤ r := hr ▸ abs_nonneg q
  obtain hsmall | hlarge := lt_or_ge r (2 ^ (1023 : ℤ))
  · refine iff_of_true ?_ (hsmall.trans_le two_zpow_le_ceiling)
    calc round r ≤ 2 * r := round_le_two_mul hr
      _ < 2 * 2 ^ (1023 : ℤ) := mul_lt_mul_of_pos_left hsmall (by norm_num)
      _ = 2 ^ (1024 : ℤ) := (zpow_one_add₀ (by norm_num) 1023).symm
  obtain hnext | hbeyond := lt_or_ge r (2 ^ (1024 : ℤ))
  · exact round_lt_iff_of_last hlarge hnext
  · have hpos : 0 < r := (zpow_pos (by norm_num) _).trans_le hlarge
    have hlog : 1024 ≤ Int.log 2 r :=
      (Int.zpow_le_iff_le_log (by norm_num : 1 < 2) hpos).mp (by exact_mod_cast hbeyond)
    have hround : 2 ^ (1024 : ℤ) ≤ round r :=
      (zpow_le_zpow_right₀ (by norm_num) hlog).trans (zpow_log_le_round hpos (by omega))
    exact iff_of_false (not_lt.mpr hround) (not_lt.mpr (ceiling_le_two_zpow.trans hbeyond))

/-- The digits that are kept of a number fill a significand, as far as there are places. -/
theorem isNearest_place_bounds {q : ℚ} (hq : 0 < q) {k : ℤ} (hk : IsNearest k (q / 2 ^ place q)) :
    k ≤ 2 ^ 53 ∧ (2 ^ 52 ≤ k ∨ place q = -1074) := by
  have hp := pos_place q
  have hplace : place q = max (Int.log 2 q - 52) (-1074) := by rw [place, abs_of_pos hq]
  refine ⟨hk.le_of_le ?_, ?_⟩
  · rw [div_le_iff₀ hp]
    rw [Int.cast_pow, Int.cast_ofNat, ← zpow_natCast, ← zpow_add₀ (by norm_num)]
    refine (Int.lt_zpow_succ_log_self (by norm_num : 1 < 2) q).le.trans ?_
    exact zpow_le_zpow_right₀ (by norm_num) (by push_cast; omega)
  · by_cases hlast : place q = -1074
    · exact .inr hlast
    · refine .inl (hk.ge_of_ge ?_)
      rw [le_div_iff₀ hp]
      rw [Int.cast_pow, Int.cast_ofNat, ← zpow_natCast, ← zpow_add₀ (by norm_num)]
      refine le_trans ?_ (Int.zpow_log_le_self (by norm_num : 1 < 2) hq)
      exact zpow_le_zpow_right₀ (by norm_num) (by push_cast; omega)

theorem abs_nearest_place_le (q : ℚ) : |Rational.nearest (q / 2 ^ place q)| ≤ 2 ^ 53 := by
  have hpos {r : ℚ} (hr : 0 < r) : |Rational.nearest (r / 2 ^ place r)| ≤ 2 ^ 53 := by
    rw [abs_of_nonneg (Rational.nearest_nonneg (div_nonneg hr.le (pos_place r).le))]
    exact (isNearest_place_bounds hr (Rational.nearest_isNearest _)).1
  obtain hneg | rfl | hq := lt_trichotomy q 0
  · have h := hpos (neg_pos.mpr hneg)
    rwa [place_neg, neg_div, Rational.nearest_neg, abs_neg] at h
  · rw [zero_div, Rational.nearest_zero]
    norm_num
  · exact hpos hq

/-- What is rounded is not rounded again. -/
theorem round_round (q : ℚ) : round (round q) = round q :=
  round_eq_self (abs_nearest_place_le q) (neg_le_place q)

end Double

end DensityAlgebra
