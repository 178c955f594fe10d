/-
# Doubles that are scaled by powers of ten

A machine has a logarithm and powers of ten with negative exponents; they are right up to rounding
(`Machine.Faithful`). A value and an error become integers in units of a common place. This takes
the power of ten that belongs to the place, its products with both numbers, and behind a place
before the point the product back, and each of them has to be a double. There is room for value
and error where all of them are (`Machine.Room`), and exactly there the two forms of a text exist
(`Machine.isSome_formsText`): the form with an exponent asks for nothing more.

There is room for moderate magnitudes, and none below a size of the error.

Key definitions: `Machine.Faithful`, `Machine.factor`, `Machine.shown`, `Machine.Room`,
`Machine.Moderate`, `Machine.exact`.
Key theorems: `Machine.nearest_scale`, `Machine.isSome_scaleInt`, `Machine.exponentForm_isSome`,
`Machine.isSome_formsText`, `Machine.room_of_moderate`, `Machine.not_room_of_small`,
`Machine.exact_faithful`.
-/
import DensityAlgebra.Proofs.Doubles
import DensityAlgebra.Fit

namespace DensityAlgebra

open Double (toRat ceiling)

namespace Machine

/-- The functions of a machine are right up to rounding: an exponent of a first digit may be one
off, and a power of ten with a negative exponent is a double of its size, which vanishes at most
where no double has that size. -/
structure Faithful (M : Machine) : Prop where
  decade_near : ∀ x : Float, x.isFinite → toRat x ≠ 0 → |M.decade x - Int.log 10 (|toRat x|)| ≤ 1
  fraction_finite : ∀ k < 0, (M.fraction k).isFinite
  fraction_nonneg : ∀ k < 0, 0 ≤ toRat (M.fraction k)
  fraction_le : ∀ k < 0, toRat (M.fraction k) ≤ 2 * 10 ^ k
  fraction_pos : ∀ k < 0, -308 ≤ k → 0 < toRat (M.fraction k)

variable (M : Machine)

/-- The power of ten that a number is multiplied with. -/
def factor (k : ℤ) : ℚ := if 0 ≤ k then Double.round (10 ^ k) else toRat (M.fraction k)

/-- The integer that is shown of a number in units of a place. -/
def shown (x : ℚ) (last : ℤ) : ℤ := Rational.nearest (Double.round (x * M.factor (-last)))

/-- The place of the last of so many digits of an error. -/
def last (err : Float) (digits : ℕ) : ℤ := M.decade err.abs - digits + 1

/-- There are doubles for all that a value and an error of so many digits are computed with: the
power of ten that makes integers of both, its products with both, and the value that is rounded
to a place before the point. -/
structure Room (x err : Float) (digits : ℕ) : Prop where
  power : -308 ≤ M.last err digits
  value : |toRat x| * M.factor (-M.last err digits) < ceiling
  error : |toRat err| * M.factor (-M.last err digits) < ceiling
  whole : 0 ≤ M.last err digits →
    |(M.shown (toRat x) (M.last err digits) : ℚ)| * 10 ^ M.last err digits < ceiling

variable {M}

theorem powerOfTen_eq_none {k : ℤ} (hk : 308 < k) : M.powerOfTen k = none := by
  rw [powerOfTen, if_pos (by omega), if_neg (by omega)]

theorem ten_pow_lt_ceiling : (10 : ℚ) ^ 308 < ceiling := by
  have h : 10 ^ 308 < (2 ^ 54 - 1) * 2 ^ 970 := by decide +kernel
  have h : ((10 ^ 308 : ℕ) : ℚ) < ((2 ^ 54 - 1) * 2 ^ 970 : ℕ) := Nat.cast_lt.mpr h
  have hceiling : ceiling = (2 ^ 54 - 1) * 2 ^ 970 := congrArg _ (zpow_natCast 2 970)
  rw [hceiling]
  rw [Nat.cast_pow, Nat.cast_mul, Nat.cast_pow, Nat.cast_sub (by norm_num), Nat.cast_pow] at h
  exact h

theorem powerOfTen_spec (hM : M.Faithful) {k : ℤ} (hk : k ≤ 308) :
    ∃ y, M.powerOfTen k = some y ∧ y.isFinite ∧ toRat y = M.factor k := by
  unfold powerOfTen factor
  split_ifs with h
  · have hround := Double.rounds_ofNat (10 ^ k.toNat)
    have hcast : ((10 ^ k.toNat : ℕ) : ℚ) = 10 ^ k := by
      conv_rhs => rw [← Int.toNat_of_nonneg h, zpow_natCast]
      push_cast
      rfl
    rw [hcast] at hround
    have hbelow : |(10 : ℚ) ^ k| < ceiling := by
      rw [abs_of_pos (zpow_pos (by norm_num) k)]
      refine lt_of_le_of_lt ?_ ten_pow_lt_ceiling
      rw [← zpow_natCast]
      exact zpow_le_zpow_right₀ (by norm_num) hk
    exact ⟨_, rfl, hround.isFinite_iff.mpr hbelow, hround.toRat_eq hbelow⟩
  · exact ⟨_, rfl, hM.fraction_finite k (by omega), rfl⟩

theorem factor_nonneg (hM : M.Faithful) (k : ℤ) : 0 ≤ M.factor k := by
  unfold factor
  split_ifs with h
  · exact Double.round_nonneg (zpow_pos (by norm_num) k).le
  · exact hM.fraction_nonneg k (by omega)

theorem factor_le (hM : M.Faithful) (k : ℤ) : M.factor k ≤ 2 * 10 ^ k := by
  unfold factor
  split_ifs with h
  · exact Double.round_le_two_mul (zpow_pos (by norm_num) k).le
  · exact hM.fraction_le k (by omega)

/-- A power of ten of a usual size does not vanish. -/
theorem factor_pos (hM : M.Faithful) {k : ℤ} (hk : -308 ≤ k) : 0 < M.factor k := by
  unfold factor
  split_ifs with h
  · refine Double.round_pos ?_
    calc (2 : ℚ) ^ (-1074 : ℤ) ≤ 1 := zpow_le_one_of_nonpos₀ (by norm_num) (by norm_num)
      _ ≤ 10 ^ k := one_le_zpow₀ (by norm_num) h
  · exact hM.fraction_pos k (by omega) hk

theorem abs_mul_factor (hM : M.Faithful) (x : ℚ) (k : ℤ) :
    |x * M.factor k| = |x| * M.factor k := by
  rw [abs_mul, abs_of_nonneg (factor_nonneg hM k)]

/-- What is shown has at most eight times the size of the number. -/
theorem abs_shown_le (hM : M.Faithful) (x : ℚ) (last : ℤ) :
    |(M.shown x last : ℚ)| ≤ 8 * |x| * 10 ^ (-last) :=
  calc |(M.shown x last : ℚ)| ≤ 2 * |Double.round (x * M.factor (-last))| :=
        (Rational.nearest_isNearest _).abs_le_two_mul
    _ ≤ 2 * (2 * (|x| * M.factor (-last))) := by
        rw [← abs_mul_factor hM]
        exact mul_le_mul_of_nonneg_left (Double.abs_round_le _) (by norm_num)
    _ ≤ 2 * (2 * (|x| * (2 * 10 ^ (-last)))) := by
        have hle := mul_le_mul_of_nonneg_left (factor_le hM (-last)) (abs_nonneg x)
        linarith
    _ = 8 * |x| * 10 ^ (-last) := by ring

/-- What is shown of a double that is scaled to a double is below the ceiling. -/
theorem abs_shown_lt (hM : M.Faithful) {x : Float} (hx : x.isFinite) {last : ℤ}
    (hlast : -308 ≤ last) (hbelow : |toRat x| * M.factor (-last) < ceiling) :
    |(M.shown (toRat x) last : ℚ)| < ceiling := by
  obtain ⟨y, -, hy, hvalue⟩ := powerOfTen_spec hM (k := -last) (by omega)
  have hmul := Double.rounds_mul hx hy
  rw [hvalue] at hmul
  have hround := hmul.toRat_eq (by rwa [abs_mul_factor hM])
  have hnear := Rational.nearest_isNearest (toRat (x * y))
  have hle := abs_le.mp (Double.abs_toRat_le (x * y))
  refine lt_of_le_of_lt ?_ Double.largest_lt_ceiling
  rw [shown, ← hround, abs_le]
  exact ⟨by exact_mod_cast hnear.ge_of_ge (by push_cast; exact hle.1),
    by exact_mod_cast hnear.le_of_le hle.2⟩

/-- **A double in units of a place**: there is an integer next to it exactly if the power of ten
and the product are doubles. -/
theorem nearest_scale (hM : M.Faithful) {x : Float} (hx : x.isFinite) (last : ℤ) :
    (M.powerOfTen (-last)).bind (fun y => Double.nearest (x * y)) =
      if -308 ≤ last ∧ |toRat x| * M.factor (-last) < ceiling then some (M.shown (toRat x) last)
      else none := by
  by_cases hlast : -308 ≤ last
  · obtain ⟨y, hpower, hy, hvalue⟩ := powerOfTen_spec hM (k := -last) (by omega)
    have hmul := Double.rounds_mul hx hy
    rw [hvalue] at hmul
    rw [hpower, Option.bind_some]
    by_cases hbelow : |toRat x| * M.factor (-last) < ceiling
    · rw [if_pos ⟨hlast, hbelow⟩]
      rw [← abs_mul_factor hM] at hbelow
      rw [Double.nearest_eq (hmul.isFinite_iff.mpr hbelow), hmul.toRat_eq hbelow, shown]
    · rw [if_neg fun h => hbelow h.2]
      rw [← abs_mul_factor hM] at hbelow
      exact Double.nearest_eq_none (hmul.isFinite_iff.not.mpr hbelow)
  · rw [powerOfTen_eq_none (by omega), if_neg fun h => hlast h.1]
    rfl

theorem isSome_ofInt? (n : ℤ) : (Double.ofInt? n).isSome ↔ |(n : ℚ)| < ceiling := by
  rw [← (Double.rounds_ofInt n).isFinite_iff]
  show (if (Float.ofInt n).isFinite then some (Float.ofInt n) else none).isSome ↔ _
  split_ifs with h <;> simp [h]

/-- **An integer times a power of ten** is a double where the product, or else the integer, is
below the ceiling. -/
theorem isSome_scaleInt (n k : ℤ) :
    (M.scaleInt n k).isSome ↔ |(n : ℚ)| * (if 0 ≤ k then 10 ^ k else 1) < ceiling := by
  unfold scaleInt
  by_cases hk : 0 ≤ k
  · have hcast : (((n * 10 ^ k.toNat : ℤ)) : ℚ) = n * 10 ^ k := by
      conv_rhs => rw [← Int.toNat_of_nonneg hk, zpow_natCast]
      push_cast
      rfl
    rw [if_pos hk, if_pos hk, ← abs_of_pos (zpow_pos (by norm_num : (0 : ℚ) < 10) k), ← abs_mul,
      ← hcast]
    exact isSome_ofInt? _
  · rw [if_neg hk, if_neg hk, mul_one, ← isSome_ofInt?, powerOfTen, if_neg hk]
    cases Double.ofInt? n <;> rfl

/-- The exponent of the first digit of the larger one of a value and an error. -/
def lead (M : Machine) (x err : Float) : ℤ :=
  if x == 0.0 || decide (x.abs < err.abs) then M.decade err.abs else M.decade x.abs

/-- A value and an error in units of a common place. -/
def pair (M : Machine) (x err : Float) (digits : ℕ) : Uncertainty.Rounded :=
  ⟨M.shown (toRat x) (M.last err digits), M.shown |toRat err| (M.last err digits),
    M.last err digits, M.lead x err⟩

/-- **A value and an error are rounded** to a common place exactly if there are doubles for it. -/
theorem rounded_eq (hM : M.Faithful) {x err : Float} (hx : x.isFinite) (herr : err.isFinite)
    (digits : ℕ) :
    Uncertainty.rounded (β := M.Number) x err.abs digits =
      if -308 ≤ M.last err digits ∧ |toRat x| * M.factor (-M.last err digits) < ceiling ∧
          |toRat err| * M.factor (-M.last err digits) < ceiling then
        some (M.pair x err digits)
      else none := by
  have hvalue := nearest_scale hM hx (M.last err digits)
  have herror := nearest_scale hM (x := err.abs) (by rwa [Double.isFinite_abs]) (M.last err digits)
  rw [Double.toRat_abs, abs_abs] at herror
  have hunfold : Uncertainty.rounded (β := M.Number) x err.abs digits =
      ((M.powerOfTen (-M.last err digits)).bind fun y => Double.nearest (x * y)).bind fun value =>
        ((M.powerOfTen (-M.last err digits)).bind fun y => Double.nearest (err.abs * y)).bind
          fun error => some ⟨value, error, M.last err digits, M.lead x err⟩ := by
    show ((M.powerOfTen (-M.last err digits)).map (Float.mul x)).bind _ = _
    cases hpower : M.powerOfTen (-M.last err digits) with
    | none => rfl
    | some y =>
      show (Double.nearest (x * y)).bind (fun value =>
        ((M.powerOfTen (-M.last err digits)).map (Float.mul err.abs)).bind _) = _
      rw [hpower]
      rfl
  rw [hunfold, hvalue, herror]
  by_cases hlast : -308 ≤ M.last err digits
  · by_cases hx : |toRat x| * M.factor (-M.last err digits) < ceiling
    · by_cases he : |toRat err| * M.factor (-M.last err digits) < ceiling
      · simp [hlast, hx, he, pair]
      · simp [hx, he]
    · simp [hx]
  · simp [hlast]

open Uncertainty (Rounded exponentForm fixedForm formsText)

theorem isSome_exponentForm (r : Rounded) :
    (exponentForm (β := M.Number) r).isSome ↔
      |(r.value : ℚ)| * (if 0 ≤ -(r.lead - r.last) then 10 ^ (-(r.lead - r.last)) else 1) <
        ceiling := by
  rw [← isSome_scaleInt (M := M)]
  show ((M.scaleInt r.value (-(r.lead - r.last))).bind _).isSome ↔ _
  cases M.scaleInt r.value (-(r.lead - r.last)) <;> rfl

theorem isSome_fixedForm (r : Rounded) :
    (fixedForm (β := M.Number) r).isSome ↔
      |(r.value : ℚ)| * (if 0 ≤ r.last then 10 ^ r.last else 1) < ceiling := by
  rw [← isSome_scaleInt (M := M)]
  show ((M.scaleInt r.value r.last).bind _).isSome ↔ _
  cases M.scaleInt r.value r.last <;> rfl

theorem decade_bounds (hM : M.Faithful) {err : Float} (herr : err.isFinite)
    (hzero : toRat err ≠ 0) :
    Int.log 10 |toRat err| - 1 ≤ M.decade err.abs ∧
      M.decade err.abs ≤ Int.log 10 |toRat err| + 1 := by
  have hnear := hM.decade_near err.abs (by rwa [Double.isFinite_abs])
    (by rwa [Double.toRat_abs, abs_ne_zero])
  rw [Double.toRat_abs, abs_abs, abs_le] at hnear
  omega

/-- A double that is not zero is at most a hundred times the power of ten of its first digit. -/
theorem abs_toRat_lt_decade (hM : M.Faithful) {x : Float} (hx : x.isFinite) (hzero : toRat x ≠ 0) :
    |toRat x| < 10 ^ (M.decade x.abs + 2) := by
  have hle := (decade_bounds hM hx hzero).1
  refine (Int.lt_zpow_succ_log_self (by norm_num : 1 < 10) |toRat x|).trans_le ?_
  exact zpow_le_zpow_right₀ (by norm_num) (by omega)

/-- A value in units of its own first digit has few digits. -/
theorem abs_shown_mul_lt (hM : M.Faithful) {x : Float} (hx : x.isFinite) (hzero : toRat x ≠ 0)
    (last : ℤ) :
    |(M.shown (toRat x) last : ℚ)| * 10 ^ (-(M.decade x.abs - last)) < ceiling :=
  calc |(M.shown (toRat x) last : ℚ)| * 10 ^ (-(M.decade x.abs - last)) ≤
        8 * |toRat x| * 10 ^ (-last) * 10 ^ (-(M.decade x.abs - last)) :=
        mul_le_mul_of_nonneg_right (abs_shown_le hM _ last) (zpow_pos (by norm_num) _).le
    _ = 8 * (|toRat x| * 10 ^ (-M.decade x.abs)) := by
        rw [mul_assoc, ← zpow_add₀ (by norm_num), mul_assoc]
        ring_nf
    _ ≤ 8 * (10 ^ (M.decade x.abs + 2) * 10 ^ (-M.decade x.abs)) := by
        have hle := mul_le_mul_of_nonneg_right (abs_toRat_lt_decade hM hx hzero).le
          (zpow_pos (by norm_num : (0 : ℚ) < 10) (-M.decade x.abs)).le
        linarith
    _ = (800 : ℕ) := by
        rw [← zpow_add₀ (by norm_num), add_neg_cancel_comm]
        norm_num
    _ < ceiling := by
        have hlt := Double.natCast_lt_ceiling (n := 800) (by norm_num)
        rwa [Nat.abs_cast] at hlt

/-- **The form with an exponent always exists** where value and error are rounded. -/
theorem exponentForm_isSome (hM : M.Faithful) {x err : Float} (hx : x.isFinite) {digits : ℕ}
    (hdigits : 1 ≤ digits) (hlast : -308 ≤ M.last err digits)
    (hbelow : |toRat x| * M.factor (-M.last err digits) < ceiling) :
    (exponentForm (β := M.Number) (M.pair x err digits)).isSome := by
  have hshown := abs_shown_lt hM hx hlast hbelow
  refine (isSome_exponentForm _).mpr ?_
  show |(M.shown (toRat x) (M.last err digits) : ℚ)| *
    (if 0 ≤ -(M.lead x err - M.last err digits) then 10 ^ (-(M.lead x err - M.last err digits))
      else 1) < ceiling
  split_ifs with hplaces
  · by_cases hlead : (x == 0.0 || decide (x.abs < err.abs)) = true
    · -- the error has the first digit, and so many digits that none is missing before the point
      rw [lead, if_pos hlead] at hplaces ⊢
      have hzero : -(M.decade err.abs - M.last err digits) = 0 := by
        unfold last at hplaces ⊢
        omega
      rwa [hzero, zpow_zero, mul_one]
    · rw [lead, if_neg hlead]
      refine abs_shown_mul_lt hM hx (fun hzero => hlead ?_) _
      rw [(Double.beq_zero_iff hx).mpr hzero, Bool.true_or]
  · rwa [mul_one]

/-- **The text of a value with an error that is not zero exists exactly if there is room.** -/
theorem isSome_formsText (hM : M.Faithful) {x err : Float} (hx : x.isFinite) (herr : err.isFinite)
    {digits : ℕ} (hdigits : 1 ≤ digits) :
    (formsText (β := M.Number) x err.abs digits).isSome ↔ M.Room x err digits := by
  have hrounded := rounded_eq hM hx herr digits
  by_cases hroom : -308 ≤ M.last err digits ∧
      |toRat x| * M.factor (-M.last err digits) < ceiling ∧
      |toRat err| * M.factor (-M.last err digits) < ceiling
  · rw [if_pos hroom] at hrounded
    obtain ⟨hlast, hvalue, herror⟩ := hroom
    obtain ⟨exponential, hexponential⟩ := Option.isSome_iff_exists.mp
      (exponentForm_isSome hM hx hdigits hlast hvalue)
    have htext : (formsText (β := M.Number) x err.abs digits).isSome ↔
        (fixedForm (β := M.Number) (M.pair x err digits)).isSome := by
      show ((Uncertainty.rounded (β := M.Number) x err.abs digits).bind _).isSome ↔ _
      rw [hrounded, Option.bind_some]
      show ((exponentForm (β := M.Number) _).bind _).isSome ↔ _
      rw [hexponential, Option.bind_some]
      cases fixedForm (β := M.Number) _ <;> rfl
    refine (htext.trans (isSome_fixedForm _)).trans ?_
    show |(M.shown (toRat x) (M.last err digits) : ℚ)| *
      (if 0 ≤ M.last err digits then 10 ^ M.last err digits else 1) < ceiling ↔ _
    constructor
    · intro h
      refine ⟨hlast, hvalue, herror, fun hwhole => ?_⟩
      rwa [if_pos hwhole] at h
    · intro h
      split_ifs with hwhole
      · exact h.whole hwhole
      · rw [mul_one]
        exact abs_shown_lt hM hx hlast hvalue
  · rw [if_neg hroom] at hrounded
    have hnone : formsText (β := M.Number) x err.abs digits = none := by
      show (Uncertainty.rounded (β := M.Number) x err.abs digits).bind _ = none
      rw [hrounded]
      rfl
    rw [hnone]
    exact iff_of_false (by simp) fun h => hroom ⟨h.power, h.value, h.error⟩

/-! ### Magnitudes with and without room -/

/-- Magnitudes of a value and an error that leave room for so many digits. -/
structure Moderate (x err : ℚ) (digits : ℕ) : Prop where
  few : digits ≤ 306
  notSmall : 10 ^ (digits - 308 : ℤ) ≤ |err|
  notLarge : |x| ≤ 10 ^ 307
  notFar : |x| * 10 ^ (digits + 1) ≤ |err| * 10 ^ 307

theorem lt_ceiling {q : ℚ} (h : q ≤ 8 * 10 ^ 307) : q < ceiling :=
  calc q ≤ 8 * 10 ^ 307 := h
    _ ≤ 10 * 10 ^ 307 := mul_le_mul_of_nonneg_right (by norm_num) (pow_pos (by norm_num) _).le
    _ = 10 ^ 308 := (pow_succ' 10 307).symm
    _ < ceiling := ten_pow_lt_ceiling

theorem mul_factor_lt (hM : M.Faithful) {q : ℚ} (hq : 0 ≤ q) {j k : ℤ} (hjk : j ≤ k)
    (h : q * 10 ^ k ≤ 10 ^ 307) : q * M.factor j < ceiling := by
  have hfactor : M.factor j ≤ 2 * 10 ^ k :=
    (factor_le hM j).trans
      (mul_le_mul_of_nonneg_left (zpow_le_zpow_right₀ (by norm_num) hjk) (by norm_num))
  refine lt_ceiling ?_
  calc q * M.factor j ≤ q * (2 * 10 ^ k) := mul_le_mul_of_nonneg_left hfactor hq
    _ = 2 * (q * 10 ^ k) := mul_left_comm _ _ _
    _ ≤ 2 * 10 ^ 307 := mul_le_mul_of_nonneg_left h (by norm_num)
    _ ≤ 8 * 10 ^ 307 := mul_le_mul_of_nonneg_right (by norm_num) (pow_pos (by norm_num) _).le

theorem room_of_moderate (hM : M.Faithful) {x err : Float} (herr : err.isFinite) {digits : ℕ}
    (h : Moderate (toRat x) (toRat err) digits) : M.Room x err digits := by
  obtain ⟨hfew, hsmall, hlarge, hfar⟩ := h
  have hpos : 0 < |toRat err| := (zpow_pos (by norm_num) _).trans_le hsmall
  obtain ⟨hlow, hhigh⟩ := decade_bounds hM herr (abs_pos.mp hpos)
  have hlog : digits - 308 ≤ Int.log 10 |toRat err| :=
    (Int.zpow_le_iff_le_log (by norm_num : 1 < 10) hpos).mp (by exact_mod_cast hsmall)
  have hupper : |toRat err| < 10 ^ (Int.log 10 |toRat err| + 1) := by
    exact_mod_cast Int.lt_zpow_succ_log_self (by norm_num : 1 < 10) |toRat err|
  generalize Int.log 10 |toRat err| = T at hlow hhigh hlog hupper
  have hten (k : ℤ) : (0 : ℚ) < 10 ^ k := zpow_pos (by norm_num) k
  have hplace : -M.last err digits ≤ digits - T := by
    unfold last
    omega
  have hvalue : |toRat x| * 10 ^ (digits - T : ℤ) ≤ 10 ^ 307 :=
    calc |toRat x| * 10 ^ (digits - T : ℤ) = |toRat x| * 10 ^ (digits + 1) * 10 ^ (-(T + 1)) := by
          rw [mul_assoc, ← zpow_natCast, ← zpow_add₀ (by norm_num)]
          push_cast
          ring_nf
      _ ≤ |toRat err| * 10 ^ 307 * 10 ^ (-(T + 1)) :=
          mul_le_mul_of_nonneg_right hfar (hten _).le
      _ ≤ 10 ^ (T + 1) * 10 ^ 307 * 10 ^ (-(T + 1)) :=
          mul_le_mul_of_nonneg_right
            (mul_le_mul_of_nonneg_right hupper.le (pow_pos (by norm_num) _).le) (hten _).le
      _ = 10 ^ 307 := by
          rw [mul_right_comm, ← zpow_add₀ (by norm_num), add_neg_cancel, zpow_zero, one_mul]
  have herror : |toRat err| * 10 ^ (digits - T : ℤ) ≤ 10 ^ 307 :=
    calc |toRat err| * 10 ^ (digits - T : ℤ) ≤ 10 ^ (T + 1) * 10 ^ (digits - T : ℤ) :=
          mul_le_mul_of_nonneg_right hupper.le (hten _).le
      _ = 10 ^ (digits + 1 : ℤ) := by
          rw [← zpow_add₀ (by norm_num)]
          ring_nf
      _ ≤ 10 ^ (307 : ℤ) := zpow_le_zpow_right₀ (by norm_num) (by omega)
      _ = 10 ^ 307 := zpow_natCast 10 307
  refine ⟨?_, mul_factor_lt hM (abs_nonneg _) hplace hvalue,
    mul_factor_lt hM (abs_nonneg _) hplace herror, fun _ => lt_ceiling ?_⟩
  · unfold last
    omega
  · calc |(M.shown (toRat x) (M.last err digits) : ℚ)| * 10 ^ M.last err digits ≤
          8 * |toRat x| * 10 ^ (-M.last err digits) * 10 ^ M.last err digits :=
          mul_le_mul_of_nonneg_right (abs_shown_le hM _ _) (hten _).le
      _ = 8 * |toRat x| := by
          rw [mul_assoc, ← zpow_add₀ (by norm_num), neg_add_cancel, zpow_zero, mul_one]
      _ ≤ 8 * 10 ^ 307 := mul_le_mul_of_nonneg_left hlarge (by norm_num)

/-- There is no room below a magnitude of the error. -/
theorem not_room_of_small (hM : M.Faithful) {x err : Float} (herr : err.isFinite)
    (hzero : toRat err ≠ 0) {digits : ℕ} (h : |toRat err| < 10 ^ (digits - 310 : ℤ)) :
    ¬M.Room x err digits := by
  intro hroom
  have hpower := hroom.power
  have hdecade := (decade_bounds hM herr hzero).2
  have hlog : Int.log 10 |toRat err| < digits - 310 :=
    (Int.lt_zpow_iff_log_lt (by norm_num : 1 < 10) (abs_pos.mpr hzero)).mp (by exact_mod_cast h)
  unfold last at hpower
  omega

/-! ### A machine without errors of its own -/

/-- Natural powers are compared as natural numbers, and so are their inverses. -/
theorem two_zpow_neg_lt {m n : ℕ} (h : 10 ^ n < 2 ^ m) : (2 : ℚ) ^ (-m : ℤ) < 10 ^ (-n : ℤ) := by
  have hcast : (10 : ℚ) ^ n < 2 ^ m := by exact_mod_cast h
  rw [zpow_neg, zpow_neg, zpow_natCast, zpow_natCast]
  exact inv_strictAnti₀ (pow_pos (by norm_num) n) hcast

/-- The machine whose logarithm and powers are exact and then rounded once. -/
def exact : Machine where
  decade x := Int.log 10 |toRat x|
  fraction k := Double.ofRat (10 ^ k)

theorem exact_faithful : exact.Faithful := by
  have hbelow {k : ℤ} (hk : k < 0) : |(10 : ℚ) ^ k| < ceiling := by
    rw [abs_of_pos (zpow_pos (by norm_num) k)]
    refine lt_ceiling ((zpow_le_one_of_nonpos₀ (by norm_num) hk.le).trans ?_)
    calc (1 : ℚ) ≤ 8 * 1 := by norm_num
      _ ≤ 8 * 10 ^ 307 := mul_le_mul_of_nonneg_left (one_le_pow₀ (by norm_num)) (by norm_num)
  have hvalue {k : ℤ} (hk : k < 0) : toRat (exact.fraction k) = Double.round (10 ^ k) :=
    (Double.rounds_ofRat _).toRat_eq (hbelow hk)
  refine ⟨fun x _ _ => ?_, fun k hk => (Double.rounds_ofRat _).isFinite_iff.mpr (hbelow hk),
    fun k hk => ?_, fun k hk => ?_, fun k hk hleast => ?_⟩
  · show |Int.log 10 (|toRat x|) - Int.log 10 (|toRat x|)| ≤ 1
    rw [sub_self, abs_zero]
    exact zero_le_one
  · rw [hvalue hk]
    exact Double.round_nonneg (zpow_pos (by norm_num) k).le
  · rw [hvalue hk]
    exact Double.round_le_two_mul (zpow_pos (by norm_num) k).le
  · rw [hvalue hk]
    refine Double.round_pos ?_
    exact (two_zpow_neg_lt (by decide +kernel : 10 ^ 308 < 2 ^ 1074)).le.trans
      (zpow_le_zpow_right₀ (by norm_num) hleast)

end Machine

end DensityAlgebra
