/-
# Sums of doubles

Rounding keeps the order of numbers (`Double.round_mono`), and so does taking what is beyond the
ceiling for infinite (`Double.rounded_mono`). A sum or a difference of finite doubles is the exact
one, rounded once (`Double.value_add`, `Double.value_sub`).

A sum of three that is rounded twice may be too small. If it still is below a double, the exact
sum is not above it (`Double.sum_le_of_round_lt`): in the second addition the next double is at
least half a unit away from what is rounded, and the first one misses by half a unit of a place
that is not higher.

Key definitions: `Double.extended`, `Double.value`, `Double.rounded`.
Key theorems: `Double.round_mono`, `Double.sum_le_of_round_lt`, `Double.value_add`,
`Double.value_sub`, `Double.value_le_add`.
-/
import DensityAlgebra.Proofs.Doubles

namespace DensityAlgebra

/-! ### Rounding keeps the order -/

/-- Of two numbers the larger one is not rounded to a smaller integer. -/
theorem IsNearest.mono {n m : ℤ} {q r : ℚ} (hn : IsNearest n q) (hm : IsNearest m r) (h : q ≤ r) :
    n ≤ m := by
  by_contra hlt
  have hapart : (m : ℚ) + 1 ≤ n := by exact_mod_cast not_le.mp hlt
  have hq := (abs_le.mp hn.abs_sub_le).1
  have hr := (abs_le.mp hm.abs_sub_le).2
  -- both would lie halfway between the two integers, and one number is rounded in one way
  obtain rfl : q = r := by linarith
  exact hlt (hn.eq hm).le

namespace Double

open Float.Model (UnpackedFloat Format)
open Float.Model.UnpackedFloat (Sign decreaseExponent)

theorem place_mono {q r : ℚ} (hq : 0 < q) (h : q ≤ r) : place q ≤ place r := by
  rw [place, place, abs_of_pos hq, abs_of_pos (hq.trans_le h)]
  exact max_le_max_right _ (Int.sub_le_sub_right (Int.log_mono_right hq h) 52)

theorem round_mono_of_pos {q r : ℚ} (hq : 0 < q) (h : q ≤ r) : round q ≤ round r := by
  have hnearq := Rational.nearest_isNearest (q / 2 ^ place q)
  have hnearr := Rational.nearest_isNearest (r / 2 ^ place r)
  obtain hsame | hlower := (place_mono hq h).eq_or_lt
  · rw [round, round, ← hsame]
    rw [← hsame] at hnearr
    have hle := hnearq.mono hnearr (div_le_div_of_nonneg_right h (pos_place q).le)
    exact mul_le_mul_of_nonneg_right (by exact_mod_cast hle) (pos_place q).le
  · -- the digits that are kept of the smaller number end before those of the larger one start
    have hlast := neg_le_place q
    have hfull := (isNearest_place_bounds hq hnearq).1
    have hfull' := (isNearest_place_bounds (hq.trans_le h) hnearr).2.resolve_right (by omega)
    calc round q ≤ ((2 ^ 53 : ℤ) : ℚ) * 2 ^ place q :=
          mul_le_mul_of_nonneg_right (by exact_mod_cast hfull) (pos_place q).le
      _ = ((2 ^ 52 : ℤ) : ℚ) * 2 ^ (place q + 1) := by
          rw [zpow_add_one₀ (by norm_num)]
          push_cast
          ring
      _ ≤ ((2 ^ 52 : ℤ) : ℚ) * 2 ^ place r :=
          mul_le_mul_of_nonneg_left (zpow_le_zpow_right₀ (by norm_num) hlower) (by norm_num)
      _ ≤ round r := mul_le_mul_of_nonneg_right (by exact_mod_cast hfull') (pos_place r).le

/-- **Rounding keeps the order.** -/
theorem round_mono : Monotone round := by
  intro q r h
  obtain hq | hq := lt_or_ge 0 q
  · exact round_mono_of_pos hq h
  obtain hr | hr := lt_or_ge r 0
  · have hneg := round_mono_of_pos (neg_pos.mpr hr) (neg_le_neg h)
    rw [round_neg, round_neg] at hneg
    exact neg_le_neg_iff.mp hneg
  · have hneg := round_nonneg (neg_nonneg.mpr hq)
    rw [round_neg] at hneg
    exact (neg_nonneg.mp hneg).trans (round_nonneg hr)

/-- Rounding misses by at most half a unit in the last place. -/
theorem abs_sub_round_le (q : ℚ) : |q - round q| ≤ 2 ^ place q / 2 := by
  have hp := pos_place q
  have hnear := (Rational.nearest_isNearest (q / 2 ^ place q)).abs_sub_le
  calc |q - round q|
      = |q / 2 ^ place q - Rational.nearest (q / 2 ^ place q)| * 2 ^ place q := by
        rw [← abs_of_pos hp, ← abs_mul, abs_of_pos hp, sub_mul, div_mul_cancel₀ _ hp.ne', round]
    _ ≤ 1 / 2 * 2 ^ place q := mul_le_mul_of_nonneg_right hnear hp.le
    _ = 2 ^ place q / 2 := by ring

/-- A number that is not rounded is a multiple of each unit that is not above its own. -/
theorem exists_eq_mul_of_round_eq {q : ℚ} (hq : round q = q) {e : ℤ} (he : e ≤ place q) :
    ∃ k : ℤ, q = k * 2 ^ e := by
  refine ⟨Rational.nearest (q / 2 ^ place q) * 2 ^ (place q - e).toNat, ?_⟩
  have hsplit : (2 : ℚ) ^ place q = 2 ^ (place q - e).toNat * 2 ^ e := by
    rw [← zpow_natCast, ← zpow_add₀ (by norm_num), Int.toNat_of_nonneg (by omega)]
    congr 1
    omega
  calc q = Rational.nearest (q / 2 ^ place q) * 2 ^ place q := hq.symm
    _ = Rational.nearest (q / 2 ^ place q) * (2 ^ (place q - e).toNat * 2 ^ e) := by rw [← hsplit]
    _ = _ := by
      push_cast
      ring

/-- What is rounded to less than a double lies half a unit below it. -/
theorem le_sub_of_round_lt {x y : ℚ} (hx : 0 < x) (hy : round y = y) (h : round x < y) :
    x ≤ y - 2 ^ place x / 2 := by
  have hp := pos_place x
  have hbelow : x ≤ y := by
    by_contra hlt
    exact h.not_ge (hy.symm.trans_le (round_mono (not_le.mp hlt).le))
  obtain ⟨k, hk⟩ := exists_eq_mul_of_round_eq hy (place_mono hx hbelow)
  -- the next multiple of the unit is not above the double
  have hnext : round x + 2 ^ place x ≤ y := by
    have hlt : Rational.nearest (x / 2 ^ place x) < k := by
      have hlt := h.trans_eq hk
      exact_mod_cast lt_of_mul_lt_mul_right hlt hp.le
    rw [hk, round, ← add_one_mul]
    exact mul_le_mul_of_nonneg_right (by exact_mod_cast hlt) hp.le
  linarith [(abs_le.mp (abs_sub_round_le x)).2]

/-- What is rounded to zero is below every positive double. -/
theorem lt_of_round_eq_zero {x y : ℚ} (hx : round x = 0) (hy : round y = y) (hpos : 0 < y) :
    x < y := by
  by_contra hlt
  have hle := round_mono (not_lt.mp hlt)
  rw [hx, hy] at hle
  exact hpos.not_ge hle

/-- A number that is not below what another one is rounded to has no lower last place. -/
theorem place_le_of_round_le {q x : ℚ} (hq : 0 < q) (hx : 0 < x) (h : round q ≤ x) :
    place q ≤ place x := by
  obtain hfull | hlast := (isNearest_place_bounds hq (Rational.nearest_isNearest _)).2
  · refine le_place hx.ne' ?_
    rw [abs_of_pos hx]
    calc (2 : ℚ) ^ (place q + 52) = ((2 ^ 52 : ℤ) : ℚ) * 2 ^ place q := by
          rw [add_comm, zpow_add₀ (by norm_num)]
          norm_num
      _ ≤ round q := mul_le_mul_of_nonneg_right (by exact_mod_cast hfull) (pos_place q).le
      _ ≤ x := h
  · rw [hlast]
    exact neg_le_place x

/-- **A sum of three that is rounded twice** and still is below a double is not above it before it
is rounded. -/
theorem sum_le_of_round_lt {a b c y : ℚ} (hab : 0 ≤ a + b) (hc : 0 ≤ c) (hy : round y = y)
    (h : round (round (a + b) + c) < y) : a + b + c ≤ y := by
  have hs := round_nonneg hab
  obtain hzero | hpos := (add_nonneg hs hc).eq_or_lt
  · obtain ⟨hs, rfl⟩ := (add_eq_zero_iff_of_nonneg hs hc).mp hzero.symm
    rw [hs, add_zero, round_zero] at h
    rw [add_zero]
    exact (lt_of_round_eq_zero hs hy h).le
  have hhalf := le_sub_of_round_lt hpos hy h
  have hunit := pos_place (round (a + b) + c)
  obtain hzero | hab := hab.eq_or_lt
  · rw [← hzero, round_zero] at hhalf hunit
    linarith
  · have hmissed := (abs_le.mp (abs_sub_round_le (a + b))).2
    have hplace : (2 : ℚ) ^ place (a + b) ≤ 2 ^ place (round (a + b) + c) :=
      zpow_le_zpow_right₀ (by norm_num)
        (place_le_of_round_le hab hpos (le_add_of_nonneg_right hc))
    linarith

/-! ### Sums -/

theorem aligned_value (s : Sign) (m : ℕ) {e t : ℤ} (h : t ≤ e) :
    ((s.apply ((decreaseExponent m e t).1 : ℤ) : ℤ) : ℚ) * 2 ^ t = s.apply m * 2 ^ e := by
  have hshift : (decreaseExponent m e t).1 = m * 2 ^ (e - t).toNat := Nat.shiftLeft_eq _ _
  have hpower : (2 : ℚ) ^ e = 2 ^ (e - t).toNat * 2 ^ t := by
    rw [← zpow_natCast, ← zpow_add₀ (by norm_num), Int.toNat_of_nonneg (by omega)]
    congr 1
    omega
  rw [hshift, hpower, apply_natCast s m, apply_natCast s (m * _)]
  push_cast
  ring

theorem round_valueOf {f : UnpackedFloat} (hf : Canonical f) : round (valueOf f) = valueOf f := by
  cases f with
  | infinity s => cases hf
  | notANumber => cases hf
  | zero s => exact round_zero
  | finite s m e hm =>
    obtain ⟨hlt, hlast, -⟩ := hf
    refine round_eq_self ?_ hlast
    have habs : |s.apply (m : ℤ)| = m := by cases s <;> simp [Sign.apply]
    rw [habs]
    exact_mod_cast hlt.le

/-- Two numbers are added at the lower of their last places. -/
theorem add_spec {f g : UnpackedFloat} (hf : Canonical f) (hg : Canonical g) :
    Canonical (UnpackedFloat.add .binary64 f g) ∧
      valueOf (UnpackedFloat.add .binary64 f g) = round (valueOf f + valueOf g) := by
  cases f with
  | infinity s => cases hf
  | notANumber => cases hf
  | zero s =>
    rw [valueOf_zero, zero_add, round_valueOf hg]
    cases g with
    | infinity t => cases hg
    | notANumber => cases hg
    | zero t => cases s <;> cases t <;> exact ⟨trivial, rfl⟩
    | finite t n e hn => exact ⟨hg, rfl⟩
  | finite s m d hm =>
    cases g with
    | infinity t => cases hg
    | notANumber => cases hg
    | zero t =>
      rw [valueOf_zero, add_zero, round_valueOf hf]
      exact ⟨hf, rfl⟩
    | finite t n e hn =>
      obtain ⟨hcanonical, hvalue⟩ := normalize_spec
        (s.apply ((decreaseExponent m d (min d e)).1 : ℤ) +
          t.apply ((decreaseExponent n e (min d e)).1 : ℤ)) (min d e)
      refine ⟨hcanonical, hvalue.trans ?_⟩
      rw [Int.cast_add, add_mul, aligned_value s m (min_le_left d e),
        aligned_value t n (min_le_right d e)]
      rfl

/-- A difference is a sum with the other sign. -/
theorem unpackedSub_eq (f g : UnpackedFloat) :
    UnpackedFloat.sub .binary64 f g = UnpackedFloat.add .binary64 f g.neg := by
  have hsign (t : Sign) (a : ℤ) (n : ℕ) : a - t.apply n = a + (-t).apply n := by
    cases t with
    | negative => exact Int.sub_neg a n
    | positive => rfl
  cases f with
  | finite s m d hm =>
    cases g with
    | finite t n e hn =>
      simp only [UnpackedFloat.sub, UnpackedFloat.add, UnpackedFloat.neg, hsign]
    | _ => rfl
  | _ => cases g <;> rfl

theorem float_sub_eq_add_neg (x y : Float) : x - y = x + -y := by
  have hunpack := unpack_neg y
  have hsub : x - y = .ofModel (.pack (.sub .binary64 x.toModel.unpack y.toModel.unpack)) := rfl
  have hadd : x + -y = .ofModel (.pack (.add .binary64 x.toModel.unpack (-y).toModel.unpack)) := rfl
  rw [hsub, hadd, hunpack, unpackedSub_eq]

/-! ### Doubles beyond all numbers -/

/-- What a double stands for, where it is a number. -/
noncomputable def extended : UnpackedFloat → EReal
  | .infinity .positive => ⊤
  | .infinity .negative => ⊥
  | f => ((valueOf f : ℝ) : EReal)

/-- What a double stands for, where it is a number. -/
noncomputable def value (x : Float) : EReal := extended x.toModel.unpack

/-- What the double that a number is rounded to stands for. -/
noncomputable def rounded (q : ℚ) : EReal :=
  if q ≤ -ceiling then ⊥ else if q < ceiling then ((round q : ℝ) : EReal) else ⊤

/-- Taking what is beyond the ceiling for infinite keeps the order. -/
theorem rounded_mono : Monotone rounded := by
  intro q r h
  unfold rounded
  by_cases hlow : q ≤ -ceiling
  · rw [if_pos hlow]
    exact bot_le
  rw [if_neg hlow, if_neg fun hr => hlow (h.trans hr)]
  by_cases hhigh : r < ceiling
  · rw [if_pos hhigh, if_pos (h.trans_lt hhigh)]
    exact EReal.coe_le_coe_iff.mpr (Rat.cast_le.mpr (round_mono h))
  · rw [if_neg hhigh]
    exact le_top

theorem rounded_of_abs_lt {q : ℚ} (h : |q| < ceiling) : rounded q = ((round q : ℝ) : EReal) := by
  rw [abs_lt] at h
  rw [rounded, if_neg (not_le.mpr h.1), if_pos h.2]

theorem rounded_of_ceiling_le {q : ℚ} (h : ceiling ≤ q) : rounded q = ⊤ := by
  have hpos : 0 < ceiling := (zpow_pos (by norm_num) _).trans_le two_zpow_le_ceiling
  rw [rounded, if_neg (by linarith), if_neg (not_lt.mpr h)]

theorem extended_of_canonical {f : UnpackedFloat} (hf : Canonical f) :
    extended f = ((valueOf f : ℝ) : EReal) := by
  cases f with
  | infinity s => cases hf
  | _ => rfl

theorem value_of_isFinite {x : Float} (hx : x.isFinite) : value x = ((toRat x : ℝ) : EReal) :=
  extended_of_canonical (canonical_of_isFinite hx)

theorem isNaN_of_isFinite {x : Float} (hx : x.isFinite) : x.isNaN = false := by
  have hx : x.toModel.unpack.isFinite = true := hx
  show x.toModel.unpack.isNaN = false
  cases h : x.toModel.unpack with
  | notANumber => simp [h, UnpackedFloat.isFinite] at hx
  | _ => rfl

/-- The sign of a number is that of what it is rounded to. -/
theorem sign_of_round {s : Sign} {m : ℕ} {e : ℤ} {hm : 0 < m} {q : ℚ}
    (hq : valueOf (.finite s m e hm) = round q) : s = .positive ↔ 0 < q := by
  have hsize : (0 : ℚ) < m * 2 ^ e := mul_pos (by exact_mod_cast hm) (zpow_pos (by norm_num) e)
  cases s with
  | negative =>
    refine iff_of_false nofun fun hpos => (round_nonneg hpos.le).not_gt ?_
    rw [← hq]
    show ((-(m : ℤ) : ℤ) : ℚ) * 2 ^ e < 0
    push_cast
    linarith
  | positive =>
    refine iff_of_true rfl (not_le.mp fun hneg => (round_mono hneg).not_gt ?_)
    rw [← hq, round_zero]
    exact hsize

/-- **Packing a rounded number** gives the double that it is rounded to, also beyond all numbers. -/
theorem value_pack {f : UnpackedFloat} (hf : Canonical f) {q : ℚ} (hq : valueOf f = round q) :
    (Float.ofModel (.pack f)).isNaN = false ∧ value (.ofModel (.pack f)) = rounded q := by
  have hrounds := rounds_pack hf hq
  by_cases hsize : |q| < ceiling
  · have hfinite := hrounds.isFinite_iff.mpr hsize
    refine ⟨isNaN_of_isFinite hfinite, ?_⟩
    rw [value_of_isFinite hfinite, hrounds.toRat_eq hsize, rounded_of_abs_lt hsize]
  have hlarge : ¬|round q| < 2 ^ (1024 : ℤ) := mt (abs_round_lt_iff q).mp hsize
  cases f with
  | infinity s => cases hf
  | notANumber => cases hf
  | zero s =>
    rw [← hq, valueOf_zero, abs_zero] at hlarge
    exact absurd (zpow_pos (by norm_num) _) hlarge
  | finite s m e hm =>
    have he : 971 < e := by
      rw [← hq] at hlarge
      exact not_le.mp (mt (exponent_le_iff hf).mp hlarge)
    have hunpack : (Float.Model.pack (.finite s m e hm)).unpack = .infinity s :=
      unpack_pack_infinite s hm he
    have hsign := sign_of_round hq
    refine ⟨?_, ?_⟩
    · show (Float.Model.pack (.finite s m e hm)).unpack.isNaN = false
      rw [hunpack]
      rfl
    · show extended (Float.Model.pack (.finite s m e hm)).unpack = _
      rw [hunpack]
      cases s with
      | negative =>
        have hneg : q ≤ 0 := not_lt.mp (hsign.not.mp nofun)
        rw [abs_of_nonpos hneg] at hsize
        rw [rounded, if_pos (by linarith)]
        rfl
      | positive =>
        rw [abs_of_pos (hsign.mp rfl)] at hsize
        exact (rounded_of_ceiling_le (not_lt.mp hsize)).symm

theorem rounds_add {x y : Float} (hx : x.isFinite) (hy : y.isFinite) :
    Rounds (x + y) (toRat x + toRat y) := by
  obtain ⟨hcanonical, hvalue⟩ := add_spec (canonical_of_isFinite hx) (canonical_of_isFinite hy)
  exact rounds_pack hcanonical hvalue

theorem toRat_add {x y : Float} (hx : x.isFinite) (hy : y.isFinite) (h : (x + y).isFinite) :
    toRat (x + y) = round (toRat x + toRat y) :=
  (rounds_add hx hy).toRat_eq ((rounds_add hx hy).isFinite_iff.mp h)

/-- **A sum of finite doubles** is rounded once, also beyond all numbers. -/
theorem value_add {x y : Float} (hx : x.isFinite) (hy : y.isFinite) :
    (x + y).isNaN = false ∧ value (x + y) = rounded (toRat x + toRat y) := by
  obtain ⟨hcanonical, hvalue⟩ := add_spec (canonical_of_isFinite hx) (canonical_of_isFinite hy)
  exact value_pack hcanonical hvalue

/-- **A difference of finite doubles** is rounded once. -/
theorem value_sub {x y : Float} (hx : x.isFinite) (hy : y.isFinite) :
    (x - y).isNaN = false ∧ value (x - y) = rounded (toRat x - toRat y) := by
  rw [float_sub_eq_add_neg, sub_eq_add_neg, ← toRat_neg]
  exact value_add hx ((isFinite_neg y).trans hy)

theorem value_eq_top_iff {x : Float} : value x = ⊤ ↔ x.toModel.unpack = .infinity .positive := by
  rw [value]
  cases x.toModel.unpack with
  | infinity s => cases s <;> simp [extended]
  | _ => exact iff_of_false (EReal.coe_ne_top _) nofun

theorem isNaN_iff {x : Float} : x.isNaN = true ↔ x.toModel.unpack = .notANumber := by
  show x.toModel.unpack.isNaN = true ↔ _
  cases x.toModel.unpack <;> simp [UnpackedFloat.isNaN]

theorem isFinite_of_value {x : Float} (hx : x.isNaN = false) (hbot : value x ≠ ⊥)
    (htop : value x ≠ ⊤) : x.isFinite := by
  have hx : x.toModel.unpack.isNaN = false := hx
  show x.toModel.unpack.isFinite = true
  rw [value] at hbot htop
  cases h : x.toModel.unpack with
  | infinity s =>
    rw [h] at hbot htop
    cases s with
    | negative => exact absurd rfl hbot
    | positive => exact absurd rfl htop
  | notANumber => simp [h, UnpackedFloat.isNaN] at hx
  | _ => rfl

/-- Infinity and a double that is neither undefined nor the other infinity add up to infinity. -/
theorem value_add_of_top {x y : Float} (hx : value x = ⊤) (hy : y.isNaN = false)
    (hbot : value y ≠ ⊥) : (x + y).isNaN = false ∧ value (x + y) = ⊤ := by
  have hy : y.toModel.unpack.isNaN = false := hy
  have hadd : (UnpackedFloat.add .binary64 x.toModel.unpack y.toModel.unpack) =
      .infinity .positive := by
    rw [value] at hbot
    rw [value_eq_top_iff.mp hx]
    cases h : y.toModel.unpack with
    | infinity s =>
      cases s with
      | negative =>
        rw [h] at hbot
        exact absurd rfl hbot
      | positive => rfl
    | notANumber => simp [h, UnpackedFloat.isNaN] at hy
    | _ => rfl
  have hunpack : (x + y).toModel.unpack = .infinity .positive := by
    show (Float.Model.pack (.add .binary64 x.toModel.unpack y.toModel.unpack)).unpack = _
    rw [hadd]
    rfl
  refine ⟨?_, value_eq_top_iff.mpr hunpack⟩
  show (x + y).toModel.unpack.isNaN = false
  rw [hunpack]
  rfl

theorem float_add_comm (x y : Float) : x + y = y + x := by
  have hcomm (f g : UnpackedFloat) : f.add .binary64 g = g.add .binary64 f := by
    cases f with
    | finite s m d hm =>
      cases g with
      | finite t n e hn => simp only [UnpackedFloat.add, min_comm d e, Int.add_comm]
      | _ => rfl
    | infinity s =>
      cases g with
      | infinity t => cases s <;> cases t <;> rfl
      | _ => rfl
    | zero s =>
      cases g with
      | zero t => cases s <;> cases t <;> rfl
      | _ => rfl
    | notANumber => cases g <;> rfl
  exact congrArg (fun f => Float.ofModel (.pack f)) (hcomm _ _)

theorem round_toRat {x : Float} (hx : x.isFinite) : round (toRat x) = toRat x :=
  round_valueOf (canonical_of_isFinite hx)

theorem abs_toRat_lt (x : Float) : |toRat x| < ceiling := (abs_toRat_le x).trans_lt largest_lt_ceiling

theorem value_eq_rounded {x : Float} (hx : x.isFinite) : value x = rounded (toRat x) := by
  rw [rounded_of_abs_lt (abs_toRat_lt x), round_toRat hx, value_of_isFinite hx]

theorem value_nonneg_iff {x : Float} (hx : x.isFinite) : 0 ≤ value x ↔ 0 ≤ toRat x := by
  rw [value_of_isFinite hx, EReal.coe_nonneg, Rat.cast_nonneg]

/-- Neither of two doubles that are not negative is above their sum. -/
theorem value_le_add {x y : Float} (hx : x.isNaN = false) (hx' : 0 ≤ value x)
    (hy : y.isNaN = false) (hy' : 0 ≤ value y) :
    (x + y).isNaN = false ∧ value x ≤ value (x + y) ∧ value y ≤ value (x + y) := by
  have hbotx : value x ≠ ⊥ := (EReal.bot_lt_zero.trans_le hx').ne'
  have hboty : value y ≠ ⊥ := (EReal.bot_lt_zero.trans_le hy').ne'
  by_cases htopx : value x = ⊤
  · obtain ⟨hnan, htop⟩ := value_add_of_top htopx hy hboty
    rw [htop]
    exact ⟨hnan, le_top, le_top⟩
  by_cases htopy : value y = ⊤
  · obtain ⟨hnan, htop⟩ := value_add_of_top htopy hx hbotx
    rw [float_add_comm, htop]
    exact ⟨hnan, le_top, le_top⟩
  have hfinitex := isFinite_of_value hx hbotx htopx
  have hfinitey := isFinite_of_value hy hboty htopy
  obtain ⟨hnan, hsum⟩ := value_add hfinitex hfinitey
  rw [value_nonneg_iff hfinitex] at hx'
  rw [value_nonneg_iff hfinitey] at hy'
  rw [hsum, value_eq_rounded hfinitex, value_eq_rounded hfinitey]
  exact ⟨hnan, rounded_mono (le_add_of_nonneg_right hy'), rounded_mono (le_add_of_nonneg_left hx')⟩

end Double

end DensityAlgebra
