/-
# Doubles as numbers

Every finite double is a rational number (`Double.toRat`). What is computed of natural numbers,
integers and finite doubles is the exact result, rounded once, and it is finite exactly if the
exact result is below the ceiling (`Double.Rounds`). Doubles are rounded to integers as their
numbers are.

Key definitions: `Double.toRat`, `Double.Rounds`, `Double.ofRat`.
Key theorems: `Double.rounds_mul`, `Double.rounds_ofNat`, `Double.rounds_ofInt`,
`Double.rounds_ofRat`, `Double.abs_toRat_le`, `Double.nearest_eq`.
-/
import DensityAlgebra.Proofs.Packing
import DensityAlgebra.Uncertainty

namespace DensityAlgebra

namespace Double

open Float.Model (UnpackedFloat Format totalExponent)
open Float.Model.UnpackedFloat (Sign roundWithAccuracy)

theorem abs_valueOf (s : Sign) {m : ℕ} {e : ℤ} (hm : 0 < m) :
    |valueOf (.finite s m e hm)| = m * 2 ^ e := by
  have he : (0 : ℚ) < 2 ^ e := zpow_pos (by norm_num) e
  rw [valueOf, abs_mul, abs_of_pos he]
  cases s <;> simp [Sign.apply]

/-- The number that a double is, where it is one. -/
def toRat (x : Float) : ℚ := valueOf x.toModel.unpack

/-- A double is what a number is rounded to. -/
structure Rounds (z : Float) (q : ℚ) : Prop where
  isFinite_iff : z.isFinite ↔ |q| < ceiling
  toRat_eq : |q| < ceiling → toRat z = round q

/-- A canonical number is below the end exactly if its exponent is not too large. -/
theorem exponent_le_iff {s : Sign} {m : ℕ} {e : ℤ} {hm : 0 < m} (h : Canonical (.finite s m e hm)) :
    e ≤ 971 ↔ |valueOf (.finite s m e hm)| < 2 ^ (1024 : ℤ) := by
  obtain ⟨hlt, hlast, hfull⟩ := h
  rw [abs_valueOf]
  constructor
  · intro he
    calc (m : ℚ) * 2 ^ e < 2 ^ 53 * 2 ^ e :=
          mul_lt_mul_of_pos_right (by exact_mod_cast hlt) (zpow_pos (by norm_num) e)
      _ = 2 ^ (53 + e) := by rw [zpow_add₀ (by norm_num)]; norm_num
      _ ≤ 2 ^ (1024 : ℤ) := zpow_le_zpow_right₀ (by norm_num) (by omega)
  · intro hsize
    by_contra he
    have hfull : 2 ^ 52 ≤ m := hfull.resolve_right (by omega)
    refine absurd hsize (not_lt.mpr ?_)
    calc (2 : ℚ) ^ (1024 : ℤ) ≤ 2 ^ (52 + e) := zpow_le_zpow_right₀ (by norm_num) (by omega)
      _ = 2 ^ 52 * 2 ^ e := by rw [zpow_add₀ (by norm_num)]; norm_num
      _ ≤ m * 2 ^ e :=
          mul_le_mul_of_nonneg_right (by exact_mod_cast hfull) (zpow_pos (by norm_num) e).le

/-- What fits a double: a canonical number whose exponent is not too large, or none. -/
def Fits : UnpackedFloat → Prop
  | .finite s m e hm => Canonical (.finite s m e hm) ∧ e ≤ 971
  | _ => True

theorem fits_unpack (x : Float) : Fits x.toModel.unpack := by
  cases h : x.toModel.unpack with
  | finite s m e hm => exact canonical_of_unpack h
  | _ => trivial

/-- **A double keeps what fits it.** -/
theorem unpack_ofModel_pack {f : UnpackedFloat} (h : Fits f) :
    (Float.Model.pack f).unpack = f := by
  cases f with
  | finite s m e hm => exact unpack_pack s hm h.1 h.2
  | zero s | infinity s => cases s <;> rfl
  | notANumber => rfl

/-- **Packing a rounded number** gives the double that it is rounded to. -/
theorem rounds_pack {f : UnpackedFloat} (hf : Canonical f) {q : ℚ} (hq : valueOf f = round q) :
    Rounds (.ofModel (.pack f)) q := by
  have hfits (h : Fits f) (hfinite : f.isFinite = true) (hbelow : |q| < ceiling) :
      Rounds (.ofModel (.pack f)) q := by
    have hunpack := unpack_ofModel_pack h
    refine ⟨iff_of_true ?_ hbelow, fun _ => ?_⟩
    · show (Float.Model.pack f).unpack.isFinite = true
      rwa [hunpack]
    · rw [toRat, hunpack, hq]
  cases f with
  | infinity s => cases hf
  | notANumber => cases hf
  | zero s =>
    refine hfits trivial rfl ?_
    rw [← abs_round_lt_iff, ← hq]
    simp [valueOf]
  | finite s m e hm =>
    have hsize := (exponent_le_iff hf).trans (by rw [hq, abs_round_lt_iff] : _ ↔ |q| < ceiling)
    by_cases he : e ≤ 971
    · exact hfits ⟨hf, he⟩ rfl (hsize.mp he)
    · have hunpack : (Float.Model.pack (.finite s m e hm)).unpack = .infinity s :=
        unpack_pack_infinite s hm (not_le.mp he)
      refine ⟨iff_of_false ?_ (hsize.not.mp he), fun h => absurd (hsize.mpr h) he⟩
      show ¬(Float.Model.pack (.finite s m e hm)).unpack.isFinite = true
      rw [hunpack]
      simp [UnpackedFloat.isFinite]

/-- The parts of a finite double are canonical. -/
theorem canonical_of_isFinite {x : Float} (hx : x.isFinite) : Canonical x.toModel.unpack := by
  have hx : x.toModel.unpack.isFinite = true := hx
  have hfits := fits_unpack x
  cases h : x.toModel.unpack with
  | infinity s => simp [h, UnpackedFloat.isFinite] at hx
  | notANumber => simp [h, UnpackedFloat.isFinite] at hx
  | zero s => trivial
  | finite s m e hm => exact (h ▸ hfits : Fits (.finite s m e hm)).1

/-- What a finite double can be. -/
theorem unpack_of_isFinite {x : Float} (hx : x.isFinite) :
    (∃ s, x.toModel.unpack = .zero s) ∨
      ∃ s m e hm, x.toModel.unpack = .finite s m e hm ∧ Canonical (.finite s m e hm) := by
  have hcanonical := canonical_of_isFinite hx
  cases h : x.toModel.unpack with
  | infinity s => simp [h, Canonical] at hcanonical
  | notANumber => simp [h, Canonical] at hcanonical
  | zero s => exact .inl ⟨s, rfl⟩
  | finite s m e hm => exact .inr ⟨s, m, e, hm, rfl, h ▸ hcanonical⟩

/-- The largest double. -/
def largest : ℤ := (2 ^ 54 - 2) * 2 ^ 970

theorem cast_largest : (largest : ℚ) = (2 ^ 54 - 2) * 2 ^ (970 : ℤ) := by
  have hpower : ((2 ^ 970 : ℤ) : ℚ) = 2 ^ (970 : ℤ) := by
    rw [Int.cast_pow, Int.cast_ofNat]
    exact (zpow_natCast 2 970).symm
  have hdigits : ((2 ^ 54 - 2 : ℤ) : ℚ) = 2 ^ 54 - 2 := by norm_num
  rw [largest, Int.cast_mul, hpower, hdigits]

theorem abs_toRat_le (x : Float) : |toRat x| ≤ largest := by
  have hu : (0 : ℚ) < 2 ^ (970 : ℤ) := zpow_pos (by norm_num) _
  rw [cast_largest, toRat]
  cases h : x.toModel.unpack with
  | infinity s | notANumber | zero s =>
    show |(0 : ℚ)| ≤ _
    rw [abs_zero]
    exact mul_nonneg (by norm_num) hu.le
  | finite s m e hm =>
    obtain ⟨⟨hlt, -, -⟩, he⟩ := canonical_of_unpack h
    have hm' : 2 * (m : ℚ) ≤ 2 ^ 54 - 2 := by
      have hlt : (m : ℚ) + 1 ≤ 2 ^ 53 := by exact_mod_cast (hlt : m + 1 ≤ 2 ^ 53)
      linarith
    rw [abs_valueOf]
    calc (m : ℚ) * 2 ^ e ≤ m * 2 ^ (970 + 1 : ℤ) :=
          mul_le_mul_of_nonneg_left (zpow_le_zpow_right₀ (by norm_num) (by omega)) m.cast_nonneg
      _ = 2 * m * 2 ^ (970 : ℤ) := by
          rw [zpow_add_one₀ (by norm_num)]
          ring
      _ ≤ _ := mul_le_mul_of_nonneg_right hm' hu.le

/-- No double reaches the ceiling. -/
theorem largest_lt_ceiling : (largest : ℚ) < ceiling := by
  rw [cast_largest, ceiling]
  exact mul_lt_mul_of_pos_right (by norm_num) (zpow_pos (by norm_num) _)

/-- The product of two canonical numbers has digits enough to be rounded. -/
theorem mul_exponent_le {s t : Sign} {m n : ℕ} {d e : ℤ} {hm : 0 < m} {hn : 0 < n}
    (hf : Canonical (.finite s m d hm)) (hg : Canonical (.finite t n e hn)) :
    d + e ≤ Format.binary64.targetExponent (totalExponent (m * n) (d + e)) := by
  have htarget : Format.binary64.targetExponent (totalExponent (m * n) (d + e)) =
      max ((m * n).log2 + 1 + (d + e) - 53) (-1074) := rfl
  rw [htarget]
  obtain ⟨-, hd, hm' | hm'⟩ := hf
  · have hlog := (Nat.le_log2 (Nat.mul_pos hm hn).ne').mpr
      (hm'.trans (Nat.le_mul_of_pos_right m hn))
    omega
  · obtain ⟨-, he, hn' | hn'⟩ := hg
    · have hlog := (Nat.le_log2 (Nat.mul_pos hm hn).ne').mpr
        (hn'.trans (Nat.le_mul_of_pos_left n hm))
      omega
    · omega

theorem mul_spec {f g : UnpackedFloat} (hf : Canonical f) (hg : Canonical g) :
    Canonical (UnpackedFloat.mul .binary64 f g) ∧
      valueOf (UnpackedFloat.mul .binary64 f g) = round (valueOf f * valueOf g) := by
  cases f with
  | infinity s => cases hf
  | notANumber => cases hf
  | zero s =>
    have hzero : round (valueOf (.zero s) * valueOf g) = 0 := by
      rw [valueOf_zero, zero_mul, round_zero]
    rw [hzero]
    cases g with
    | infinity t => cases hg
    | notANumber => cases hg
    | zero t | finite t n e hn => exact ⟨trivial, rfl⟩
  | finite s m d hm =>
    cases g with
    | infinity t => cases hg
    | notANumber => cases hg
    | zero t =>
      have hzero : round (valueOf (.finite s m d hm) * valueOf (.zero t)) = 0 := by
        rw [valueOf_zero, mul_zero, round_zero]
      rw [hzero]
      exact ⟨trivial, rfl⟩
    | finite t n e hn =>
      obtain ⟨hcanonical, hvalue⟩ :=
        roundWithAccuracy_spec (s * t) (Nat.mul_pos hm hn) (mul_exponent_le hf hg)
      refine ⟨hcanonical, hvalue.trans ?_⟩
      rw [← round_apply]
      congr 1
      rw [valueOf, valueOf, zpow_add₀ (by norm_num)]
      have hsign : (s * t).apply 1 = s.apply 1 * t.apply 1 := by cases s <;> cases t <;> rfl
      rw [hsign, apply_natCast s m, apply_natCast t n]
      push_cast
      ring

/-- **A product of doubles is rounded once.** -/
theorem rounds_mul {x y : Float} (hx : x.isFinite) (hy : y.isFinite) :
    Rounds (x * y) (toRat x * toRat y) := by
  obtain ⟨hcanonical, hvalue⟩ := mul_spec (canonical_of_isFinite hx) (canonical_of_isFinite hy)
  exact rounds_pack hcanonical hvalue

theorem natCast_lt_ceiling {n : ℕ} (hn : n < 2 ^ 53) : |(n : ℚ)| < ceiling := by
  have hlarge : (1 : ℚ) ≤ 2 ^ (970 : ℤ) := one_le_zpow₀ (by norm_num) (by norm_num)
  have hn : (n : ℚ) < 2 ^ 53 := by exact_mod_cast hn
  rw [Nat.abs_cast]
  calc (n : ℚ) < (2 ^ 54 - 1) * 1 := by linarith
    _ ≤ ceiling := mul_le_mul_of_nonneg_left hlarge (by norm_num)

theorem round_natCast {n : ℕ} (hn : n < 2 ^ 53) : round n = n := by
  have hself := round_eq_self (k := n) (e := 0) (by rw [Nat.abs_cast]; exact_mod_cast hn.le)
    (by norm_num)
  simpa using hself

/-- The number that is multiplied with where a natural number fits a significand. -/
theorem unpack_one : (Float.ofBits 0x3FF0000000000000).toModel.unpack =
    .finite .positive (2 ^ 52) (-52) (by decide) := rfl

/-- A natural number that fits a significand is a double. -/
theorem rounds_ofNat_of_lt {n : ℕ} (hn : n < 2 ^ 53) : Rounds (Float.ofNat n) n := by
  have hsplit : Float.ofNat n = n.toUInt64.toFloat * Float.ofBits 0x3FF0000000000000 :=
    dif_pos ⟨hn, by norm_num⟩
  have hcast : n.toUInt64.toNat = n := Nat.mod_eq_of_lt (by omega)
  have hx : Rounds n.toUInt64.toFloat n := by
    have hmodel : n.toUInt64.toFloat =
        .ofModel (.pack (UnpackedFloat.normalize .binary64 n.toUInt64.toNat 0 .positive)) := rfl
    rw [hmodel, hcast]
    have hspec := normalize_spec n 0
    exact rounds_pack hspec.1 (by rw [hspec.2, zpow_zero, mul_one, Int.cast_natCast])
  have hvalue : toRat n.toUInt64.toFloat = n := by
    rw [hx.toRat_eq (natCast_lt_ceiling hn), round_natCast hn]
  have hone : toRat (Float.ofBits 0x3FF0000000000000) = 1 := by
    rw [toRat, unpack_one, valueOf]
    norm_num [Sign.apply]
  have hmul := rounds_mul (hx.isFinite_iff.mpr (natCast_lt_ceiling hn))
    (y := Float.ofBits 0x3FF0000000000000) rfl
  rwa [hvalue, hone, mul_one, ← hsplit] at hmul

/-- A natural number is filled up with zeros, which are rounded away. -/
theorem ofScientific_spec {n : ℕ} (hn : 0 < n) :
    Canonical (UnpackedFloat.ofScientific .binary64 n 0) ∧
      valueOf (UnpackedFloat.ofScientific .binary64 n 0) = round n := by
  have hscientific : UnpackedFloat.ofScientific .binary64 n 0 =
      roundWithAccuracy .binary64 .positive (n <<< 53 * 10 ^ 0) (-53 + 0) .exact := by
    unfold UnpackedFloat.ofScientific
    rw [dif_neg hn.ne', if_neg (by norm_num), if_neg (by norm_num), if_pos le_rfl]
    rfl
  have hplace : -53 ≤ place n := by
    refine le_place (Nat.cast_ne_zero.mpr hn.ne') ?_
    rw [Nat.abs_cast]
    calc (2 : ℚ) ^ (-53 + 52 : ℤ) ≤ 1 := by norm_num
      _ ≤ n := by exact_mod_cast hn
  have hvalue : ((n <<< 53 * 10 ^ 0 : ℕ) : ℚ) * 2 ^ (-53 + 0 : ℤ) = n := by
    rw [Nat.shiftLeft_eq, pow_zero, mul_one, add_zero, zpow_neg]
    push_cast
    exact mul_inv_cancel_right₀ (by norm_num) _
  have hpos : 0 < n <<< 53 * 10 ^ 0 := by
    rw [Nat.shiftLeft_eq]
    positivity
  have hspec := roundWithAccuracy_spec .positive hpos (e := -53 + 0) (by
    rwa [targetExponent_eq hpos, hvalue])
  rw [← hscientific, hvalue] at hspec
  refine ⟨hspec.1, hspec.2.trans ?_⟩
  simp [Sign.apply]

/-- **A natural number is rounded once.** -/
theorem rounds_ofNat (n : ℕ) : Rounds (Float.ofNat n) n := by
  by_cases hn : n < 2 ^ 53
  · exact rounds_ofNat_of_lt hn
  · have hmodel : Float.ofNat n = .ofModel (.pack (UnpackedFloat.ofScientific .binary64 n 0)) :=
      dif_neg fun h => hn h.1
    obtain ⟨hcanonical, hvalue⟩ := ofScientific_spec (n := n) (by omega)
    rw [hmodel]
    exact rounds_pack hcanonical hvalue

theorem fits_neg {f : UnpackedFloat} (h : Fits f) : Fits f.neg := by cases f <;> exact h

theorem fits_abs {f : UnpackedFloat} (h : Fits f) : Fits f.abs := by cases f <;> exact h

theorem unpack_neg (x : Float) : (-x).toModel.unpack = x.toModel.unpack.neg :=
  unpack_ofModel_pack (fits_neg (fits_unpack x))

theorem unpack_abs (x : Float) : x.abs.toModel.unpack = x.toModel.unpack.abs :=
  unpack_ofModel_pack (fits_abs (fits_unpack x))

theorem isFinite_neg (x : Float) : (-x).isFinite = x.isFinite := by
  show (-x).toModel.unpack.isFinite = x.toModel.unpack.isFinite
  rw [unpack_neg]
  cases x.toModel.unpack <;> rfl

theorem valueOf_neg (f : UnpackedFloat) : valueOf f.neg = -valueOf f := by
  cases f with
  | finite s m e hm =>
    have hsign : (-s).apply m = -s.apply m := by
      cases s with
      | negative => exact (neg_neg _).symm
      | positive => rfl
    show (((-s).apply m : ℤ) : ℚ) * 2 ^ e = -((s.apply m : ℤ) * 2 ^ e)
    rw [hsign]
    push_cast
    ring
  | _ => exact neg_zero.symm

theorem toRat_neg (x : Float) : toRat (-x) = -toRat x := by
  rw [toRat, toRat, unpack_neg, valueOf_neg]

/-- **An integer is rounded once.** -/
theorem rounds_ofInt (n : ℤ) : Rounds (Float.ofInt n) n := by
  cases n with
  | ofNat n => exact rounds_ofNat n
  | negSucc n =>
    have hnat := rounds_ofNat (n + 1)
    have hneg : Float.ofInt (.negSucc n) = -Float.ofNat (n + 1) := rfl
    have hcast : ((Int.negSucc n : ℤ) : ℚ) = -((n + 1 : ℕ) : ℚ) := by
      rw [Int.negSucc_eq]
      push_cast
      ring
    rw [hneg, hcast]
    refine ⟨?_, fun h => ?_⟩
    · rw [isFinite_neg, abs_neg]
      exact hnat.isFinite_iff
    · rw [abs_neg] at h
      rw [toRat_neg, round_neg, hnat.toRat_eq h]

/-- The double that a rational number is rounded to. -/
def ofRat (q : ℚ) : Float :=
  .ofModel (.pack (UnpackedFloat.normalize .binary64 (Rational.nearest (q / 2 ^ place q)) (place q)
    .positive))

theorem rounds_ofRat (q : ℚ) : Rounds (ofRat q) q := by
  obtain ⟨hcanonical, hvalue⟩ := normalize_spec (Rational.nearest (q / 2 ^ place q)) (place q)
  exact rounds_pack hcanonical (hvalue.trans (round_round q))

theorem isFinite_abs (x : Float) : x.abs.isFinite = x.isFinite := by
  show x.abs.toModel.unpack.isFinite = x.toModel.unpack.isFinite
  rw [unpack_abs]
  cases x.toModel.unpack <;> rfl

theorem toRat_abs (x : Float) : toRat x.abs = |toRat x| := by
  rw [toRat, toRat, unpack_abs]
  cases x.toModel.unpack with
  | finite s m e hm =>
    rw [abs_valueOf]
    show ((Sign.positive.apply m : ℤ) : ℚ) * 2 ^ e = _
    simp [Sign.apply]
  | _ => exact abs_zero.symm

theorem isFinite_eq (x : Float) : x.isFinite = !(x.isNaN || x.isInf) := by
  show x.toModel.unpack.isFinite = !(x.toModel.unpack.isNaN || x.toModel.unpack.isInf)
  cases x.toModel.unpack <;> rfl

theorem unpack_zero : (0.0 : Float).toModel.unpack = .zero .positive := rfl

/-- Exactly the two zeros are equal to zero. -/
theorem beq_zero_iff {x : Float} (hx : x.isFinite) : (x == 0.0) = true ↔ toRat x = 0 := by
  have hbeq : (x == 0.0) = (x.toModel.unpack.compare (.zero .positive) == some .eq) := by
    rw [← unpack_zero]
    rfl
  rw [hbeq, toRat]
  obtain ⟨s, h⟩ | ⟨s, m, e, hm, h, -⟩ := unpack_of_isFinite hx <;> rw [h]
  · exact iff_of_true rfl rfl
  · refine iff_of_false (by cases s <;> nofun) ?_
    rw [← abs_eq_zero, abs_valueOf]
    exact (mul_pos (by exact_mod_cast hm) (zpow_pos (by norm_num) e)).ne'

theorem ofFloat_eq (x : Float) : Binary64.ofFloat x = parts x.toModel.unpack := by
  have hbits : parts x.toModel.unpack = Binary64.ofBits x.toBits.toNat := parts_unpack _
  have hnan : x.isNaN = x.toModel.unpack.isNaN := rfl
  rw [Binary64.ofFloat, hnan, ← hbits]
  cases x.toModel.unpack <;> rfl

/-- The integer that the parts of a double are rounded to. -/
theorem nearest_of_parts {x : Float} {negative : Bool} {m : ℕ} {e : ℤ}
    (h : Binary64.ofFloat x = .finite negative m e) :
    nearest x = some (Rational.nearest (if negative then -(m * 2 ^ e) else m * 2 ^ e)) := by
  have hnear : IsNearest
      ((if 0 ≤ e then m * Nat.pow 2 e.toNat else roundRatio m (Nat.pow 2 (-e).toNat) : ℕ) : ℤ)
      (m * 2 ^ e) := by
    split_ifs with he
    · have hcast : (m : ℚ) * 2 ^ e = ((m * 2 ^ e.toNat : ℕ) : ℤ) := by
        conv_lhs => rw [← Int.toNat_of_nonneg he, zpow_natCast]
        push_cast
        rfl
      rw [hcast]
      exact .intCast _
    · have hcast : (m : ℚ) * 2 ^ e = m / (2 ^ (-e).toNat : ℕ) := by
        push_cast
        rw [← zpow_natCast, Int.toNat_of_nonneg (by omega), zpow_neg, div_inv_eq_mul]
      rw [hcast]
      exact roundRatio_isNearest m (Nat.two_pow_pos _)
  rw [nearest, h]
  cases negative with
  | true => exact congrArg some (hnear.neg.eq (Rational.nearest_isNearest _))
  | false => exact congrArg some (hnear.eq (Rational.nearest_isNearest _))

/-- **A finite double has a nearest integer.** -/
theorem nearest_eq {x : Float} (hx : x.isFinite) :
    nearest x = some (Rational.nearest (toRat x)) := by
  have hparts := ofFloat_eq x
  rw [toRat]
  obtain ⟨s, h⟩ | ⟨s, m, e, hm, h, -⟩ := unpack_of_isFinite hx <;> rw [h] at hparts ⊢
  · rw [nearest_of_parts hparts, Nat.cast_zero, zero_mul, neg_zero, ite_self, valueOf_zero]
  · rw [nearest_of_parts hparts]
    cases s with
    | negative =>
      simp only [valueOf, Sign.apply, Int.cast_neg, Int.cast_natCast, neg_mul]
      rfl
    | positive => rfl

theorem nearest_eq_none {x : Float} (hx : ¬x.isFinite) : nearest x = none := by
  rw [nearest, ofFloat_eq]
  have hx : ¬x.toModel.unpack.isFinite := hx
  cases h : x.toModel.unpack with
  | infinity s | notANumber => rfl
  | zero s | finite s m e hm => simp [h, UnpackedFloat.isFinite] at hx

/-- The double after zero. -/
def least : Float := .ofBits 1

theorem isFinite_least : least.isFinite := rfl

theorem toRat_least : toRat least = 2 ^ (-1074 : ℤ) := by
  have hunpack : least.toModel.unpack = .finite .positive 1 (-1074) Nat.one_pos := rfl
  rw [toRat, hunpack, valueOf]
  simp [Sign.apply]

end Double

end DensityAlgebra
