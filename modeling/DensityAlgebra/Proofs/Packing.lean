/-
# Packed doubles

A double is packed into 64 bits: a sign, an exponent and a significand. Before that the
significand is rounded: digits behind the last place are shifted out one by one, and two guard
digits remember what of them matters to rounding (`Guards`). The outcome has the parts of the
rounded number (`roundWithAccuracy_spec`), in the one canonical form that packing keeps
(`unpack_pack`), unless its exponent is too large, when it becomes infinite.

Key definitions: `Double.Guards`, `Double.valueOf`, `Double.Canonical`, `Double.parts`.
Key theorems: `Double.Guards.isNearest`, `Double.roundWithAccuracy_spec`, `Double.normalize_spec`,
`Double.unpack_pack`, `Double.unpack_pack_infinite`, `Double.parts_unpack`.
-/
import DensityAlgebra.Proofs.Rounding
import DensityAlgebra.Scalar.Binary64
import Mathlib

namespace DensityAlgebra

namespace Double

open Float.Model (UnpackedFloat Format totalExponent)
open Float.Model.UnpackedFloat (ExtendedMantissa Sign packComponents roundWithAccuracy
  shiftToExponent shiftToTargetExponent unpackSign)

/-! ### Rounding a significand -/

/-- What a significand with its guard digits stands for. -/
def Guards (g : ExtendedMantissa) (q : ℚ) : Prop :=
  match g.roundBit, g.stickyBit with
  | false, false => q = g.mantissa
  | false, true => g.mantissa < q ∧ q < g.mantissa + 1 / 2
  | true, false => q = g.mantissa + 1 / 2
  | true, true => g.mantissa + 1 / 2 < q ∧ q < g.mantissa + 1

theorem Guards.exact (m : ℕ) : Guards (.ofMantissaAndAccuracy m .exact) m := rfl

/-- A digit that is shifted out becomes a guard digit. -/
theorem Guards.shiftRightOne {g : ExtendedMantissa} {q : ℚ} (h : Guards g q) :
    Guards g.shiftRightOne (q / 2) := by
  obtain ⟨m, r, t⟩ := g
  have hsplit : (m : ℚ) = 2 * (m / 2 : ℕ) + (m % 2 : ℕ) := by
    exact_mod_cast (Nat.div_add_mod m 2).symm
  obtain hbit | hbit := Nat.mod_two_eq_zero_or_one m
  all_goals
    rw [hbit] at hsplit
    cases r <;> cases t <;>
      simp only [Guards, ExtendedMantissa.shiftRightOne, hbit, Nat.cast_zero, Nat.cast_one,
        bne_self_eq_false, Bool.or_false, Bool.or_true] at h hsplit ⊢
  · linarith
  · constructor <;> linarith
  · constructor <;> linarith
  · constructor <;> linarith
  · simp
    linarith
  · constructor <;> linarith
  · constructor <;> linarith
  · constructor <;> linarith

/-- Digits are shifted out one by one. -/
theorem Guards.shiftRight {g : ExtendedMantissa} {q : ℚ} (h : Guards g q) (n : ℕ) :
    Guards (g >>> n) (q / 2 ^ n) := by
  show Guards (n.repeat ExtendedMantissa.shiftRightOne g) _
  induction n with
  | zero => simpa [Nat.repeat] using h
  | succ n ih =>
    rw [pow_succ, ← div_div]
    exact ih.shiftRightOne

/-- **The guard digits round to the nearest significand.** -/
theorem Guards.isNearest {g : ExtendedMantissa} {q : ℚ} (h : Guards g q) :
    IsNearest g.roundedMantissa q := by
  obtain ⟨m, r, t⟩ := g
  cases r <;> cases t <;> simp only [Guards] at h
  · exact h ▸ IsNearest.intCast m
  · refine .inl ?_
    show |q - (m : ℤ)| < 1 / 2
    rw [abs_lt]
    push_cast
    constructor <;> linarith
  · -- a tie goes to the even one of the two
    subst h
    show IsNearest ((m + m % 2 : ℕ) : ℤ) _
    refine .inr ⟨?_, by omega⟩
    obtain hbit | hbit := Nat.mod_two_eq_zero_or_one m
    · rw [hbit]
      push_cast
      rw [add_zero, add_sub_cancel_left, abs_of_pos (by norm_num)]
    · rw [hbit]
      push_cast
      rw [show (m : ℚ) + 1 / 2 - (m + 1) = -(1 / 2) by ring, abs_neg, abs_of_pos (by norm_num)]
  · refine .inl ?_
    show |q - ((m + 1 : ℕ) : ℤ)| < 1 / 2
    rw [abs_lt]
    push_cast
    constructor <;> linarith

/-- The exponent that a significand is shifted to is the last place of the number. -/
theorem targetExponent_eq {m : ℕ} (hm : 0 < m) (e : ℤ) :
    Format.binary64.targetExponent (totalExponent m e) = place (m * 2 ^ e) := by
  have hlog : Int.log 2 |(m * 2 ^ e : ℚ)| = m.log2 + e := by
    have he : (0 : ℚ) < 2 ^ e := zpow_pos (by norm_num) e
    have hpos : (0 : ℚ) < m * 2 ^ e := mul_pos (by exact_mod_cast hm) he
    rw [abs_of_pos hpos]
    have hpow : (2 : ℚ) ^ m.log2 ≤ m := by exact_mod_cast Nat.log2_self_le hm.ne'
    have hpow' : (m : ℚ) < 2 ^ (m.log2 + 1) := by exact_mod_cast Nat.lt_log2_self
    apply le_antisymm
    · refine Int.lt_add_one_iff.mp ((Int.lt_zpow_iff_log_lt (by norm_num : 1 < 2) hpos).mp ?_)
      rw [show (m.log2 : ℤ) + e + 1 = ((m.log2 + 1 : ℕ) : ℤ) + e by push_cast; ring]
      push_cast
      rw [zpow_add₀ (by norm_num)]
      exact mul_lt_mul_of_pos_right (by exact_mod_cast hpow') he
    · refine (Int.zpow_le_iff_le_log (by norm_num : 1 < 2) hpos).mp ?_
      push_cast
      rw [zpow_add₀ (by norm_num), zpow_natCast]
      exact mul_le_mul_of_nonneg_right hpow he.le
  rw [place, hlog, Format.targetExponent, totalExponent]
  simp only [Format.mantissaBits, Format.minExponent]
  norm_num
  omega

/-- What is shifted to a place is rounded there. -/
theorem shiftToExponent_isNearest {m : ℕ} {e t : ℤ} (h : e ≤ t) :
    IsNearest (shiftToExponent m e .exact t).1.roundedMantissa (m * 2 ^ e / 2 ^ t) ∧
      (shiftToExponent m e .exact t).2 = t := by
  have hshift := ((Guards.exact m).shiftRight (t - e).toNat).isNearest
  have hq : (m : ℚ) * 2 ^ e / 2 ^ t = m / 2 ^ (t - e).toNat := by
    rw [← zpow_natCast, Int.toNat_of_nonneg (by omega), zpow_sub₀ (by norm_num), div_div_eq_mul_div]
  rw [hq]
  refine ⟨hshift, ?_⟩
  show e + ((t - e).toNat : ℤ) = t
  omega

/-- The number that an unpacked double is, where it is one. -/
def valueOf : UnpackedFloat → ℚ
  | .finite s m e _ => s.apply m * 2 ^ e
  | _ => 0

theorem valueOf_zero (s : Sign) : valueOf (.zero s) = 0 := rfl

/-- A number with at most 53 digits, as many as the places allow. -/
def Canonical : UnpackedFloat → Prop
  | .zero _ => True
  | .finite _ m e _ => m < 2 ^ 53 ∧ -1074 ≤ e ∧ (2 ^ 52 ≤ m ∨ e = -1074)
  | _ => False

/-- A significand of at most 53 digits is not shifted, except for a carry. -/
theorem shiftToTargetExponent_small {k : ℕ} {t : ℤ} (hk : k ≤ 2 ^ 53) (ht : -1074 ≤ t) :
    shiftToTargetExponent .binary64 k t .exact =
      if k = 2 ^ 53 then (⟨2 ^ 52, false, false⟩, t + 1) else (⟨k, false, false⟩, t) := by
  have htarget : Format.binary64.targetExponent (totalExponent k t) =
      max (k.log2 + 1 + t - 53) (-1074) := rfl
  unfold shiftToTargetExponent
  simp only
  rw [htarget]
  split_ifs with hcarry
  · subst hcarry
    have hmax : max (((2 ^ 53).log2 : ℕ) + 1 + t - 53) (-1074) = t + 1 := by
      rw [Nat.log2_two_pow]
      push_cast
      omega
    rw [hmax, shiftToExponent]
    simp only [show (t + 1 - t).toNat = 1 by omega]
    rfl
  · have hlog : k.log2 ≤ 52 := by
      obtain rfl | hne := eq_or_ne k 0
      · simp
      · exact Nat.lt_succ_iff.mp ((Nat.log2_lt hne).mpr (by omega))
    rw [shiftToExponent]
    simp only [show (max ((k.log2 : ℤ) + 1 + t - 53) (-1074) - t).toNat = 0 by omega]
    show (_, t + 0) = _
    rw [add_zero]
    rfl

/-- The parts of a double with a significand and an exponent. -/
def settled (s : Sign) (g : ExtendedMantissa × ℤ) : UnpackedFloat :=
  if h : g.1.mantissa = 0 then .zero s else .finite s g.1.mantissa g.2 (Nat.pos_of_ne_zero h)

theorem apply_natCast (s : Sign) (n : ℕ) : s.apply n = s.apply 1 * n := by
  cases s <;> simp [Sign.apply]

/-- The significand that a number is rounded to, after a carry, gives the rounded number. -/
theorem settled_spec (s : Sign) {q : ℚ} (hq : 0 < q) {k : ℕ} (hk : IsNearest k (q / 2 ^ place q)) :
    Canonical (settled s (shiftToTargetExponent .binary64 k (place q) .exact)) ∧
      valueOf (settled s (shiftToTargetExponent .binary64 k (place q) .exact)) =
        s.apply 1 * round q := by
  have hround : round q = k * 2 ^ place q := by
    rw [round, (Rational.nearest_isNearest _).eq hk, Int.cast_natCast]
  obtain ⟨hle, hfull⟩ := isNearest_place_bounds hq hk
  have hlast := neg_le_place q
  rw [shiftToTargetExponent_small (by exact_mod_cast hle) hlast]
  split_ifs with hcarry
  · subst hcarry
    refine ⟨⟨by norm_num, by omega, .inl le_rfl⟩, ?_⟩
    show ((s.apply ((2 ^ 52 : ℕ) : ℤ) : ℤ) : ℚ) * 2 ^ (place q + 1) = _
    rw [apply_natCast, hround, zpow_add_one₀ (by norm_num)]
    push_cast
    ring
  · unfold settled
    split_ifs with hzero
    · have hzero : k = 0 := hzero
      subst hzero
      exact ⟨trivial, by simp [valueOf, hround]⟩
    · refine ⟨⟨by show k < _; omega, hlast, hfull.imp_left fun h => by exact_mod_cast h⟩, ?_⟩
      rw [valueOf, apply_natCast, hround]
      push_cast
      ring

theorem round_apply (s : Sign) (q : ℚ) : round (s.apply 1 * q) = s.apply 1 * round q := by
  cases s <;> simp [Sign.apply, round_neg]

/-- **Rounding a significand** gives the parts of the rounded number. -/
theorem roundWithAccuracy_spec (s : Sign) {m : ℕ} (hm : 0 < m) {e : ℤ}
    (he : e ≤ Format.binary64.targetExponent (totalExponent m e)) :
    Canonical (roundWithAccuracy .binary64 s m e .exact) ∧
      valueOf (roundWithAccuracy .binary64 s m e .exact) = s.apply 1 * round (m * 2 ^ e) := by
  have htarget := targetExponent_eq hm e
  rw [htarget] at he
  have hq : (0 : ℚ) < m * 2 ^ e := mul_pos (by exact_mod_cast hm) (zpow_pos (by norm_num) e)
  obtain ⟨hk, hplace⟩ := shiftToExponent_isNearest (m := m) he
  have hfirst : shiftToTargetExponent .binary64 m e .exact =
      shiftToExponent m e .exact (place (m * 2 ^ e)) :=
    congrArg (shiftToExponent m e .exact) htarget
  have hsettled : roundWithAccuracy .binary64 s m e .exact =
      settled s (shiftToTargetExponent .binary64
        (shiftToTargetExponent .binary64 m e .exact).1.roundedMantissa
        (shiftToTargetExponent .binary64 m e .exact).2 .exact) := rfl
  rw [hsettled, hfirst, hplace]
  exact settled_spec s hq hk

/-- Before it is rounded, a significand is given digits enough. -/
theorem unpackedRound_spec (s : Sign) {m : ℕ} (hm : 0 < m) (e : ℤ) :
    Canonical (UnpackedFloat.round .binary64 s m e) ∧
      valueOf (UnpackedFloat.round .binary64 s m e) = s.apply 1 * round (m * 2 ^ e) := by
  have htarget := targetExponent_eq hm e
  set shift := (e - place (m * 2 ^ e)).toNat with hshift
  have hround : UnpackedFloat.round .binary64 s m e =
      roundWithAccuracy .binary64 s (m <<< shift) (e - shift) .exact := by
    rw [hshift, ← htarget]
    rfl
  have hpos : 0 < m <<< shift := by
    rw [Nat.shiftLeft_eq]
    positivity
  have hvalue : ((m <<< shift : ℕ) : ℚ) * 2 ^ (e - shift) = m * 2 ^ e := by
    rw [Nat.shiftLeft_eq, zpow_sub₀ (by norm_num), zpow_natCast]
    push_cast
    field_simp
  rw [hround, ← hvalue]
  refine roundWithAccuracy_spec s hpos ?_
  rw [targetExponent_eq hpos, hvalue]
  omega

/-- **Rounding an integer significand** gives the parts of the rounded number. -/
theorem normalize_spec (n e : ℤ) :
    Canonical (UnpackedFloat.normalize .binary64 n e .positive) ∧
      valueOf (UnpackedFloat.normalize .binary64 n e .positive) = round (n * 2 ^ e) := by
  unfold UnpackedFloat.normalize
  obtain hneg | rfl | hpos := lt_trichotomy n 0
  · rw [Int.compare_eq_lt.mpr hneg]
    have hspec := unpackedRound_spec .negative (m := (-n).toNat) (by omega) e
    refine ⟨hspec.1, hspec.2.trans ?_⟩
    have hcast : (((-n).toNat : ℕ) : ℚ) = -n := by
      exact_mod_cast Int.toNat_of_nonneg (by omega)
    rw [hcast, neg_mul, round_neg]
    simp [Sign.apply]
  · exact ⟨trivial, by rw [Int.cast_zero, zero_mul, round_zero]; rfl⟩
  · rw [Int.compare_eq_gt.mpr hpos]
    have hspec := unpackedRound_spec .positive (m := n.toNat) (by omega) e
    refine ⟨hspec.1, hspec.2.trans ?_⟩
    have hcast : ((n.toNat : ℕ) : ℚ) = n := by exact_mod_cast Int.toNat_of_nonneg (by omega)
    rw [hcast]
    simp [Sign.apply]

/-! ### Packing -/

/-- A packed number whose significand starts with an implicit one. -/
theorem unpack_normal (s : Sign) {b m : ℕ} (hb : 0 < b) (hb' : b < 2047) (hm : 2 ^ 52 ≤ m)
    (hm' : m < 2 ^ 53) :
    UnpackedFloat.unpack .binary64
      (packComponents .binary64 s (BitVec.ofNat 11 b) (BitVec.ofNat 52 m)) =
        .finite s m (b - 1075) (by omega) := by
  have hone : BitVec.ofNat 11 b ≠ -1#11 := by
    intro h
    have h := congrArg BitVec.toNat h
    simp at h
    omega
  have hzero : BitVec.ofNat 11 b ≠ 0#11 := by
    intro h
    have h := congrArg BitVec.toNat h
    simp at h
    omega
  have hsig : (1#1 ++ BitVec.ofNat 52 m).toNat = m := by
    rw [BitVec.toNat_append, ← Nat.shiftLeft_add_eq_or_of_lt (BitVec.isLt _)]
    simp [Nat.shiftLeft_eq]
    omega
  have hexp : (BitVec.ofNat 11 b).toNat = b := by
    rw [BitVec.toNat_ofNat, Nat.mod_eq_of_lt (by omega)]
  unfold UnpackedFloat.unpack
  simp only [UnpackedFloat.unpackMantissa_packComponents,
    UnpackedFloat.unpackExponent_packComponents, UnpackedFloat.unpackSign_packComponents,
    Sign.ofBitVec_toBitVec,
    hone, hzero, if_false, hsig, hexp]
  rfl

/-- A packed number at the smallest place. -/
theorem unpack_subnormal (s : Sign) {m : ℕ} (hm : 0 < m) (hm' : m < 2 ^ 52) :
    UnpackedFloat.unpack .binary64 (packComponents .binary64 s 0#11 (BitVec.ofNat 52 m)) =
      .finite s m (-1074) hm := by
  have hsig : (BitVec.ofNat 52 m).toNat = m := by
    rw [BitVec.toNat_ofNat, Nat.mod_eq_of_lt hm']
  have hzero : BitVec.ofNat 52 m ≠ 0#52 := by
    intro h
    have h := congrArg BitVec.toNat h
    rw [hsig] at h
    exact hm.ne' h
  unfold UnpackedFloat.unpack
  simp only [UnpackedFloat.unpackMantissa_packComponents,
    UnpackedFloat.unpackExponent_packComponents, UnpackedFloat.unpackSign_packComponents,
    Sign.ofBitVec_toBitVec,
    hzero, dif_neg, hsig, not_false_eq_true]
  rfl

theorem pack_finite (s : Sign) {m : ℕ} {e : ℤ} (hm : 0 < m) :
    UnpackedFloat.pack .binary64 (.finite s m e hm) =
      if 2048 ≤ (e + 1075).toNat + 1 then UnpackedFloat.packedInfinity .binary64 s
      else if m.log2 + 1 = 53 then
        packComponents .binary64 s (BitVec.ofNat 11 (e + 1075).toNat) (BitVec.ofNat 52 m)
      else packComponents .binary64 s 0#11 (BitVec.ofNat 52 m) := by
  rw [show e + 1075 = e + (1023 : ℕ) + (52 : ℕ) by push_cast; ring]
  rfl

/-- **Packing keeps a canonical number** whose exponent is not too large. -/
theorem unpack_pack (s : Sign) {m : ℕ} {e : ℤ} (hm : 0 < m) (h : Canonical (.finite s m e hm))
    (he : e ≤ 971) :
    UnpackedFloat.unpack .binary64 (UnpackedFloat.pack .binary64 (.finite s m e hm)) =
      .finite s m e hm := by
  obtain ⟨hlt, hlast, hfull⟩ := h
  rw [pack_finite, if_neg (by omega)]
  by_cases hnormal : 2 ^ 52 ≤ m
  · have hlog : m.log2 + 1 = 53 := by
      have hlow := (Nat.le_log2 hm.ne').mpr hnormal
      have hhigh := (Nat.log2_lt hm.ne').mpr hlt
      omega
    rw [if_pos hlog, unpack_normal s (by omega) (by omega) hnormal hlt]
    congr 1
    omega
  · have hlog : m.log2 + 1 ≠ 53 := by
      have hhigh := (Nat.log2_lt hm.ne').mpr (not_le.mp hnormal)
      omega
    obtain rfl : e = -1074 := hfull.resolve_left hnormal
    rw [if_neg hlog, unpack_subnormal s hm (not_le.mp hnormal)]

/-- Packing takes a number whose exponent is too large beyond all numbers. -/
theorem unpack_pack_infinite (s : Sign) {m : ℕ} {e : ℤ} (hm : 0 < m) (he : 971 < e) :
    UnpackedFloat.unpack .binary64 (UnpackedFloat.pack .binary64 (.finite s m e hm)) =
      .infinity s := by
  rw [pack_finite, if_pos (by omega)]
  cases s <;> rfl

/-- The parts of an unpacked double. -/
def parts : UnpackedFloat → Binary64
  | .notANumber => .undefined
  | .infinity s => .infinite (s == .negative)
  | .zero s => .finite (s == .negative) 0 (-1074)
  | .finite s m e _ => .finite (s == .negative) m e

theorem unpackMantissa_toNat (b : BitVec 64) :
    (@UnpackedFloat.unpackMantissa .binary64 b).toNat = b.toNat % 2 ^ 52 := by
  simp [UnpackedFloat.unpackMantissa]

theorem unpackExponent_toNat (b : BitVec 64) :
    (@UnpackedFloat.unpackExponent .binary64 b).toNat = b.toNat / 2 ^ 52 % 2 ^ 11 := by
  simp [UnpackedFloat.unpackExponent, Nat.shiftRight_eq_div_pow]

theorem unpackSign_eq (b : BitVec 64) :
    (Sign.ofBitVec (@unpackSign .binary64 b) == .negative) = decide (2 ^ 63 ≤ b.toNat) := by
  have hb := b.isLt
  have hsign : (@unpackSign .binary64 b).toNat = b.toNat / 2 ^ 63 % 2 := by
    simp [unpackSign, Nat.shiftRight_eq_div_pow]
  by_cases h : 2 ^ 63 ≤ b.toNat
  · have hone : @unpackSign .binary64 b ≠ 0#1 := by
      intro h0
      rw [h0] at hsign
      simp at hsign
      omega
    rw [decide_eq_true h, Sign.ofBitVec, if_neg hone]
    rfl
  · have hzero : @unpackSign .binary64 b = 0#1 := by
      apply BitVec.eq_of_toNat_eq
      rw [hsign]
      simp
      omega
    rw [decide_eq_false h, Sign.ofBitVec, if_pos hzero]
    rfl

/-- **The parts of a double are read off its bits.** -/
theorem parts_unpack (b : BitVec 64) :
    parts (UnpackedFloat.unpack .binary64 b) = Binary64.ofBits b.toNat := by
  have hm := unpackMantissa_toNat b
  have he := unpackExponent_toNat b
  have hs := unpackSign_eq b
  have hzero {n : ℕ} (v : BitVec n) : v = 0#n ↔ v.toNat = 0 := by
    rw [← BitVec.toNat_inj, BitVec.toNat_zero]
  have hones : @UnpackedFloat.unpackExponent .binary64 b = -1#11 ↔
      b.toNat / 2 ^ 52 % 2 ^ 11 = 2047 := by
    rw [← BitVec.toNat_inj, he]
    rfl
  unfold UnpackedFloat.unpack Binary64.ofBits
  simp only [Nat.pow_eq]
  by_cases hall : b.toNat / 2 ^ 52 % 2 ^ 11 = 2047
  · rw [if_pos (hones.mpr hall), if_pos hall]
    by_cases hfraction : b.toNat % 2 ^ 52 = 0
    · rw [if_pos ((hzero _).mpr (hm.trans hfraction)), if_pos hfraction, ← hs]
      rfl
    · rw [if_neg (fun h => hfraction (hm.symm.trans ((hzero _).mp h))), if_neg hfraction]
      rfl
  · rw [if_neg (hones.not.mpr hall), if_neg hall]
    by_cases hnone : b.toNat / 2 ^ 52 % 2 ^ 11 = 0
    · rw [if_pos ((hzero _).mpr (he.trans hnone)), if_pos hnone]
      by_cases hfraction : b.toNat % 2 ^ 52 = 0
      · rw [dif_pos ((hzero _).mpr (hm.trans hfraction)), hfraction, ← hs]
        rfl
      · rw [dif_neg (fun h => hfraction (hm.symm.trans ((hzero _).mp h)))]
        simp only [parts, hm, he, hs, hnone]
        rfl
    · rw [if_neg (fun h => hnone (he.symm.trans ((hzero _).mp h))), if_neg hnone]
      have hsig : (1#1 ++ @UnpackedFloat.unpackMantissa .binary64 b).toNat =
          2 ^ 52 + b.toNat % 2 ^ 52 := by
        rw [BitVec.toNat_append, ← Nat.shiftLeft_add_eq_or_of_lt (BitVec.isLt _), hm]
        rfl
      simp only [parts, hsig, he, hs]
      rfl

/-- The parts of an unpacked double are canonical. -/
theorem canonical_of_unpack {b : BitVec 64} {s : Sign} {m : ℕ} {e : ℤ} {hm : 0 < m}
    (h : UnpackedFloat.unpack .binary64 b = .finite s m e hm) :
    Canonical (.finite s m e hm) ∧ e ≤ 971 := by
  have hparts := parts_unpack b
  rw [h] at hparts
  have hb := b.isLt
  unfold Binary64.ofBits at hparts
  simp only [Nat.pow_eq] at hparts
  simp only [Canonical]
  split_ifs at hparts with hall hfraction hnone
  · simp [parts] at hparts
  · simp [parts] at hparts
  · simp only [parts, Binary64.finite.injEq] at hparts
    omega
  · simp only [parts, Binary64.finite.injEq] at hparts
    omega

end Double

end DensityAlgebra
