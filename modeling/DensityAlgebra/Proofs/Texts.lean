/-
# Which values with errors have a text

Finite doubles have a text unless one of three things happens (`Machine.Fails`): the power of ten
in front of the first digit of the error vanishes or is too large, and the digit is asked for;
there is no room for value and error with the digits that are kept; or the error is zero and more
digits are asked for than are ever written. A summary of a fit fails exactly if the text of one of
its lines does.

Key definitions: `Precision.Admissible`, `Machine.Leads`, `Machine.Fails`.
Key theorems: `Machine.isSome_autoDigits`, `Machine.keptDigits_eq_error`, `Machine.text_of_room`,
`Machine.text_of_not_room`, `Machine.text_error_iff`, `Machine.exists_summary_iff`,
`Machine.texts_and_summaries_fail_iff`.
-/
import DensityAlgebra.Proofs.Decoding
import DensityAlgebra.Proofs.Machines
import DensityAlgebra.Proofs.Traversals

namespace DensityAlgebra

open Double (toRat)
open Uncertainty (autoDigits formsText keptDigits mostDigits text)

/-! ### Digits that are kept -/

/-- What may be asked for: nothing, or a positive number of digits. -/
def Precision.Admissible : Precision → Prop
  | .auto => True
  | .whole n => 0 < n
  | .real x => x.isFinite ∧ 0 < toRat x
  | .text s => saysAuto s

/-- A number of digits that may be asked for is one. -/
theorem Precision.Admissible.exists_digits {α : Type} {p : Precision} (hp : p.Admissible)
    (hauto : ¬p.isAuto) : ∃ digits, p.digits (α := α) = .ok digits := by
  cases p with
  | auto => exact absurd rfl hauto
  | whole n => exact ⟨_, rfl⟩
  | text s => exact absurd hp hauto
  | real x =>
    have hparts := Double.ofFloat_eq x
    have hnan : x.isNaN = false := by
      have hfinite := Double.isFinite_eq x
      rw [hp.1] at hfinite
      simp only [Bool.true_eq, Bool.not_eq_true', Bool.or_eq_false_iff] at hfinite
      exact hfinite.1
    obtain ⟨n, hn⟩ : ∃ n, Double.integerPart (α := α) x = .ok n := by
      unfold Double.integerPart
      rw [hnan, hparts]
      obtain ⟨s, h⟩ | ⟨s, m, e, hm, h, -⟩ := Double.unpack_of_isFinite hp.1 <;> rw [h] <;>
        exact ⟨_, rfl⟩
    exact ⟨_, bind_eq_ok_iff.mpr ⟨n, hn, rfl⟩⟩

namespace Machine

variable {M : Machine}

/-- The power of ten of an error is a double, and not zero. -/
def Leads (M : Machine) (err : Float) : Prop :=
  M.decade err.abs ≤ 308 ∧ M.factor (M.decade err.abs) ≠ 0

/-- **The first digit of an error is found** exactly if the power of ten in front of it is. -/
theorem isSome_autoDigits (hM : M.Faithful) (err : Float) :
    (autoDigits (β := M.Number) err.abs).isSome ↔ M.Leads err := by
  have hunfold : (autoDigits (β := M.Number) err.abs).isSome =
      ((M.powerOfTen (M.decade err.abs)).bind fun y =>
        if y == 0.0 then none else some (Float.div err.abs y)).isSome := Option.isSome_map
  rw [hunfold]
  by_cases hdecade : M.decade err.abs ≤ 308
  · obtain ⟨y, hpower, hy, hvalue⟩ := powerOfTen_spec hM hdecade
    have hzero := Double.beq_zero_iff hy
    rw [hvalue] at hzero
    rw [hpower, Option.bind_some]
    split_ifs with h
    · exact iff_of_false (by simp) fun hleads => hleads.2 (hzero.mp h)
    · exact iff_of_true rfl ⟨hdecade, hzero.not.mp h⟩
  · rw [powerOfTen_eq_none (by omega)]
    exact iff_of_false (by simp) fun hleads => hdecade hleads.1

theorem leads_of_moderate (hM : M.Faithful) {err : Float} (herr : err.isFinite)
    (hsmall : 10 ^ (-307 : ℤ) ≤ |toRat err|) (hlarge : |toRat err| < 10 ^ (308 : ℤ)) :
    M.Leads err := by
  have hpos : 0 < |toRat err| := (zpow_pos (by norm_num) _).trans_le hsmall
  obtain ⟨hlow, hhigh⟩ := decade_bounds hM herr (abs_pos.mp hpos)
  have hle : -307 ≤ Int.log 10 |toRat err| :=
    (Int.zpow_le_iff_le_log (by norm_num : 1 < 10) hpos).mp (by exact_mod_cast hsmall)
  have hlt : Int.log 10 |toRat err| < 308 :=
    (Int.lt_zpow_iff_log_lt (by norm_num : 1 < 10) hpos).mp (by exact_mod_cast hlarge)
  exact ⟨by omega, (factor_pos hM (by omega)).ne'⟩

theorem isZero_abs {err : Float} (herr : err.isFinite) :
    DecimalScale.isZero (β := M.Number) err.abs = decide (toRat err = 0) := by
  have hzero := Double.beq_zero_iff (x := err.abs) (by rwa [Double.isFinite_abs])
  rw [Double.toRat_abs, abs_eq_zero] at hzero
  exact Bool.eq_iff_iff.mpr (hzero.trans decide_eq_true_iff.symm)

section Texts

variable {α : Type} {x err : Float} {p : Precision} {digits : ℕ}

theorem keptDigits_auto (herr : err.isFinite) (hzero : toRat err ≠ 0) (hp : p.isAuto) :
    keptDigits (α := α) (β := M.Number) err.abs p =
      match autoDigits (β := M.Number) err.abs with
      | some n => .ok n
      | none => .error .divisionByZero := by
  have hnot : ¬DecimalScale.isZero (β := M.Number) err.abs := by
    rw [isZero_abs herr]
    simpa using hzero
  exact (if_pos hp).trans (if_neg hnot)

/-- If no number of digits is asked for, one or two are kept of an error whose first digit is
found. -/
theorem keptDigits_of_leads (hM : M.Faithful) (herr : err.isFinite) (hzero : toRat err ≠ 0)
    (hp : p.isAuto) (hleads : M.Leads err) :
    ∃ digits ≤ 2, keptDigits (α := α) (β := M.Number) err.abs p = .ok digits := by
  obtain ⟨n, hn⟩ := Option.isSome_iff_exists.mp ((isSome_autoDigits hM err).mpr hleads)
  refine ⟨n, (Uncertainty.autoDigits_bounds hn).2, ?_⟩
  rw [keptDigits_auto herr hzero hp, hn]

theorem keptDigits_of_not_leads (hM : M.Faithful) (herr : err.isFinite) (hzero : toRat err ≠ 0)
    (hp : p.isAuto) (hleads : ¬M.Leads err) :
    keptDigits (α := α) (β := M.Number) err.abs p = .error .divisionByZero := by
  have hnone := (isSome_autoDigits hM err).not.mpr hleads
  rw [Option.not_isSome_iff_eq_none] at hnone
  rw [keptDigits_auto herr hzero hp, hnone]

/-- The text of finite numbers. -/
theorem text_eq (hx : x.isFinite) (herr : err.isFinite) (p : Precision) :
    text (α := α) (β := M.Number) x err p =
      (keptDigits (β := M.Number) err.abs p >>= fun digits =>
        if toRat err = 0 then
          if mostDigits < digits then .error .unreadableNumber
          else .ok (Text.general digits x ++ "(0)")
        else
          match formsText (β := M.Number) x err.abs digits with
          | some text => .ok text
          | none => .error .overflow) := by
  have hfinite {y : Float} (hy : y.isFinite) : y.isNaN = false ∧ y.isInf = false := by
    rw [Double.isFinite_eq] at hy
    simpa using hy
  obtain ⟨hxnan, hxinf⟩ := hfinite hx
  obtain ⟨henan, heinf⟩ := hfinite (y := err.abs) (by rwa [Double.isFinite_abs])
  have hunfold : text (α := α) (β := M.Number) x err p =
      if x.isNaN || err.abs.isNaN then .ok "NaN"
      else if x.isInf || err.abs.isInf then .ok "inf"
      else keptDigits (β := M.Number) err.abs p >>= fun digits =>
        if DecimalScale.isZero (β := M.Number) err.abs then
          if mostDigits < digits then .error .unreadableNumber
          else .ok (Text.general digits x ++ "(0)")
        else
          match formsText (β := M.Number) x err.abs digits with
          | some text => .ok text
          | none => .error .overflow := rfl
  rw [hunfold, hxnan, henan, hxinf, heinf, isZero_abs herr]
  simp only [decide_eq_true_eq]
  rfl

/-- **What becomes of an error that is not zero** if so many of its digits are kept: there is a
text if there is room for it. -/
theorem text_of_room (hM : M.Faithful) (hx : x.isFinite) (herr : err.isFinite)
    (hzero : toRat err ≠ 0) (hkept : keptDigits (α := α) (β := M.Number) err.abs p = .ok digits)
    (hroom : M.Room x err digits) : ∃ s, text (α := α) (β := M.Number) x err p = .ok s := by
  obtain ⟨s, hs⟩ := Option.isSome_iff_exists.mp
    ((isSome_formsText hM hx herr (Uncertainty.one_le_of_keptDigits hkept)).mpr hroom)
  refine ⟨s, ?_⟩
  rw [text_eq hx herr, hkept, ok_bind, if_neg hzero, hs]

theorem text_of_not_room (hM : M.Faithful) (hx : x.isFinite) (herr : err.isFinite)
    (hzero : toRat err ≠ 0) (hkept : keptDigits (α := α) (β := M.Number) err.abs p = .ok digits)
    (hroom : ¬M.Room x err digits) :
    text (α := α) (β := M.Number) x err p = .error .overflow := by
  have hnone := (isSome_formsText hM hx herr (Uncertainty.one_le_of_keptDigits hkept)).not.mpr hroom
  rw [Option.not_isSome_iff_eq_none] at hnone
  rw [text_eq hx herr, hkept, ok_bind, if_neg hzero, hnone]

/-- An error of zero is written as long as the digits are not too many. -/
theorem text_of_zero (hx : x.isFinite) (herr : err.isFinite) (hzero : toRat err = 0)
    (hkept : keptDigits (α := α) (β := M.Number) err.abs p = .ok digits) :
    text (α := α) (β := M.Number) x err p =
      if mostDigits < digits then .error .unreadableNumber
      else .ok (Text.general digits x ++ "(0)") := by
  rw [text_eq hx herr, hkept, ok_bind, if_pos hzero]

/-- Why there is no text of finite numbers: the first digit of the error is not found, there is
no room for value and error, or too many digits are asked for. -/
inductive Fails (M : Machine) (x err : Float) (p : Precision) : Fault M.Number → Prop
  | lead (hzero : toRat err ≠ 0) (hp : p.isAuto) (h : ¬M.Leads err) :
      Fails M x err p .divisionByZero
  | room {digits : ℕ} (hzero : toRat err ≠ 0)
      (hkept : keptDigits (α := M.Number) (β := M.Number) err.abs p = .ok digits)
      (h : ¬M.Room x err digits) : Fails M x err p .overflow
  | length {digits : ℕ} (hzero : toRat err = 0)
      (hkept : keptDigits (α := M.Number) (β := M.Number) err.abs p = .ok digits)
      (h : mostDigits < digits) : Fails M x err p .unreadableNumber

/-- **Finding the digits of an error fails** only where its first digit is not found. -/
theorem keptDigits_eq_error (hM : M.Faithful) (herr : err.isFinite) (hp : p.Admissible)
    {f : Fault α} (h : keptDigits (β := M.Number) err.abs p = .error f) :
    f = .divisionByZero ∧ toRat err ≠ 0 ∧ p.isAuto ∧ ¬M.Leads err := by
  by_cases hauto : p.isAuto
  · by_cases hzero : toRat err = 0
    · unfold keptDigits at h
      rw [if_pos hauto, isZero_abs herr, if_pos (decide_eq_true hzero)] at h
      cases h
    · by_cases hleads : M.Leads err
      · obtain ⟨digits, -, hkept⟩ := keptDigits_of_leads (α := α) hM herr hzero hauto hleads
        cases h.symm.trans hkept
      · rw [keptDigits_of_not_leads hM herr hzero hauto hleads] at h
        obtain rfl := Except.error.inj h
        exact ⟨rfl, hzero, hauto, hleads⟩
  · obtain ⟨digits, hdigits⟩ := hp.exists_digits (α := α) hauto
    unfold keptDigits at h
    rw [if_neg hauto, hdigits] at h
    cases h

/-- **The texts of finite numbers fail for these reasons only.** -/
theorem text_error_iff (hM : M.Faithful) (hx : x.isFinite) (herr : err.isFinite)
    (hp : p.Admissible) (f : Fault M.Number) :
    text (β := M.Number) x err p = .error f ↔ M.Fails x err p f := by
  constructor
  · intro h
    obtain hnone | ⟨digits, hkept, -⟩ := bind_eq_error_iff.mp ((text_eq hx herr p).symm.trans h)
    · obtain ⟨rfl, hzero, hauto, hleads⟩ := keptDigits_eq_error hM herr hp hnone
      exact .lead hzero hauto hleads
    · by_cases hzero : toRat err = 0
      · rw [text_of_zero hx herr hzero hkept] at h
        split_ifs at h with hmany
        obtain rfl := Except.error.inj h
        exact .length hzero hkept hmany
      · by_cases hroom : M.Room x err digits
        · obtain ⟨s, hs⟩ := text_of_room hM hx herr hzero hkept hroom
          cases h.symm.trans hs
        · rw [text_of_not_room hM hx herr hzero hkept hroom] at h
          obtain rfl := Except.error.inj h
          exact .room hzero hkept hroom
  · rintro (⟨hzero, hauto, hleads⟩ | ⟨hzero, hkept, hroom⟩ | ⟨hzero, hkept, hmany⟩)
    · rw [text_eq hx herr, keptDigits_of_not_leads hM herr hzero hauto hleads]
      rfl
    · exact text_of_not_room hM hx herr hzero hkept hroom
    · rw [text_of_zero hx herr hzero hkept, if_pos hmany]

end Texts

/-- The line of a parameter whose error is finite ends with a text. -/
theorem exists_summaryLine_iff (n : String) (v e : M.Number) (p : Precision) :
    (∃ s, FitResult.summaryLine p n v e = .ok s) ↔
      (Float.isFinite e → ∃ s, text (α := M.Number) (β := M.Number) v e p = .ok s) := by
  have hfinite : Float.isFinite e = !(DecimalScale.isNaN e || DecimalScale.isInf e) :=
    Double.isFinite_eq e
  unfold FitResult.summaryLine
  rw [hfinite]
  cases DecimalScale.isNaN e || DecimalScale.isInf e with
  | true => exact iff_of_true ⟨_, rfl⟩ nofun
  | false =>
    constructor
    · rintro ⟨s, hs⟩ -
      obtain ⟨s, hs, -⟩ := bind_eq_ok_iff.mp hs
      exact ⟨s, hs⟩
    · intro h
      obtain ⟨s, hs⟩ := h rfl
      exact ⟨_, bind_eq_ok_iff.mpr ⟨s, hs, rfl⟩⟩

/-- **A summary is written exactly if the texts of all finite errors are.** -/
theorem exists_summary_iff (r : FitResult M.Number) (p : Precision) :
    (∃ s, r.summary p = .ok s) ↔ ∀ row ∈ r.names.zip (r.values.zip r.errors),
      Float.isFinite row.2.2 →
        ∃ s, text (α := M.Number) (β := M.Number) row.2.1 row.2.2 p = .ok s := by
  have hlines : (∃ s, r.summary p = .ok s) ↔ ∃ lines,
      (r.names.zip (r.values.zip r.errors)).mapM
        (fun (n, v, e) => FitResult.summaryLine p n v e) = .ok lines := by
    constructor
    · rintro ⟨s, hs⟩
      obtain ⟨lines, hlines, -⟩ := bind_eq_ok_iff.mp hs
      exact ⟨lines, hlines⟩
    · rintro ⟨lines, hlines⟩
      exact ⟨_, bind_eq_ok_iff.mpr ⟨lines, hlines, rfl⟩⟩
  rw [hlines, exists_mapM_eq_ok_iff]
  exact forall₂_congr fun row _ => exists_summaryLine_iff row.1 row.2.1 row.2.2 p

/-- A summary of finite values fails exactly if the text of a finite error does. -/
theorem summary_fails_iff (hM : M.Faithful) {p : Precision} (hp : p.Admissible)
    {r : FitResult M.Number} (hr : ∀ v ∈ r.values, Float.isFinite v) :
    (∃ f, r.summary p = .error f) ↔ ∃ row ∈ r.names.zip (r.values.zip r.errors),
      Float.isFinite row.2.2 ∧ ∃ f, M.Fails row.2.1 row.2.2 p f := by
  have hfails {β : Type} (e : Except (Fault M.Number) β) :
      (∃ f, e = .error f) ↔ ¬∃ s, e = .ok s := by
    cases e <;> simp
  rw [hfails, exists_summary_iff]
  push Not
  refine exists_congr fun row => and_congr_right fun hrow => and_congr_right fun hfinite => ?_
  have hvalue := hr row.2.1 (List.of_mem_zip (List.of_mem_zip hrow).2).1
  have htext := hfails (text (β := M.Number) row.2.1 row.2.2 p)
  push Not at htext
  rw [← htext]
  exact exists_congr fun f => text_error_iff hM hvalue hfinite hp f

/-- **Which finite numbers have no text**, and with them which results have no summary: a text
fails where the first digit of the error is not found, where there is no room for value and error
and where too many digits are asked for, and nowhere else. Moderate magnitudes have texts, and
very small errors do not. -/
theorem texts_and_summaries_fail_iff (hM : M.Faithful) {p : Precision} (hp : p.Admissible) :
    (∀ x err : Float, x.isFinite → err.isFinite → ∀ f : Fault M.Number,
      text (β := M.Number) x err p = .error f ↔ M.Fails x err p f) ∧
    (∀ (x err : Float) (digits : ℕ), x.isFinite → err.isFinite →
      keptDigits (α := M.Number) (β := M.Number) err.abs p = .ok digits →
      (Moderate (toRat x) (toRat err) digits →
        ∃ s, text (α := M.Number) (β := M.Number) x err p = .ok s) ∧
      (toRat err ≠ 0 → |toRat err| < 10 ^ (digits - 310 : ℤ) →
        text (α := M.Number) (β := M.Number) x err p = .error .overflow)) ∧
    (∀ err : Float, err.isFinite → 10 ^ (-307 : ℤ) ≤ |toRat err| → |toRat err| < 10 ^ (308 : ℤ) →
      ∃ digits, keptDigits (α := M.Number) (β := M.Number) err.abs p = .ok digits) ∧
    ∀ r : FitResult M.Number, (∀ v ∈ r.values, Float.isFinite v) →
      ((∃ f, r.summary p = .error f) ↔ ∃ row ∈ r.names.zip (r.values.zip r.errors),
        Float.isFinite row.2.2 ∧ ∃ f, M.Fails row.2.1 row.2.2 p f) := by
  refine ⟨fun x err hx herr => text_error_iff hM hx herr hp,
    fun x err digits hx herr hkept => ⟨fun hmoderate => ?_, fun hzero hsmall => ?_⟩,
    fun err herr hsmall hlarge => ?_, fun r => summary_fails_iff hM hp⟩
  · have hzero : toRat err ≠ 0 :=
      abs_pos.mp ((zpow_pos (by norm_num) _).trans_le hmoderate.notSmall)
    exact text_of_room hM hx herr hzero hkept (room_of_moderate hM herr hmoderate)
  · exact text_of_not_room hM hx herr hzero hkept (not_room_of_small hM herr hzero hsmall)
  · cases hkept : keptDigits (α := M.Number) (β := M.Number) err.abs p with
    | ok digits => exact ⟨digits, rfl⟩
    | error f =>
      obtain ⟨-, -, -, hleads⟩ := keptDigits_eq_error hM herr hp hkept
      exact absurd (leads_of_moderate hM herr hsmall hlarge) hleads

/-- Zero has no text with the least error there is, and neither has a result that says so. -/
theorem texts_and_summaries_fail_iff_least :
    exact.Faithful ∧ (Precision.whole 1).Admissible ∧
      text (α := exact.Number) (β := exact.Number) (0.0 : Float) Double.least (.whole 1) =
        .error .overflow ∧
      ∃ f, (⟨["a"], [(0.0 : Float)], [Double.least], none, (0.0 : Float), true, "", none, 0⟩ :
        FitResult exact.Number).summary (.whole 1) = .error f := by
  have hp : (Precision.whole 1).Admissible := Int.one_pos
  have hzero : toRat Double.least ≠ 0 := Double.toRat_least ▸ zpow_ne_zero _ (by norm_num)
  have hsmall : |toRat Double.least| < 10 ^ ((1 : ℕ) - 310 : ℤ) := by
    rw [Double.toRat_least, abs_of_pos (zpow_pos (by norm_num) _)]
    exact two_zpow_neg_lt (by decide +kernel : 10 ^ 309 < 2 ^ 1074)
  obtain ⟨hfails, htexts, -, hsummaries⟩ := texts_and_summaries_fail_iff exact_faithful hp
  have hx : (0.0 : Float).isFinite := rfl
  have htext := (htexts 0.0 Double.least 1 hx Double.isFinite_least rfl).2 hzero hsmall
  refine ⟨exact_faithful, hp, htext, (hsummaries _ ?_).mpr ⟨_, List.mem_singleton_self _,
    Double.isFinite_least, _, (hfails _ _ hx Double.isFinite_least _).mp htext⟩⟩
  intro v hv
  obtain rfl := List.mem_singleton.mp hv
  exact hx

end Machine

end DensityAlgebra
