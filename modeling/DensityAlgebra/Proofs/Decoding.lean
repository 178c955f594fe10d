/-
# What texts of values with errors say

A text of a value with an error is read back digit by digit: the digits in parentheses count
units of the last digit in front of them (`Uncertainty.decode`). A form is made of an integer, of
which some digits stand behind the point, and an error in units of the last of them
(`Uncertainty.decode_form`).

Where numbers are scaled without rounding, as rational numbers are, the form without an exponent
and the one with an exponent therefore say the same, whichever is the shorter: the value and the
error, both rounded to the last digit of the error that is kept.

Key definitions: `Rational.fixedText`, `Uncertainty.decode`.
Key theorems: `Text.pointed_spells`, `Text.power?_toString`, `Uncertainty.decode_spelled`,
`Uncertainty.decode_exponentForm`, `Uncertainty.decode_fixedForm`, `Uncertainty.text_decodes`.
-/
import DensityAlgebra.Uncertainty
import DensityAlgebra.Proofs.Rounding
import DensityAlgebra.Proofs.Traversals
import Mathlib.Analysis.SpecialFunctions.Log.Base

namespace DensityAlgebra

/-! ### Digits -/

namespace Text

theorem digit?_digitChar {d : ℕ} (h : d < 10) : digit? (Nat.digitChar d) = some d := by
  decide +revert

theorem digitChar_notMem {d : ℕ} (h : d < 10) : Nat.digitChar d ∉ ['_', '-', '+'] := by
  decide +revert

/-- No digit follows. -/
def Stops (cs : List Char) : Prop := ∀ c ∈ cs.head?, c ≠ '_' ∧ digit? c = none

theorem stops_nil : Stops [] := nofun

theorem stops_cons {c : Char} {cs : List Char} (h : c ≠ '_') (h' : digit? c = none) :
    Stops (c :: cs) := by
  simpa [Stops] using ⟨h, h'⟩

theorem leadingDigits_stops {rest : List Char} (h : Stops rest) (acc : List ℕ) :
    leadingDigits rest acc = (acc, rest) := by
  cases rest with
  | nil => cases acc <;> rfl
  | cons c rest =>
    obtain ⟨hne, hnone⟩ := h c rfl
    rw [leadingDigits, hnone]
    exact fun _ _ _ _ _ hunderscore _ => hne hunderscore

/-- Digits are read up to where they stop. -/
theorem leadingDigits_map {ds : List ℕ} (hds : ∀ d ∈ ds, d < 10) {rest : List Char}
    (hrest : Stops rest) (acc : List ℕ) :
    leadingDigits (ds.map Nat.digitChar ++ rest) acc = (ds.reverse ++ acc, rest) := by
  induction ds generalizing acc with
  | nil => exact leadingDigits_stops hrest acc
  | cons d ds ih =>
    have hd := hds d (List.mem_cons_self ..)
    have hunderscore : Nat.digitChar d ≠ '_' := fun h => digitChar_notMem hd (by simp [h])
    rw [List.map_cons, List.cons_append, leadingDigits, digit?_digitChar hd]
    · simp only
      rw [ih (fun e he => hds e (List.mem_cons_of_mem _ he)), List.reverse_cons, List.append_assoc]
      rfl
    · exact fun _ _ _ _ _ h _ => hunderscore h

theorem ofDigits_append (as bs : List ℕ) :
    ofDigits (as ++ bs) = ofDigits as + 10 ^ as.length * ofDigits bs := by
  induction as with
  | nil => simp [ofDigits]
  | cons a as ih =>
    have hcons (cs : List ℕ) : ofDigits (a :: cs) = 10 * ofDigits cs + a := rfl
    rw [List.cons_append, hcons, ih, hcons, List.length_cons, pow_succ]
    ring

/-- A natural number is spelled with digits. -/
theorem toDigits_spells (n : ℕ) :
    ∃ ds : List ℕ, (∀ d ∈ ds, d < 10) ∧ ds ≠ [] ∧ Nat.toDigits 10 n = ds.map Nat.digitChar ∧
      ofDigits ds.reverse = n := by
  induction n using Nat.strongRecOn with
  | ind n ih =>
    rw [Nat.toDigits_eq_if (by norm_num)]
    split_ifs with h
    · exact ⟨[n], by simpa using h, by simp, by simp, by simp [ofDigits]⟩
    · obtain ⟨ds, hds, hne, hchars, hvalue⟩ := ih (n / 10) (by omega)
      have hlast : n % 10 < 10 := Nat.mod_lt _ (by norm_num)
      refine ⟨ds ++ [n % 10], ?_, by simp, by simp [hchars], ?_⟩
      · intro d hd
        obtain hd | rfl := by simpa using hd
        · exact hds d hd
        · exact hlast
      · rw [List.reverse_append]
        show 10 * ofDigits ds.reverse + n % 10 = n
        rw [hvalue]
        omega

/-- Zeros in front do not change what is spelled. -/
theorem padded_spells (width n : ℕ) :
    ∃ ds : List ℕ, (∀ d ∈ ds, d < 10) ∧ width ≤ ds.length ∧ ds ≠ [] ∧
      padded width n = ds.map Nat.digitChar ∧ ofDigits ds.reverse = n := by
  obtain ⟨ds, hds, hne, hchars, hvalue⟩ := toDigits_spells n
  have hzeros (k : ℕ) : ofDigits (List.replicate k 0) = 0 := by
    induction k with
    | zero => rfl
    | succ k ih =>
      show 10 * ofDigits (List.replicate k 0) + 0 = 0
      rw [ih]
  refine ⟨List.replicate (width - ds.length) 0 ++ ds, ?_, ?_, by simp [hne], ?_, ?_⟩
  · intro d hd
    obtain hd | hd := List.mem_append.mp hd
    · rw [List.eq_of_mem_replicate hd]
      norm_num
    · exact hds d hd
  · rw [List.length_append, List.length_replicate]
    omega
  · show List.replicate (width - (Nat.toDigits 10 n).length) '0' ++ Nat.toDigits 10 n = _
    rw [hchars, List.length_map, List.map_append, List.map_replicate]
    rfl
  · rw [List.reverse_append, ofDigits_append, List.reverse_replicate, hzeros, hvalue, mul_zero,
      add_zero]

/-- **Digits with a point** spell a number in units of the last of them. -/
theorem pointed_spells (places n : ℕ) :
    ∃ whole fraction : List ℕ, (∀ d ∈ whole, d < 10) ∧ (∀ d ∈ fraction, d < 10) ∧ whole ≠ [] ∧
      fraction.length = places ∧ ofDigits (fraction.reverse ++ whole.reverse) = n ∧
      pointed places n = whole.map Nat.digitChar ++
        if places = 0 then [] else '.' :: fraction.map Nat.digitChar := by
  obtain ⟨ds, hds, hlength, -, hchars, hvalue⟩ := padded_spells (places + 1) n
  refine ⟨ds.take (ds.length - places), ds.drop (ds.length - places),
    fun d hd => hds d (List.mem_of_mem_take hd), fun d hd => hds d (List.mem_of_mem_drop hd), ?_,
    ?_, ?_, ?_⟩
  · rw [← List.length_pos_iff, List.length_take]
    omega
  · rw [List.length_drop]
    omega
  · rw [← List.reverse_append, List.take_append_drop, hvalue]
  · unfold pointed
    simp only
    rw [hchars, List.length_map]
    split_ifs with hplaces
    · rw [hplaces, Nat.sub_zero, List.take_length, List.append_nil]
    · rw [List.map_take, List.map_drop]

theorem toList_toString_natCast (n : ℕ) : (toString (n : ℤ)).toList = Nat.toDigits 10 n := by
  simp [Int.toString_eq_repr, Int.repr_eq_if, Nat.repr_eq_ofList_toDigits]

theorem toList_toString_neg {n : ℕ} (h : 0 < n) :
    (toString (-n : ℤ)).toList = '-' :: Nat.toDigits 10 n := by
  simp [Int.toString_eq_repr, Int.repr_eq_if, Nat.repr_eq_ofList_toDigits, h.ne']

/-- Digits have no sign in front. -/
theorem signed_map {ds : List ℕ} (hds : ∀ d ∈ ds, d < 10) (hne : ds ≠ []) (rest : List Char) :
    signed (ds.map Nat.digitChar ++ rest) = (false, ds.map Nat.digitChar ++ rest) := by
  cases ds with
  | nil => exact absurd rfl hne
  | cons d ds =>
    have hd := hds d (List.mem_cons_self ..)
    have hminus : Nat.digitChar d ≠ '-' := fun h => digitChar_notMem hd (by simp [h])
    have hplus : Nat.digitChar d ≠ '+' := fun h => digitChar_notMem hd (by simp [h])
    rw [List.map_cons, List.cons_append, signed]
    · exact fun _ h => hminus (List.cons.inj h).1
    · exact fun _ h => hplus (List.cons.inj h).1

/-- A natural number is read as it is written. -/
theorem leadingDigits_toDigits (n : ℕ) {rest : List Char} (hrest : Stops rest) :
    ∃ ds, leadingDigits (Nat.toDigits 10 n ++ rest) [] = (ds, rest) ∧ ds.isEmpty = false ∧
      ofDigits ds = n := by
  obtain ⟨ds, hds, hne, hchars, hvalue⟩ := toDigits_spells n
  refine ⟨ds.reverse, ?_, by simp [hne], hvalue⟩
  rw [hchars, leadingDigits_map hds hrest, List.append_nil]

theorem signed_toDigits (n : ℕ) (rest : List Char) :
    signed (Nat.toDigits 10 n ++ rest) = (false, Nat.toDigits 10 n ++ rest) := by
  obtain ⟨ds, hds, hne, hchars, -⟩ := toDigits_spells n
  rw [hchars, signed_map hds hne]

/-- **A power of ten is read as it is written.** -/
theorem power?_toString (e : ℤ) : power? ('e' :: (toString e).toList) = some e := by
  have hread {cs : List Char} {negative : Bool} {n : ℕ}
      (h : signed cs = (negative, Nat.toDigits 10 n)) :
      power? ('e' :: cs) = some (if negative then -(n : ℤ) else n) := by
    obtain ⟨ds, hdigits, hne, hvalue⟩ := leadingDigits_toDigits n stops_nil
    rw [List.append_nil] at hdigits
    simp only [power?, h, hdigits, hne, hvalue]
    rfl
  obtain ⟨n, rfl | rfl⟩ := e.eq_nat_or_neg
  · rw [toList_toString_natCast]
    have hsigned := signed_toDigits n []
    rw [List.append_nil] at hsigned
    exact hread hsigned
  · obtain rfl | hn := n.eq_zero_or_pos
    · rfl
    · rw [toList_toString_neg hn]
      exact hread (show signed ('-' :: Nat.toDigits 10 n) = (true, Nat.toDigits 10 n) from rfl)

end Text

/-! ### How many digits are kept -/

namespace Uncertainty

/-- At least one digit is asked for. -/
theorem one_le_digits {α : Type} {p : Precision} {digits : ℕ}
    (h : p.digits (α := α) = .ok digits) : 1 ≤ digits := by
  have hmax (n : Int) : 1 ≤ (max 1 n).toNat := by omega
  cases p with
  | auto =>
    obtain rfl := Except.ok.inj h
    exact Nat.le_refl 1
  | whole n =>
    obtain rfl := Except.ok.inj h
    exact hmax n
  | real x =>
    simp only [Precision.digits] at h
    cases hn : Double.integerPart (α := α) x with
    | error f =>
      rw [hn] at h
      cases h
    | ok n =>
      rw [hn] at h
      obtain rfl := Except.ok.inj h
      exact hmax n
  | text s =>
    simp only [Precision.digits] at h
    cases hn : Text.integer? s with
    | none =>
      rw [hn] at h
      cases h
    | some n =>
      rw [hn] at h
      obtain rfl := Except.ok.inj h
      exact hmax n

/-- One or two digits are kept of an error if no number is asked for. -/
theorem autoDigits_bounds {β : Type} [DecimalScale β] {err : β} {n : ℕ}
    (h : autoDigits err = some n) : 1 ≤ n ∧ n ≤ 2 := by
  obtain ⟨m, -, rfl⟩ := Option.map_eq_some_iff.mp h
  split <;> omega

/-- At least one digit is kept. -/
theorem one_le_of_keptDigits {α β : Type} [DecimalScale β] {err : β} {p : Precision}
    {digits : ℕ} (h : keptDigits (α := α) err p = .ok digits) : 1 ≤ digits := by
  unfold keptDigits at h
  split at h
  · split at h
    · obtain rfl := Except.ok.inj h
      exact Nat.le_refl 1
    · cases hn : autoDigits err with
      | none =>
        rw [hn] at h
        cases h
      | some n =>
        rw [hn] at h
        obtain rfl := Except.ok.inj h
        exact (autoDigits_bounds hn).1
  · exact one_le_digits h

end Uncertainty

/-! ### Exact numbers -/

namespace Rational

/-- A rational number with so many digits after the point. -/
def fixedText (places : ℕ) (x : ℚ) : String :=
  String.ofList (Text.sign (decide (x < 0)) ++
    Text.pointed places (nearest (x * 10 ^ places)).natAbs)

/-- A rational number to so many significant digits. -/
def generalText (digits : ℕ) (x : ℚ) : String :=
  let last := Int.log 10 |x| - digits + 1
  String.ofList (Text.sign (decide (x < 0)) ++
    Text.generalDigits digits ⟨(nearest (x * 10 ^ (-last))).natAbs, last⟩)

end Rational

/-- Rational numbers are scaled without rounding. -/
instance : DecimalScale ℚ where
  decade x := Int.log 10 x
  scale x k := some (x * 10 ^ k)
  mantissa x k := some (x / 10 ^ k)
  scaleInt n k := some (n * 10 ^ k)
  nearest x := some (Rational.nearest x)
  leadsWithOne x := decide (1 ≤ x + 1 / 10 ^ 12 ∧ x + 1 / 10 ^ 12 < 2)
  isZero x := decide (x = 0)
  lt x y := decide (x < y)
  abs x := |x|
  isNaN _ := false
  isInf _ := false
  fixedText := Rational.fixedText
  generalText := Rational.generalText

namespace Uncertainty

/-- The digits in front of a text and those behind a point that follows, in each of which the
last one comes first. -/
def pointedDigits (cs : List Char) : List ℕ × List ℕ × List Char :=
  match Text.leadingDigits cs [] with
  | (whole, '.' :: rest) => (whole, Text.leadingDigits rest [])
  | (whole, rest) => (whole, [], rest)

/-- The value and the error that a text shows: the digits in parentheses count units of the last
digit in front of them, and a power of ten behind them multiplies both. -/
def decode (s : String) : Option (ℚ × ℚ) :=
  let (negative, cs) := Text.signed s.toList
  match pointedDigits cs with
  | (whole, fraction, '(' :: rest) =>
    match Text.leadingDigits rest [] with
    | (error, ')' :: rest) =>
      if whole.isEmpty || error.isEmpty then none
      else (Text.power? rest).map fun e =>
        let unit : ℚ := 10 ^ (e - (fraction.length : ℤ))
        let value : ℚ := Text.ofDigits (fraction ++ whole)
        ((if negative then -value else value) * unit, Text.ofDigits error * unit)
    | _ => none
  | _ => none

/-- **A text is read as it is written**: a value with digits behind the point, the error in units
of the last of them, and a power of ten. -/
theorem decode_spelled (negative : Bool) (places n m : ℕ) {mark : List Char} {e : ℤ}
    (hmark : Text.power? mark = some e) :
    decode (String.ofList (Text.sign negative ++ (Text.pointed places n ++
        '(' :: (Nat.toDigits 10 m ++ ')' :: mark)))) =
      some ((if negative then -(n : ℚ) else n) * 10 ^ (e - places),
        (m : ℚ) * 10 ^ (e - places)) := by
  obtain ⟨whole, fraction, hwhole, hfraction, hne, hplaces, hvalue, hchars⟩ :=
    Text.pointed_spells places n
  have hclosing : Text.Stops (')' :: mark) := Text.stops_cons (by decide) (by decide)
  obtain ⟨error, herror, hdigits, hcount⟩ := Text.leadingDigits_toDigits m hclosing
  have hstops : Text.Stops ('(' :: (Nat.toDigits 10 m ++ ')' :: mark)) :=
    Text.stops_cons (by decide) (by decide)
  generalize hrest : '(' :: (Nat.toDigits 10 m ++ ')' :: mark) = rest at hstops ⊢
  have hsigned : Text.signed (Text.sign negative ++ (Text.pointed places n ++ rest)) =
      (negative, Text.pointed places n ++ rest) := by
    cases negative with
    | true => rfl
    | false =>
      rw [hchars, List.append_assoc]
      exact Text.signed_map hwhole hne _
  have hpointed : pointedDigits (Text.pointed places n ++ rest) =
      (whole.reverse, fraction.reverse, rest) := by
    rw [pointedDigits, hchars]
    obtain rfl | hpoint := eq_or_ne places 0
    · obtain rfl := List.length_eq_zero_iff.mp hplaces
      rw [if_pos rfl, List.append_nil, Text.leadingDigits_map hwhole hstops, List.append_nil,
        ← hrest]
      rfl
    · have hpoint' : Text.Stops ('.' :: (fraction.map Nat.digitChar ++ rest)) :=
        Text.stops_cons (by decide) (by decide)
      rw [if_neg hpoint, List.append_assoc, List.cons_append, Text.leadingDigits_map hwhole hpoint',
        List.append_nil]
      show (whole.reverse, Text.leadingDigits (fraction.map Nat.digitChar ++ rest) []) = _
      rw [Text.leadingDigits_map hfraction hstops, List.append_nil]
  have hnonempty : whole.reverse.isEmpty = false := by simp [hne]
  simp only [decode, String.toList_ofList, hsigned, hpointed]
  subst hrest
  simp only [herror, hnonempty, hdigits, hmark, hvalue, hcount, List.length_reverse, hplaces]
  rfl

/-- The text of an integer with so many of its digits behind the point. -/
theorem fixedText_shifted (n : ℤ) (places : ℕ) :
    Rational.fixedText places (n * 10 ^ (-(places : ℤ))) =
      String.ofList (Text.sign (decide (n < 0)) ++ Text.pointed places n.natAbs) := by
  have hten : (0 : ℚ) < 10 ^ (-(places : ℤ)) := zpow_pos (by norm_num) _
  have hsign : (n : ℚ) * 10 ^ (-(places : ℤ)) < 0 ↔ n < 0 := by
    rw [lt_iff_lt_of_le_iff_le (mul_nonneg_iff_of_pos_right hten), Int.cast_lt_zero]
  have hback : (n : ℚ) * 10 ^ (-(places : ℤ)) * 10 ^ places = n := by
    rw [zpow_neg, zpow_natCast, inv_mul_cancel_right₀ (by positivity)]
  rw [Rational.fixedText, hback, Rational.nearest_intCast, decide_eq_decide.mpr hsign]

/-- **A form says what it is made of**: an integer and an error in units of one place. -/
theorem decode_form {f : Form ℚ} {n : ℤ} {m : ℕ} (hvalue : f.value = n * 10 ^ (-(f.places : ℤ)))
    (herror : f.error = m) :
    decode f.text = some ((n : ℚ) * 10 ^ (f.exponent.getD 0 - (f.places : ℤ)),
      (m : ℚ) * 10 ^ (f.exponent.getD 0 - (f.places : ℤ))) := by
  have hsign : (if decide (n < 0) then -(n.natAbs : ℚ) else n.natAbs) = n := by
    rw [Nat.cast_natAbs]
    split_ifs with hneg
    · rw [abs_of_neg (of_decide_eq_true hneg), Int.cast_neg, neg_neg]
    · rw [abs_of_nonneg (not_lt.mp (by simpa using hneg))]
  have htext (mark : String) {e : ℤ} (hmark : Text.power? mark.toList = some e) :
      decode (DecimalScale.fixedText f.places f.value ++ "(" ++ toString f.error ++ ")" ++ mark) =
        some ((n : ℚ) * 10 ^ (e - (f.places : ℤ)), (m : ℚ) * 10 ^ (e - (f.places : ℤ))) := by
    have hspelled := decode_spelled (decide (n < 0)) f.places n.natAbs m hmark
    rw [hsign] at hspelled
    rw [← hspelled]
    congr 1
    apply String.toList_injective
    have hfixed : DecimalScale.fixedText f.places f.value = Rational.fixedText f.places f.value :=
      rfl
    rw [hfixed, hvalue, fixedText_shifted]
    simp only [String.toList_append, String.toList_ofList, herror, Text.toList_toString_natCast,
      List.append_assoc]
    rfl
  cases hexponent : f.exponent with
  | none =>
    have hplain := htext "" (e := 0) rfl
    rw [Form.text, hexponent]
    exact hplain
  | some e =>
    have hmarked := htext ("e" ++ toString e) (e := e) (by
      rw [String.toList_append]
      exact Text.power?_toString e)
    rw [Form.text, hexponent]
    exact hmarked

/-- The form with an exponent says the integers in units of the last place. -/
theorem decode_exponentForm {r : Rounded} (herror : 0 ≤ r.error) (hlead : r.last ≤ r.lead) :
    ∃ f : Form ℚ, exponentForm r = some f ∧
      decode f.text = some ((r.value : ℚ) * 10 ^ r.last, (r.error : ℚ) * 10 ^ r.last) := by
  have hplaces : ((r.lead - r.last).toNat : ℤ) = r.lead - r.last := Int.toNat_of_nonneg (by omega)
  refine ⟨_, rfl, ?_⟩
  rw [decode_form (n := r.value) (m := r.error.toNat)]
  · simp only [Option.getD_some, hplaces, sub_sub_cancel]
    rw [← Int.cast_natCast r.error.toNat, Int.toNat_of_nonneg herror]
  · simp only [hplaces]
  · exact (Int.toNat_of_nonneg herror).symm

/-- The form without an exponent says the same: behind the point it shows the digits down to the
last place, and in front of it the zeros up to the point. -/
theorem decode_fixedForm {r : Rounded} (herror : 0 ≤ r.error) :
    ∃ f : Form ℚ, fixedForm r = some f ∧
      decode f.text = some ((r.value : ℚ) * 10 ^ r.last, (r.error : ℚ) * 10 ^ r.last) := by
  have hsplit : (10 : ℚ) ^ r.last = 10 ^ r.last.toNat * 10 ^ (-((-r.last).toNat : ℤ)) := by
    rw [← zpow_natCast, ← zpow_add₀ (by norm_num)]
    congr 1
    omega
  refine ⟨_, rfl, ?_⟩
  rw [decode_form (n := r.value * 10 ^ r.last.toNat) (m := r.error.toNat * 10 ^ r.last.toNat)]
  · simp only [Option.getD_none, zero_sub]
    rw [hsplit]
    push_cast
    rw [← Int.cast_natCast r.error.toNat, Int.toNat_of_nonneg herror, mul_assoc, mul_assoc]
  · show (r.value : ℚ) * 10 ^ r.last = _
    rw [hsplit]
    push_cast
    rw [mul_assoc]
  · push_cast
    rw [Int.toNat_of_nonneg herror]
    rfl

/-- Rounding to a place misses by at most half a unit. -/
theorem abs_nearest_sub_le (x : ℚ) (last : ℤ) :
    |(Rational.nearest (x * 10 ^ (-last)) : ℚ) * 10 ^ last - x| ≤ 10 ^ last / 2 := by
  have hten : (0 : ℚ) < 10 ^ last := zpow_pos (by norm_num) _
  have hnear := (Rational.nearest_isNearest (x * 10 ^ (-last))).abs_sub_le
  have hsplit : (Rational.nearest (x * 10 ^ (-last)) : ℚ) * 10 ^ last - x =
      -((x * 10 ^ (-last) - Rational.nearest (x * 10 ^ (-last))) * 10 ^ last) := by
    rw [sub_mul, mul_assoc, ← zpow_add₀ (by norm_num), neg_add_cancel, zpow_zero, mul_one, neg_sub]
  rw [hsplit, abs_neg, abs_mul, abs_of_pos hten]
  calc |x * 10 ^ (-last) - Rational.nearest (x * 10 ^ (-last))| * 10 ^ last ≤ 1 / 2 * 10 ^ last :=
        mul_le_mul_of_nonneg_right hnear hten.le
    _ = 10 ^ last / 2 := by ring

theorem floor_logb_eq {q : ℚ} (hq : 0 < q) : ⌊Real.logb 10 (q : ℝ)⌋ = Int.log 10 q := by
  have hq' : (0 : ℝ) < q := by exact_mod_cast hq
  have hfloor := Real.floor_logb_natCast (b := 10) hq'.le
  rw [Nat.cast_ofNat] at hfloor
  rw [hfloor]
  have hcast (k : ℤ) : ((10 : ℕ) : ℚ) ^ k ≤ q ↔ ((10 : ℕ) : ℝ) ^ k ≤ q := by
    rw [← Rat.cast_le (K := ℝ), Rat.cast_zpow, Rat.cast_natCast]
  apply le_antisymm
  · exact (Int.zpow_le_iff_le_log (by norm_num) hq).mp
      ((hcast _).mpr (Int.zpow_log_le_self (by norm_num) hq'))
  · exact (Int.zpow_le_iff_le_log (by norm_num) hq').mp
      ((hcast _).mp (Int.zpow_log_le_self (by norm_num) hq))

/-- The text of exact numbers, where the error is not zero. -/
theorem text_eq_shorter {α : Type} (x : ℚ) {err : ℚ} (herr : err ≠ 0) {p : Precision} {digits : ℕ}
    (hdigits : keptDigits (α := α) |err| p = .ok digits) {s : String}
    (htext : formsText x |err| digits = some s) : text (α := α) x err p = .ok s := by
  have hzero : DecimalScale.isZero |err| = false := decide_eq_false (abs_ne_zero.mpr herr)
  have hbad : (DecimalScale.isNaN x || DecimalScale.isNaN |err|) = false ∧
      (DecimalScale.isInf x || DecimalScale.isInf |err|) = false := ⟨rfl, rfl⟩
  have habs : DecimalScale.abs err = |err| := rfl
  simp only [text, habs, hbad, hdigits, hzero, ok_bind, htext, Bool.false_eq_true, if_false]
  rfl

/-- **Both forms of a text say the same**: the value and the error, rounded to the last of so many
digits of the error. -/
theorem text_decodes {α : Type} (x : ℚ) {err : ℚ} (herr : err ≠ 0) {p : Precision} {digits : ℕ}
    (hdigits : keptDigits (α := α) |err| p = .ok digits) :
    ∃ (r : Rounded) (fixed exponential : Form ℚ) (v e : ℚ),
      rounded x |err| digits = some r ∧ fixedForm r = some fixed ∧
      exponentForm r = some exponential ∧
      text (α := α) x err p = .ok (shorter fixed.text exponential.text) ∧
      decode fixed.text = some (v, e) ∧ decode exponential.text = some (v, e) ∧
      decode (shorter fixed.text exponential.text) = some (v, e) ∧
      r.last = ⌊Real.logb 10 |(err : ℝ)|⌋ - digits + 1 ∧
      v = r.value * 10 ^ r.last ∧ e = r.error * 10 ^ r.last ∧
      |v - x| ≤ 10 ^ r.last / 2 ∧ |e - (|err|)| ≤ 10 ^ r.last / 2 := by
  have hpos : 0 < |err| := abs_pos.mpr herr
  have hone := one_le_of_keptDigits hdigits
  let last : ℤ := Int.log 10 |err| - digits + 1
  let lead : ℤ :=
    if decide (x = 0) || decide (|x| < |err|) then Int.log 10 |err| else Int.log 10 |x|
  let r : Rounded := ⟨Rational.nearest (x * 10 ^ (-last)), Rational.nearest (|err| * 10 ^ (-last)),
    last, lead⟩
  have hrounded : rounded x |err| digits = some r := rfl
  have herror : 0 ≤ r.error :=
    Rational.nearest_nonneg (mul_nonneg hpos.le (zpow_pos (by norm_num) _).le)
  have hlead : r.last ≤ r.lead := by
    have hle : Int.log 10 |err| ≤ lead := by
      simp only [lead]
      split_ifs with h
      · exact le_rfl
      · refine Int.log_mono_right hpos (not_lt.mp fun hlt => h ?_)
        rw [decide_eq_true hlt, Bool.or_true]
    show Int.log 10 |err| - digits + 1 ≤ lead
    omega
  obtain ⟨fixed, hfixed, hsays⟩ := decode_fixedForm herror
  obtain ⟨exponential, hexponential, hsays'⟩ := decode_exponentForm herror hlead
  refine ⟨r, fixed, exponential, _, _, hrounded, hfixed, hexponential, ?_, hsays, hsays', ?_, ?_,
    rfl, rfl, abs_nearest_sub_le x last, abs_nearest_sub_le |err| last⟩
  · refine text_eq_shorter x herr hdigits ?_
    rw [formsText, hrounded]
    simp only [Option.bind_eq_bind, Option.bind_some, hfixed, hexponential]
    rfl
  · unfold shorter
    split_ifs
    · exact hsays
    · exact hsays'
  · have hcast : |(err : ℝ)| = ((|err| : ℚ) : ℝ) := (Rat.cast_abs err).symm
    rw [hcast, floor_logb_eq hpos]

/-- A third with an error of an eighth is shown as three tenths and one. -/
theorem text_decodes_third :
    (-1 / 8 : ℚ) ≠ 0 ∧ keptDigits (α := Empty) |(-1 / 8 : ℚ)| (.whole 1) = .ok 1 ∧
      text (α := Empty) (1 / 3 : ℚ) (-1 / 8) (.whole 1) = .ok "0.3(1)" ∧
      ∃ v e : ℚ, decode "0.3(1)" = some (v, e) ∧ |v - 1 / 3| ≤ 10 ^ (-1 : ℤ) / 2 ∧
        |e - (|(-1 / 8)|)| ≤ 10 ^ (-1 : ℤ) / 2 := by
  have herr : (-1 / 8 : ℚ) ≠ 0 := by norm_num
  have hshown : text (α := Empty) (1 / 3 : ℚ) (-1 / 8) (.whole 1) = .ok "0.3(1)" :=
    text_eq_shorter (1 / 3) herr rfl (by decide +kernel)
  have hplace : rounded (1 / 3 : ℚ) |-1 / 8| 1 = some ⟨3, 1, -1, -1⟩ := by decide +kernel
  obtain ⟨r, fixed, exponential, v, e, hrounded, -, -, htext, -, -, hsays, -, -, -, hvalue,
    herror⟩ := text_decodes (α := Empty) (1 / 3) herr (p := .whole 1) rfl
  obtain rfl := Option.some.inj (hplace.symm.trans hrounded)
  have hsame := Except.ok.inj (htext.symm.trans hshown)
  exact ⟨herr, rfl, hshown, v, e, hsame ▸ hsays, hvalue, herror⟩

end Uncertainty

end DensityAlgebra
