/-
# Real numbers as scalars

Real numbers with the functions of analysis are scalars without rounding. Sums do not depend
on how they are grouped, and powers are the same for numbers alone and in columns. No real
number is undefined or infinite; comparisons are decided, though not computed.

The sample session makes a decay density without daughter masses, of two bins per axis: three of
the four grid points lie in the Dalitz region. The amplitude is a constant and a resonance in m12
that takes away from it, each with a coefficient.

Key definitions: `Reals.parts`, `Reals.calls`, `Reals.decay`.
Key theorems: `Reals.sum_eq`, `Reals.powersAgree`, `Reals.contains_space`,
`Reals.selfProduct_amplitudeAt`, `Reals.after_calls`, `Reals.fresh_calls`,
`Reals.pointwise_calls`.
-/
import Mathlib.Analysis.SpecialFunctions.Pow.Real
import Mathlib.Analysis.SpecialFunctions.Complex.Arg
import DensityAlgebra.Proofs.Likelihoods
import DensityAlgebra.Proofs.Pointwise

namespace DensityAlgebra

noncomputable instance : Scalar ℝ where
  ofNat n := n
  pow x y := x ^ y
  exp := Real.exp
  log := Real.log
  sin := Real.sin
  cos := Real.cos
  tan := Real.tan
  sqrt := Real.sqrt
  abs x := |x|
  hypot x y := Real.sqrt (x * x + y * y)
  angle x y := Complex.arg ⟨x, y⟩
  lt x y := decide (x < y)
  le x y := decide (x ≤ y)
  eq x y := decide (x = y)
  isNaN _ := false
  isFinite _ := true

namespace Reals

variable {x y : ℝ}

/-! ### Exact arithmetic -/

theorem lt_iff : Scalar.lt x y = true ↔ x < y := decide_eq_true_iff

theorem le_iff : Scalar.le x y = true ↔ x ≤ y := decide_eq_true_iff

theorem eq_iff : Scalar.eq x y = true ↔ x = y := decide_eq_true_iff

theorem zero_eq : (0.0 : ℝ) = 0 := by norm_num

theorem two_eq : (2.0 : ℝ) = 2 := by norm_num

theorem sqrt_eq (x : ℝ) : Scalar.sqrt x = Real.sqrt x := rfl

theorem abs_eq (x : ℝ) : Scalar.abs x = |x| := rfl

theorem square_eq (x : ℝ) : Scalar.square x = x * x := by
  show x ^ (2.0 : ℝ) = x * x
  rw [two_eq, Real.rpow_two, sq]

theorem square_eq_sq (x : ℝ) : Scalar.square x = x ^ 2 := (square_eq x).trans (pow_two x).symm

theorem square_eq_selfProduct : (Scalar.square : ℝ → ℝ) = Scalar.selfProduct := funext square_eq

theorem ofInt_eq (n : ℤ) : (Scalar.ofInt n : ℝ) = n := by
  cases n with
  | ofNat k => exact (Int.cast_natCast k).symm
  | negSucc k => exact (Int.cast_negSucc k).symm

theorem max_eq (x y : ℝ) : Scalar.max x y = max x y := by
  show (if (false || decide (y < x)) = true then x else y) = _
  simp only [Bool.false_or, decide_eq_true_eq]
  rcases le_or_gt x y with h | h
  · rw [if_neg (not_lt.mpr h), max_eq_right h]
  · rw [if_pos h, max_eq_left h.le]

theorem min_eq (x y : ℝ) : Scalar.min x y = min x y := by
  show (if (false || decide (x < y)) = true then x else y) = _
  simp only [Bool.false_or, decide_eq_true_eq]
  rcases le_or_gt y x with h | h
  · rw [if_neg (not_lt.mpr h), min_eq_right h]
  · rw [if_pos h, min_eq_left h.le]

theorem exactSums : Scalar.ExactSums ℝ where
  assoc := add_assoc
  comm := add_comm
  zero x := by norm_num
  neg := neg_add

/-- **A sum in blocks is the sum.** -/
theorem sum_eq (xs : List ℝ) : Scalar.sum xs = xs.sum := by
  rw [Scalar.sum_eq_plainSum exactSums]
  unfold Scalar.plainSum List.sum
  norm_num

/-- **Powers agree**: what is computed as a product, a root or a quotient is the power. -/
theorem powersAgree : Scalar.PowersAgree ℝ where
  square := square_eq
  shared y x := by
    unfold Scalar.sharedPower
    simp only [eq_iff]
    show _ = x ^ y
    split_ifs with h2 h1 hhalf h0 hneg
    · rw [h2, ← square_eq_selfProduct]
      rfl
    · rw [h1]
      norm_num
    · rw [hhalf, sqrt_eq, Real.sqrt_eq_rpow]
      norm_num
    · rw [h0]
      norm_num
    · rw [hneg]
      norm_num [Real.rpow_neg_one]
    · rfl

/-! ### A sample session -/

/-- A decay into three daughters without mass. -/
def space : PhaseSpace ℝ := ⟨1, 0, 0, 0⟩

theorem sqMin_space (i : Pair) : space.sqMin i = 0 := by
  cases i <;> simp [PhaseSpace.sqMin, PhaseSpace.pairMass, space, square_eq]

theorem sqMax_space (i : Pair) : space.sqMax i = 1 := by
  cases i <;> simp [PhaseSpace.sqMax, PhaseSpace.remainingMass, space, square_eq]

theorem bins_space (i : Pair) : Grid.bins (space.sqMin i) (space.sqMax i) 2 =
    (.ok ([1 / 4, 3 / 4], 1 / 2) : Except (Fault ℝ) _) := by
  have hfew : ¬ Grid.tooMany ≤ 2 := by decide
  have htwo : (Scalar.ofInt 2 : ℝ) = 2 := by
    rw [ofInt_eq]
    exact Int.cast_ofNat 2
  have hfinite : (!Scalar.isFinite (2 : ℝ)) = false := rfl
  have hrange : List.range (Int.toNat 2) = [0, 1] := rfl
  have hzero : (Scalar.ofNat 0 : ℝ) = 0 := Nat.cast_zero
  have hone : (Scalar.ofNat 1 : ℝ) = 1 := Nat.cast_one
  rw [sqMin_space, sqMax_space]
  simp only [Grid.bins, hfew, htwo, hfinite, Grid.midpoints, hrange]
  norm_num [hzero, hone]

theorem third_space (x y : ℝ) : space.third x y = 1 - x - y := by
  norm_num [PhaseSpace.third, PhaseSpace.sqSum, space, square_eq]

/-- The momenta of particles without mass are their energies. -/
theorem limits_space {x : ℝ} (hpos : 0 < x) (hle : x ≤ 1) :
    space.limits Scalar.selfProduct x = (0, 1 - x) := by
  have hroot : 0 < √x := Real.sqrt_pos.mpr hpos
  set e2 : ℝ := x / (2 * √x) with he2
  set e3 : ℝ := (1 - x) / (2 * √x) with he3
  have hmomentum : ∀ e : ℝ, 0 ≤ e → √(max (e * e) 0) = e := fun e he => by
    rw [max_eq_left (mul_self_nonneg e), Real.sqrt_mul_self he]
  have hsecond : (x - 0 * 0 + 0 * 0) / (2.0 * √x) = e2 := by
    rw [he2]
    norm_num
  have hthird : ((1 : ℝ) * 1 - x - 0 * 0) / (2.0 * √x) = e3 := by
    rw [he3]
    norm_num
  have hproduct : 4 * (e2 * e3) = 1 - x := by
    rw [he2, he3]
    field_simp
    rw [Real.sq_sqrt hpos.le]
    ring
  have he2' : 0 ≤ e2 := by positivity
  have he3' : 0 ≤ e3 := div_nonneg (by linarith) (by positivity)
  simp only [PhaseSpace.limits, PhaseSpace.sqMother, space, square_eq, max_eq, sqrt_eq,
    Scalar.selfProduct, hsecond, hthird]
  norm_num [hmomentum, he2', he3']
  linarith

theorem contains_space {x y : ℝ} (hpos : 0 < x) (hle : x ≤ 1) :
    space.contains Scalar.selfProduct x y (space.third x y) = true ↔ 0 ≤ 1 - x - y ∧ 0 ≤ y := by
  have hadmits : space.admits x = true := by
    simp only [PhaseSpace.admits, sqMin_space, sqMax_space, Bool.and_eq_true, le_iff, lt_iff]
    norm_num
    exact ⟨⟨hpos.le, hle⟩, hpos⟩
  have hsum : Scalar.le (Scalar.abs (x + y + (1 - x - y) - space.sqSum))
      (1e-9 * space.sqSum) = true := by
    rw [le_iff, abs_eq]
    norm_num [PhaseSpace.sqSum, space, square_eq]
  simp only [third_space, PhaseSpace.contains, PhaseSpace.limits?, hadmits, limits_space hpos hle,
    if_true, hsum, Bool.true_and, Bool.and_eq_true, le_iff]
  exact and_congr_right fun _ => ⟨fun h => by linarith, fun h => by linarith⟩

/-- Of the four points of the grid one lies outside. -/
theorem insidePoints_space : Decay.insidePoints space [1 / 4, 3 / 4] [1 / 4, 3 / 4] =
    [(1 / 4, 1 / 4, 1 / 2), (1 / 4, 3 / 4, 0), (3 / 4, 1 / 4, 0)] := by
  have hinside : ∀ x ∈ [(1 / 4 : ℝ), 3 / 4], ∀ y ∈ [(1 / 4 : ℝ), 3 / 4],
      space.contains Scalar.selfProduct x y (space.third x y) = decide (x + y ≤ 1) := by
    intro x hx y hy
    have hbetween : ∀ z ∈ [(1 / 4 : ℝ), 3 / 4], 0 < z ∧ z ≤ 1 := by norm_num
    rw [Bool.eq_iff_iff, contains_space (hbetween x hx).1 (hbetween x hx).2, decide_eq_true_iff]
    exact ⟨fun h => by linarith, fun h => ⟨by linarith, (hbetween y hy).1.le⟩⟩
  simp only [List.forall_mem_cons, List.not_mem_nil, false_imp_iff, implies_true, and_true]
    at hinside
  obtain ⟨⟨h11, h12⟩, h21, h22⟩ := hinside
  simp only [Decay.insidePoints, List.flatMap_cons, List.flatMap_nil, List.map_cons, List.map_nil,
    List.cons_append, List.nil_append, List.append_nil, List.filter_cons, List.filter_nil,
    h11, h12, h21, h22]
  norm_num [third_space]

/-- A constant and a resonance, each with a coefficient. -/
noncomputable def amplitude (r flat resonance : RegistryId) : Amplitude ℝ :=
  .sum r (.cons "re1" "im1" (.flat flat (.ofReal 1))
    (.cons "re2" "im2" (.resonance resonance "m" "g" .of12) .nil))

/-- The decay density that the session makes. -/
noncomputable def decay : Decay ℝ :=
  ⟨⟨"Decay3Body", ⟨8⟩, ⟨9⟩⟩, amplitude ⟨5⟩ ⟨6⟩ ⟨7⟩, space, "m12", "m13", "m23", [], ⟨0⟩, ⟨0⟩⟩

/-- The parameters of the density are as they were made. -/
structure Initial (t : Store ℝ) : Prop where
  constant : Amplitude.coefficient t ⟨5⟩ "re1" "im1" = .ok ⟨1, 0⟩
  resonance : Amplitude.coefficient t ⟨5⟩ "re2" "im2" = .ok ⟨0, 1⟩
  mass : t.lookup ⟨7⟩ "m" = .ok (.scalar 1)
  width : t.lookup ⟨7⟩ "g" = .ok (.scalar 1)

/-- The amplitude at a value of m12. -/
noncomputable def amplitudeAt (x : ℝ) : ComplexNumber ℝ :=
  (ComplexNumber.zero.add (ComplexNumber.mul ⟨1, 0⟩ (.ofReal 1))).add
    (ComplexNumber.mul ⟨0, 1⟩ ((ComplexNumber.ofReal 1.0).div
      ((ComplexNumber.ofReal (Scalar.square 1 - x)).sub
        ((ComplexNumber.imaginaryUnit.mul (.ofReal 1)).mul (.ofReal 1)))))

/-- The resonance takes away from the constant. -/
theorem selfProduct_amplitudeAt {x : ℝ} (hpos : 0 < x) (hlt : x < 1) :
    Scalar.selfProduct (amplitudeAt x).magnitude = (1 - x) ^ 2 / (1 + (1 - x) ^ 2) := by
  set y := 1 - x with hy
  have hquotient : (ComplexNumber.ofReal 1.0).div
      ((ComplexNumber.ofReal (Scalar.square 1 - x)).sub
        ((ComplexNumber.imaginaryUnit.mul (.ofReal 1)).mul (.ofReal 1))) =
      ⟨y / (1 + y ^ 2), 1 / (1 + y ^ 2)⟩ := by
    have hdivisor : (ComplexNumber.ofReal (Scalar.square 1 - x)).sub
        ((ComplexNumber.imaginaryUnit.mul (.ofReal 1)).mul (.ofReal 1)) = ⟨y, -1⟩ := by
      norm_num [ComplexNumber.sub, ComplexNumber.mul, ComplexNumber.ofReal,
        ComplexNumber.imaginaryUnit, square_eq, hy]
    have hbelow : Scalar.le |(-1 : ℝ)| |y| = false := by
      rw [Bool.eq_false_iff, Ne, le_iff, not_le, abs_neg, abs_one, abs_lt]
      constructor <;> linarith
    have hscale : 1.0 / (-1 + y * (y / -1)) = -(1 / (1 + y ^ 2)) := by
      have hflip : -1 + y * (y / -1) = -(1 + y ^ 2) := by ring
      rw [hflip, div_neg]
      norm_num
    rw [hdivisor]
    simp only [ComplexNumber.div, abs_eq, hbelow, ComplexNumber.ofReal, hscale]
    norm_num
    ring
  have hne : (1 : ℝ) + y ^ 2 ≠ 0 := by positivity
  have hsum : amplitudeAt x = ⟨1 - 1 / (1 + y ^ 2), y / (1 + y ^ 2)⟩ := by
    unfold amplitudeAt
    rw [hquotient]
    norm_num [ComplexNumber.add, ComplexNumber.mul, ComplexNumber.zero, ComplexNumber.ofReal]
    ring
  rw [hsum]
  show √_ * √_ = _
  rw [Real.mul_self_sqrt (add_nonneg (mul_self_nonneg _) (mul_self_nonneg _))]
  field_simp
  ring

section

variable {t : Store ℝ} (h : Initial t)

include h

/-- The amplitude at the points inside. -/
theorem amplitude_inside : decay.amplitude.evaluate t (.value (.column [1 / 4, 1 / 4, 3 / 4]))
    (.value (.column [1 / 4, 3 / 4, 1 / 4])) (.value (.column [1 / 2, 0, 0])) =
      .ok (.column [amplitudeAt (1 / 4), amplitudeAt (1 / 4), amplitudeAt (3 / 4)]) := by
  simp only [decay, amplitude, Amplitude.evaluate, Amplitude.Terms.evaluate, h.constant,
    h.resonance, h.mass, h.width]
  rfl

theorem integral_decay (hbins : (t.state ⟨0⟩).resolution = 2) :
    decay.integral t = .ok (331 / 1700) := by
  have hgrid : ∀ i, Grid.bins (space.sqMin i) (space.sqMax i) (t.state decay.state).resolution =
      (.ok ([1 / 4, 3 / 4], 1 / 2) : Except (Fault ℝ) _) := fun i =>
    (congrArg (Grid.bins _ _) hbins).trans (bins_space i)
  have hweight : decay.weight t (.value (.column [1 / 4, 1 / 4, 3 / 4]))
      (.value (.column [1 / 4, 3 / 4, 1 / 4])) (.value (.column [1 / 2, 0, 0])) =
        .ok (.scalar 1) := by
    show Except.ok (Value.scalar (Scalar.max 1.0 0.0)) = _
    rw [max_eq]
    norm_num
  have hquarter := selfProduct_amplitudeAt (x := 1 / 4) (by norm_num) (by norm_num)
  have hthree := selfProduct_amplitudeAt (x := 3 / 4) (by norm_num) (by norm_num)
  have hintensity : decay.intensity t (.value (.column [1 / 4, 1 / 4, 3 / 4]))
      (.value (.column [1 / 4, 3 / 4, 1 / 4])) (.value (.column [1 / 2, 0, 0])) =
        .ok (.column [9 / 25, 9 / 25, 1 / 17]) := by
    unfold Decay.intensity
    rw [amplitude_inside h, hweight]
    show Except.ok (Value.column [Scalar.selfProduct _ * 1, Scalar.selfProduct _ * 1,
      Scalar.selfProduct _ * 1]) = _
    rw [hquarter, hthree]
    norm_num
  unfold Decay.integral
  simp only [hgrid, ok_bind, show decay.space = space from rfl, insidePoints_space, List.map_cons,
    List.map_nil, hintensity]
  show Except.ok (Scalar.sum [(9 / 25 : ℝ), 9 / 25, 1 / 17] * (1 / 2) * (1 / 2)) = _
  rw [sum_eq]
  norm_num

end

/-- What the decay density is made of, and a function. -/
noncomputable def parts : List (Call ℝ) :=
  [ .cell ⟨.variable, "m12", .scalar 0, .scalar 0⟩,
    .cell ⟨.variable, "m13", .scalar 0, .scalar 0⟩,
    .cell ⟨.variable, "m23", .scalar 0, .scalar 0⟩,
    .cell ⟨.parameter, "re1", .scalar 1, .scalar 0⟩,
    .cell ⟨.parameter, "im1", .scalar 0, .scalar 0⟩,
    .cell ⟨.parameter, "re2", .scalar 0, .scalar 0⟩,
    .cell ⟨.parameter, "im2", .scalar 1, .scalar 0⟩,
    .cell ⟨.parameter, "m", .scalar 1, .scalar 0⟩,
    .cell ⟨.parameter, "g", .scalar 1, .scalar 0⟩,
    .flat (.ofReal 1),
    .resonance 7 8 "12",
    .sum [(3, 4, 9), (5, 6, 10)],
    .weight "two" [] (.constant 2.0) [] [] ]

noncomputable def calls : List (Call ℝ) :=
  parts ++ [.decay "Decay3Body" 0 1 2 11 space (.ok 2) 1 (.ok 10) ⟨0⟩]

/-- The store where the amplitude has been copied. -/
noncomputable def copied : Store ℝ :=
  ((amplitude ⟨2⟩ ⟨0⟩ ⟨1⟩).copy.outcome (Session.after parts).store).2

/-- The store where the density has got its head. -/
noncomputable def headed : Store ℝ :=
  ((Run.newHead "Decay3Body" [⟨0⟩, ⟨1⟩, ⟨2⟩] (copied.registry ⟨5⟩).cells).outcome copied).2

/-- The store where the density has got its state, and stores its integral. -/
noncomputable def cached : Store ℝ :=
  (headed.addState ⟨1.0, 2, 1, 10⟩).withNorm ⟨0⟩ (331 / 1700)

theorem newDecay_made : ∃ t, (Run.newDecay "Decay3Body" ⟨0⟩ ⟨1⟩ ⟨2⟩ (amplitude ⟨2⟩ ⟨0⟩ ⟨1⟩) space
    (.ok 2) 1 (.ok 10) ⟨0⟩).outcome (Session.after parts).store = (.ok decay, t) ∧
      cached.Same t := by
  have hcopy : (amplitude ⟨2⟩ ⟨0⟩ ⟨1⟩).copy.outcome (Session.after parts).store =
      (.ok (amplitude ⟨5⟩ ⟨6⟩ ⟨7⟩), copied) := Prod.ext rfl rfl
  have hhead : (Run.newHead "Decay3Body" [⟨0⟩, ⟨1⟩, ⟨2⟩]
      (copied.registry (amplitude ⟨5⟩ ⟨6⟩ ⟨7⟩).pars).cells).outcome copied =
        (.ok ⟨"Decay3Body", ⟨8⟩, ⟨9⟩⟩, headed) := Prod.ext rfl rfl
  have hnames : (copied.cell ⟨0⟩).name = "m12" ∧ (copied.cell ⟨1⟩).name = "m13" ∧
      (copied.cell ⟨2⟩).name = "m23" ∧ headed.states.size = 0 := ⟨rfl, rfl, rfl, rfl⟩
  have hinitial : Initial (headed.addState ⟨1.0, 2, 1, 10⟩) := ⟨rfl, rfl, rfl, rfl⟩
  have hpositive : Scalar.lt 0.0 (1 : ℝ) = true := lt_iff.mpr (by norm_num)
  have hmade := Run.newDecay_ok space 10 ⟨0⟩ hcopy hhead (by decide : (1 : ℤ) ≤ 2) hpositive
  simp only [hnames] at hmade
  exact hmade _ (integral_decay hinitial rfl)

/-- **What the session comes to.** -/
theorem after_calls : ∃ t, cached.Same t ∧ Session.after calls =
    ⟨t, (Session.after parts).objects ++ [.density (.model (.decay decay))]⟩ := by
  obtain ⟨t, ht, hsame⟩ := newDecay_made
  have hcells : Held.cell (Session.after parts).objects 0 = .ok ⟨0⟩ ∧
      Held.cell (Session.after parts).objects 1 = .ok ⟨1⟩ ∧
      Held.cell (Session.after parts).objects 2 = .ok ⟨2⟩ := ⟨rfl, rfl, rfl⟩
  have hamplitude : Held.amplitude (Session.after parts).objects 11 =
      .ok (amplitude ⟨2⟩ ⟨0⟩ ⟨1⟩) := rfl
  have hrun : ((Call.decay "Decay3Body" 0 1 2 11 space (.ok 2) 1 (.ok 10) ⟨0⟩).run
      (Session.after parts).objects).outcome (Session.after parts).store =
        (.ok [.density (.model (.decay decay))], t) := by
    unfold Call.run
    rw [Run.outcome_reading_bind_ok _ hcells.1, Run.outcome_reading_bind_ok _ hcells.2.1,
      Run.outcome_reading_bind_ok _ hcells.2.2, Run.outcome_reading_bind_ok _ hamplitude,
      Run.outcome_bind_ok _ ht]
    rfl
  exact ⟨t, hsame, by rw [calls, Session.after_snoc, Session.step_ok hrun]⟩

/-- The density is among the objects, and the store is as it should be. -/
theorem decay_calls : .density (.model (.decay decay)) ∈ (Session.after calls).objects ∧
    cached.Same (Session.after calls).store := by
  obtain ⟨t, hsame, hafter⟩ := after_calls
  rw [hafter]
  exact ⟨List.mem_append_right _ (List.mem_singleton_self _), hsame⟩

/-- **The density of the session stores its integral.** -/
theorem fresh_calls : decay.Fresh (Session.after calls).store ∧
    ((Session.after calls).store.state decay.state).norm = 331 / 1700 := by
  obtain ⟨-, hsame⟩ := decay_calls
  have hstate : (Session.after calls).store.state decay.state = ⟨331 / 1700, 2, 1, 10⟩ :=
    (hsame.state decay.state).trans rfl
  have hinitial : Initial (Session.after calls).store :=
    { constant := (Amplitude.coefficient_congr (hsame.value? _ _) (hsame.value? _ _)).trans rfl
      resonance := (Amplitude.coefficient_congr (hsame.value? _ _) (hsame.value? _ _)).trans rfl
      mass := (Store.lookup_congr (hsame.value? _ _)).trans rfl
      width := (Store.lookup_congr (hsame.value? _ _)).trans rfl }
  have hintegral := integral_decay hinitial (congrArg DecayState.resolution hstate)
  refine ⟨hintegral.trans ?_, by rw [hstate]⟩
  rw [hstate]

/-- **The density of the session is pointwise**, since it has an integral. -/
theorem pointwise_calls : decay.Pointwise (Session.after calls).store := by
  obtain ⟨hmem, hsame⟩ := decay_calls
  have hvalid : (Model.decay decay).Valid (Session.after calls).store :=
    (Session.after_valid calls).objects _ hmem
  have hvalues : cached.currentValues ⟨9⟩ = [("re1", .scalar 1), ("im1", .scalar 0),
      ("re2", .scalar 0), ("im2", .scalar 1), ("m", .scalar 1), ("g", .scalar 1)] := rfl
  have hcached : cached.Scalars ⟨9⟩ :=
    Store.scalars_of_currentValues (by simp [hvalues, Content.isScalar])
  have hpars : (Session.after calls).store.Scalars ⟨9⟩ := fun n v hv =>
    hcached n v ((hsame.value? ⟨9⟩ n).symm.trans hv)
  have hsummed : decay.amplitude.Summed := ⟨nofun, trivial, trivial, trivial⟩
  exact Decay.pointwise_of_integral powersAgree hvalid
    (Density.Valid.scalars (d := .model (.decay decay)) hvalid hpars _ (List.mem_singleton_self _))
    hsummed fresh_calls.1

end Reals

end DensityAlgebra
