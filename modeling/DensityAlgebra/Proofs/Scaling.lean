/-
# Overall scale

A factor of the whole numerator of a decay density is a factor of its integral. Where the
normalization is renewed, it drops out of the density and of its marginals: only the stored
norm shows it.

There are two ways for such a factor to come in. A function that is a positive constant passes
through the product of weight functions and through its floor at zero. A complex factor of all
coefficients of a coherent sum passes through the sum, and comes out of its squared magnitude as
the squared magnitude of the factor. The coefficients are set by name; where each has names of
its own, which nothing else uses, nothing else changes.

Key definitions: `Decay.ScaledBy`, `Decay.ConstantFactor`, `Amplitude.Terms.coefficients`,
`Decay.OwnCoefficients`, `Decay.Rescales`.
Key theorems: `Decay.Numerator.scaledBy`, `Decay.withWeight_scaledBy`,
`Amplitude.Terms.evaluate_scaled`, `Decay.setPars_scaledBy`, `Session.scale_drops_out`.
-/
import DensityAlgebra.Proofs.Marginals
import DensityAlgebra.Proofs.Multiplying

namespace DensityAlgebra

/-! ### A factor of the numerator -/

namespace Decay

/-- The name of a role is found. -/
theorem exists_roleOf? {α : Type} {d : Decay α} {name : String} (h : name ∈ d.roles) :
    ∃ i, d.roleOf? name = some i := by
  unfold roleOf?
  split_ifs with h12 h13 h23
  · exact ⟨_, rfl⟩
  · exact ⟨_, rfl⟩
  · exact ⟨_, rfl⟩
  · simp [roles, h12, h13, h23] at h

theorem roleOf?_congr {α : Type} {d e : Decay α} (h : e.roles = d.roles) (name : String) :
    e.roleOf? name = d.roleOf? name := by
  obtain ⟨h12, h13, h23⟩ : e.role12 = d.role12 ∧ e.role13 = d.role13 ∧ e.role23 = d.role23 := by
    simpa [roles] using h
  unfold roleOf?
  rw [h12, h13, h23]

/-- The norm of `e` is `k` times that of `d`. Both have values at points and pairs, and
marginals, and these are the same. -/
structure ScaledBy (s t : Store ℝ) (d e : Decay ℝ) (k : ℝ) : Prop where
  norm : (t.state e.state).norm = k * (s.state d.state).norm
  point : ∀ ρ : View (ℝ × ℝ × ℝ), ∃ v,
    d.evaluateAt s ((Quantity.varying (·.1)).view ρ) ((Quantity.varying (·.2.1)).view ρ)
      (some ((Quantity.varying (·.2.2)).view ρ)) = .ok v ∧
    e.evaluateAt t ((Quantity.varying (·.1)).view ρ) ((Quantity.varying (·.2.1)).view ρ)
      (some ((Quantity.varying (·.2.2)).view ρ)) = .ok v
  pair : ∀ ρ : View (ℝ × ℝ), ∃ v,
    d.evaluateAt s ((Quantity.varying (·.1)).view ρ) ((Quantity.varying (·.2)).view ρ) none =
      .ok v ∧
    e.evaluateAt t ((Quantity.varying (·.1)).view ρ) ((Quantity.varying (·.2)).view ρ) none =
      .ok v
  marginal : ∀ name ∈ d.roles, ∀ ρ : View ℝ, ∃ v,
    d.project s name ((Quantity.varying id).view ρ) = .ok v ∧
    e.project t name ((Quantity.varying id).view ρ) = .ok v

section

variable {s t : Store ℝ} {d e : Decay ℝ} {f : ℝ × ℝ × ℝ → ℝ} {k : ℝ}

/-- **A factor of the numerator is a factor of the integral.** -/
theorem Numerator.integral_scaled (hd : d.Numerator s f) (he : e.Numerator t fun p => k * f p)
    (hspace : e.space = d.space)
    (hresolution : (t.state e.state).resolution = (s.state d.state).resolution) {x : ℝ}
    (hx : d.integral s = .ok x) : e.integral t = .ok (k * x) := by
  have hbins := bins_of_integral hx
  have hbins' : ∀ i, Grid.bins (e.space.sqMin i) (e.space.sqMax i) (t.state e.state).resolution =
      (.ok _ : Except (Fault ℝ) _) := fun i => by
    rw [hspace, hresolution]
    exact hbins i
  have hsum := hd.integral (hbins .of12) (hbins .of13)
  rw [hx, Except.ok.injEq] at hsum
  rw [he.integral (hbins' .of12) (hbins' .of13), hspace, hsum, Reals.sum_eq, Reals.sum_eq,
    List.sum_map_mul_left, mul_assoc, mul_assoc, mul_assoc]

/-- **A factor of the numerator drops out** if the norm has it as well. -/
theorem Numerator.scaledBy (hd : d.Numerator s f) (he : e.Numerator t fun p => k * f p)
    (hk : k ≠ 0) (hroles : e.roles = d.roles) (hspace : e.space = d.space)
    (hresolution : (t.state e.state).resolution = (s.state d.state).resolution) {x : ℝ}
    (hx : d.integral s = .ok x) (hnorm : (t.state e.state).norm = k * (s.state d.state).norm) :
    d.ScaledBy s t e k := by
  have hnormalized : normalized t e (fun p => k * f p) = normalized s d f := by
    funext p
    unfold normalized
    rw [hnorm]
    exact mul_div_mul_left _ _ hk
  refine ⟨hnorm, fun ρ => ⟨_, hd.evaluateAt _ _ _ ρ, ?_⟩,
    fun ρ => ⟨_, hd.evaluateAt_pair _ _ ρ, ?_⟩, fun name hname ρ => ?_⟩
  · rw [he.evaluateAt, hnormalized]
  · rw [he.evaluateAt_pair, hnormalized, hspace]
  · obtain ⟨i, hi⟩ := exists_roleOf? hname
    have hi' : e.roleOf? name = some i := by
      rw [← hi]
      exact roleOf?_congr hroles name
    have hbins := bins_of_integral hx i.next
    refine ⟨_, hd.project hbins hi id ρ, ?_⟩
    rw [← hspace, ← hresolution] at hbins
    rw [he.project hbins hi' id, hnormalized, hspace]

end

/-! ### A constant function -/

/-- A function of variables of the density, with parameters of its own, that comes to `c` at
every point. -/
structure ConstantFactor (s : Store ℝ) (d : Decay ℝ) (w : Weight ℝ) (c : ℝ) : Prop where
  vars : ∀ n ∈ (s.registry w.vars).names, n ∈ (s.registry d.head.vars).names
  pars : ∀ n ∈ (s.registry w.pars).names, n ∉ (s.registry d.head.pars).names
  value : ∃ q : Quantity (ℝ × ℝ × ℝ) ℝ, (∀ e, q.value e = c) ∧
    ∀ ρ : View (ℝ × ℝ × ℝ),
      w.factor s (d.rolePoint (·.1) (·.2.1) (·.2.2) ρ) = .ok (q.view ρ)

section

variable {s : Store ℝ} {d : Decay ℝ} {w : Weight ℝ} {c : ℝ}

/-- Where no name is shared, merged values are the values. -/
theorem ConstantFactor.value?_merged (h : d.ConstantFactor s w c) (hs : s.Sound)
    (hd : (Model.decay d).Valid s) {r : RegistryId} (hr : r ∈ (Model.decay d).parRegistries)
    (n : String) : (s.merged d w).value? r n = s.value? r n := by
  rw [Store.value?_merged_density hs hd w hr]
  cases hv : s.value? r n with
  | none => rfl
  | some v =>
    have hhead := Store.value?_of_under (hd.linked.pars r hr) hv
    have hmem : n ∈ (s.registry d.head.pars).names := Store.mem_names_of_value? hhead
    have hnone : s.value? w.pars n = none :=
      Store.value?_of_not_mem fun hn => h.pars n hn hmem
    rw [hnone]
    rfl

theorem ConstantFactor.intensity_merged (h : d.ConstantFactor s w c) (hs : s.Sound)
    (hd : (Model.decay d).Valid s) (m12 m13 m23 : Given ℝ) :
    (d.weighted w).intensity (s.merged d w) m12 m13 m23 =
      (d.weighted w).intensity s m12 m13 m23 := by
  have hnames : ∀ r, ((s.merged d w).registry r).names = (s.registry r).names := fun r => rfl
  refine intensity_of_values hnames (fun r hr n => ?_) (fun v hv n => ?_) (fun v hv => ?_)
    m12 m13 m23
  · exact h.value?_merged hs hd ((Model.decay d).partPars_subset (List.mem_append_left _ hr)) n
  · rcases List.mem_append.mp hv with hv | hv
    · exact h.value?_merged hs hd
        ((Model.decay d).partPars_subset (List.mem_append_right _ (List.mem_map_of_mem hv))) n
    · rw [List.mem_singleton.mp hv]
      exact Store.value?_merged_weight hs d w n
  · rcases List.mem_append.mp hv with hv | hv
    · exact hd.weight_names_subset hv
    · rw [List.mem_singleton.mp hv]
      exact fun n hn => hd.names_eq_roles ▸ h.vars n hn

/-- **A constant passes through the product of weight functions and its floor.** -/
theorem ConstantFactor.numerator (h : d.ConstantFactor s w c) (hc : 0 < c)
    (hpoint : d.Pointwise s) :
    ∃ f, d.Numerator s f ∧ (d.weighted w).Numerator s fun p => c * f p := by
  obtain ⟨A, hA⟩ := hpoint.amplitude
  obtain ⟨p, hp⟩ := weightProduct_pointwise hpoint.weights (.shared 1.0)
  obtain ⟨q, hq, hfactor⟩ := h.value
  have hproduct : ∀ ρ : View (ℝ × ℝ × ℝ),
      weightProduct s ((d.weighted w).rolePoint (·.1) (·.2.1) (·.2.2) ρ) (d.weighted w).weights
        (.scalar 1.0) = .ok ((p.combine (fun x y => x * y) q).view ρ) := by
    intro ρ
    refine (weightProduct_append d.weights [w] _).trans ?_
    refine bind_eq_ok_iff.mpr ⟨_, hp ρ, bind_eq_ok_iff.mpr ⟨_, hfactor ρ,
      bind_eq_ok_iff.mpr ⟨_, Quantity.combine_view _ p q ρ, rfl⟩⟩⟩
  have hscaled := numerator_of_parts (d := d.weighted w) Reals.powersAgree hA hproduct
  refine ⟨_, numerator_of_parts Reals.powersAgree hA hp, ?_⟩
  convert hscaled using 1
  funext e
  have hfloor : c * max (p.value e) 0 = max (p.value e * c) 0 := by
    rw [mul_max_of_nonneg _ _ hc.le, mul_zero, mul_comm]
  rw [Quantity.value_combine, hq, Reals.max_eq, Reals.max_eq, show (0.0 : ℝ) = 0 by norm_num,
    ← hfloor]
  ring

/-- **A constant function changes the norm only.** -/
theorem withWeight_scaledBy (hs : s.Sound) (hd : (Model.decay d).Valid s) (hw : w.Valid s)
    (hpoint : d.Pointwise s) (hfresh : d.Fresh s) (hc : 0 < c) (h : d.ConstantFactor s w c) :
    ∃ out t, (d.withWeight w).outcome s = (.ok out, t) ∧ d.ScaledBy s t out c := by
  obtain ⟨f, hf, hweighted⟩ := h.numerator hc hpoint
  have hmerged : (d.weighted w).Numerator (s.merged d w) fun p => c * f p := fun ρ =>
    (h.intensity_merged hs hd _ _ _).trans (hweighted ρ)
  have hintegral := hf.integral_scaled hmerged rfl rfl hfresh
  obtain ⟨-, hmakes⟩ := withWeight_merges hs hd hw h.vars
  obtain ⟨out, t, g, g', hrun, hreaches, hstored, hintensity⟩ := hmakes _ hintegral
  obtain ⟨hroles, hspace, hresolution⟩ := hreaches.kinematics
  have hout : out.Numerator t fun p => c * f p := fun ρ =>
    (hintensity _ _ _).trans (hmerged ρ)
  exact ⟨out, t, hrun, hf.scaledBy hout hc.ne' hroles hspace hresolution hfresh hstored⟩

end

end Decay

/-! ### A complex factor -/

namespace ComplexNumber

protected theorem mul_assoc (z w v : ComplexNumber ℝ) : (z.mul w).mul v = z.mul (w.mul v) := by
  simp only [mul, mk.injEq]
  constructor <;> ring

protected theorem mul_add (z w v : ComplexNumber ℝ) :
    (z.mul w).add (z.mul v) = z.mul (w.add v) := by
  simp only [mul, add, mk.injEq]
  constructor <;> ring

theorem mul_zero_eq (z : ComplexNumber ℝ) : z.mul zero = zero := by
  norm_num [mul, zero]

theorem selfProduct_magnitude (z : ComplexNumber ℝ) :
    Scalar.selfProduct z.magnitude = z.re * z.re + z.im * z.im :=
  Real.mul_self_sqrt (add_nonneg (mul_self_nonneg _) (mul_self_nonneg _))

/-- **Squared magnitudes multiply.** -/
theorem selfProduct_magnitude_mul (z w : ComplexNumber ℝ) :
    Scalar.selfProduct (z.mul w).magnitude =
      (z.re * z.re + z.im * z.im) * Scalar.selfProduct w.magnitude := by
  simp only [selfProduct_magnitude, mul]
  ring

end ComplexNumber

/-- A function that goes past an operation goes past it in every entry. -/
theorem Value.combine_map {α β : Type} {f : β → β → β} {g : β → β}
    (hg : ∀ x y, f (g x) (g y) = g (f x y)) {v w u : Value β}
    (h : (combine f v w : Except (Fault α) _) = .ok u) :
    (combine f (v.map g) (w.map g) : Except (Fault α) _) = .ok (u.map g) := by
  have hrow : ∀ (x : β) (ys : List β), (ys.map g).map (f (g x)) = (ys.map (f x)).map g :=
    fun x ys => by simp [hg]
  have hcolumn : ∀ (xs : List β) (y : β), (xs.map g).map (f · (g y)) = (xs.map (f · y)).map g :=
    fun xs y => by simp [hg]
  have hpairs : ∀ xs ys : List β,
      List.zipWith f (xs.map g) (ys.map g) = (List.zipWith f xs ys).map g := fun xs ys => by
    simp [List.zipWith_map, List.map_zipWith, hg]
  cases v with
  | scalar x =>
    cases w with
    | scalar y =>
      obtain rfl := Except.ok.inj h
      exact congrArg (fun z => Except.ok (Value.scalar z)) (hg x y)
    | column ys =>
      obtain rfl := Except.ok.inj h
      exact congrArg (fun zs => Except.ok (Value.column zs)) (hrow x ys)
  | column xs =>
    cases w with
    | scalar y =>
      obtain rfl := Except.ok.inj h
      exact congrArg (fun zs => Except.ok (Value.column zs)) (hcolumn xs y)
    | column ys =>
      simp only [combine, map, List.length_map] at h ⊢
      split_ifs at h ⊢ with hlength
      · obtain rfl := Except.ok.inj h
        exact congrArg (fun zs => Except.ok (Value.column zs)) (hpairs xs ys)
      · -- columns of different lengths are combined if one of them has a single entry
        rcases xs with _ | ⟨x, _ | ⟨x', xs⟩⟩ <;> rcases ys with _ | ⟨y, _ | ⟨y', ys⟩⟩ <;> cases h
        all_goals simp [hg]

namespace Amplitude

variable {α : Type} [Scalar α]

/-- A coefficient is made of two values. -/
theorem coefficient_values {s : Store α} {r : RegistryId} {re im : String} {c : ComplexNumber α}
    (h : coefficient s r re im = .ok c) :
    (∃ v, s.value? r re = some v) ∧ ∃ w, s.value? r im = some w := by
  obtain ⟨v, hv, h⟩ := bind_eq_ok_iff.mp h
  obtain ⟨w, hw, -⟩ := bind_eq_ok_iff.mp h
  exact ⟨⟨v, Store.lookup_eq_ok_iff.mp hv⟩, ⟨w, Store.lookup_eq_ok_iff.mp hw⟩⟩

theorem coefficient_of_scalars {s : Store α} {r : RegistryId} {re im : String}
    {c : ComplexNumber α} (hre : s.value? r re = some (.scalar c.re))
    (him : s.value? r im = some (.scalar c.im)) : coefficient s r re im = .ok c := by
  rw [← Store.lookup_eq_ok_iff] at hre him
  exact bind_eq_ok_iff.mpr ⟨_, hre, bind_eq_ok_iff.mpr ⟨_, him, rfl⟩⟩

namespace Terms

/-- The names of the parts of the coefficients, term by term. -/
def coefficients : Terms α → List (String × String)
  | .nil => []
  | .cons re im _ rest => (re, im) :: rest.coefficients

/-- The names of the parts of the coefficients. -/
def coefficientNames (ts : Terms α) : List String := ts.coefficients.flatMap fun e => [e.1, e.2]

/-- Terms that have a value have coefficients. -/
theorem coefficient_ok {s : Store α} {r : RegistryId} {m12 m13 m23 : Given α} :
    ∀ {ts : Terms α} {total v : Value (ComplexNumber α)},
      ts.evaluate s r m12 m13 m23 total = .ok v →
      ∀ e ∈ ts.coefficients, ∃ c, coefficient s r e.1 e.2 = .ok c
  | .nil, _, _, _ => by simp [coefficients]
  | .cons re im factor rest, total, v, h => by
    obtain ⟨c, hc, h⟩ := bind_eq_ok_iff.mp h
    obtain ⟨_, -, h⟩ := bind_eq_ok_iff.mp h
    obtain ⟨_, -, h⟩ := bind_eq_ok_iff.mp h
    exact List.forall_mem_cons.mpr ⟨⟨c, hc⟩, coefficient_ok h⟩

/-- **A factor of all coefficients is a factor of the sum.** -/
theorem evaluate_scaled {s u : Store ℝ} {r : RegistryId} {z : ComplexNumber ℝ}
    {m12 m13 m23 : Given ℝ} : ∀ {ts : Terms ℝ},
      (∀ e ∈ ts.coefficients, ∀ c, coefficient s r e.1 e.2 = .ok c →
        coefficient u r e.1 e.2 = .ok (z.mul c)) →
      (∀ q ∈ ts.registries, ∀ n, u.value? q n = s.value? q n) →
      ∀ {total v}, ts.evaluate s r m12 m13 m23 total = .ok v →
        ts.evaluate u r m12 m13 m23 (total.map z.mul) = .ok (v.map z.mul)
  | .nil, _, _, total, v, h => by
    obtain rfl := Except.ok.inj h
    rfl
  | .cons re im factor rest, hcoefficients, hnodes, total, v, h => by
    rw [coefficients, List.forall_mem_cons] at hcoefficients
    obtain ⟨c, hc, h⟩ := bind_eq_ok_iff.mp h
    obtain ⟨a, ha, h⟩ := bind_eq_ok_iff.mp h
    obtain ⟨sum, hsum, h⟩ := bind_eq_ok_iff.mp h
    have hfactor : factor.evaluate u m12 m13 m23 = .ok a :=
      (Amplitude.evaluate_of_values (fun q hq => hnodes q (List.mem_append_left _ hq)) _ _ _).trans
        ha
    have hterm : (a.map c.mul).map z.mul = a.map (z.mul c).mul := by
      have hmul : ∀ w, z.mul (c.mul w) = (z.mul c).mul w := fun w => (z.mul_assoc c w).symm
      cases a <;> simp [Value.map, Function.comp_def, hmul]
    have htotal : Value.combine (fun t w => ComplexNumber.add t w) (total.map z.mul)
        (a.map (z.mul c).mul) = (.ok (sum.map z.mul) : Except (Fault ℝ) _) := by
      rw [← hterm]
      exact Value.combine_map z.mul_add hsum
    refine bind_eq_ok_iff.mpr ⟨_, hcoefficients.1 c hc, bind_eq_ok_iff.mpr ⟨_, hfactor,
      bind_eq_ok_iff.mpr ⟨_, htotal, ?_⟩⟩⟩
    exact evaluate_scaled hcoefficients.2 (fun q hq => hnodes q (List.mem_append_right _ hq)) h

end Terms

end Amplitude

/-! ### Setting coefficients -/

/-- A form brings a value to a name of a registry. -/
def Input.Brings {α : Type} [Scalar α] (r : Registry) (input : Input α) (n : String)
    (v : Content α) : Prop :=
  ∃ x err, (n, x) ∈ input.entries r ∧ x.own? = some (v, err)

section

variable {α : Type} [Scalar α] {s u : Store α}

/-- A value that was brought is there. -/
theorem Input.Brings.value?_eq {r : RegistryId} {input : Input α} {n : String} {v : Content α}
    (h : input.Brings (s.registry r) n v) (hn : n ∈ (s.registry r).names)
    (hr : u.registry r = s.registry r)
    (hwritten : s.Written u (s.registry r) (input.entries (s.registry r))) :
    u.value? r n = some v := by
  obtain ⟨x, err, hx, hv⟩ := h
  obtain ⟨c, hc⟩ := Registry.find?_eq_some_of_mem hn
  rw [Store.value?_of_find? (hr ▸ hc), hwritten _ hx c v err hc hv]
  rfl

/-- A part of a density has the values of the density, under its own names. -/
theorem Model.Valid.value?_part {m : Model α} (h : m.Valid s)
    (hu : ∀ q ∈ m.registries, u.registry q = s.registry q) {q : RegistryId}
    (hq : q ∈ m.parRegistries) {n : String} (hn : n ∈ (s.registry q).names) :
    u.value? q n = u.value? m.head.pars n := by
  have hpart := hu q (m.parRegistries_subset hq)
  have hhead := hu m.head.pars (m.parRegistries_subset m.head_pars_mem)
  have hunder : (u.registry q).Under (u.registry m.head.pars) := by
    rw [hpart, hhead]
    exact h.linked.pars q hq
  exact Store.value?_eq_of_under hunder (hpart.symm ▸ hn)

end

namespace Decay

/-- The names of coefficients are different, and no node below the sum and no function has one
of them. -/
structure OwnCoefficients {α : Type} (s : Store α) (d : Decay α) (terms : Amplitude.Terms α) :
    Prop where
  distinct : terms.coefficientNames.Nodup
  nodes : ∀ q ∈ terms.registries, ∀ n ∈ (s.registry q).names, n ∉ terms.coefficientNames
  functions : ∀ w ∈ d.weights, ∀ n ∈ (s.registry w.pars).names, n ∉ terms.coefficientNames

/-- Parameters that are accepted, and bring each coefficient of the sum at `r` with the factor
`z`; what comes under another name is as it is. -/
structure Rescales (s : Store ℝ) (d : Decay ℝ) (r : RegistryId) (terms : Amplitude.Terms ℝ)
    (z : ComplexNumber ℝ) (input : Input ℝ) : Prop where
  accepted : input.Matches (s.registry d.head.pars)
  proper : input.Proper
  readable : input.Readable s
  scaled : ∀ e ∈ terms.coefficients, ∀ c, Amplitude.coefficient s r e.1 e.2 = .ok c →
    input.Brings (s.registry d.head.pars) e.1 (.scalar (z.mul c).re) ∧
      input.Brings (s.registry d.head.pars) e.2 (.scalar (z.mul c).im)
  kept : ∀ e ∈ input.entries (s.registry d.head.pars), e.1 ∉ terms.coefficientNames →
    ∃ v err, e.2.own? = some (v, err) ∧ s.value? d.head.pars e.1 = some v

/-- In the second store the coefficients have the factor `z`; other parameters and the names of
variables are as they are. -/
structure Rescaled (s u : Store ℝ) (d : Decay ℝ) (r : RegistryId) (terms : Amplitude.Terms ℝ)
    (z : ComplexNumber ℝ) : Prop where
  coefficients : ∀ e ∈ terms.coefficients, ∀ c, Amplitude.coefficient s r e.1 e.2 = .ok c →
    Amplitude.coefficient u r e.1 e.2 = .ok (z.mul c)
  nodes : ∀ q ∈ terms.registries, ∀ n, u.value? q n = s.value? q n
  functions : ∀ w ∈ d.weights, Weight.Alike u s w w

section

variable {s u : Store ℝ} {d : Decay ℝ} {r : RegistryId} {terms : Amplitude.Terms ℝ}
  {z : ComplexNumber ℝ} {input : Input ℝ}

/-- **A factor of the coefficients comes out** of the squared magnitude of the amplitude. -/
theorem Rescaled.numerator (h : Rescaled s u d r terms z) (hd : (Model.decay d).Valid s)
    (ha : d.amplitude = .sum r terms) (hpoint : d.Pointwise s) :
    ∃ f, d.Numerator s f ∧ d.Numerator u fun p => (z.re * z.re + z.im * z.im) * f p := by
  obtain ⟨A, hA⟩ := hpoint.amplitude
  obtain ⟨p, hp⟩ := weightProduct_pointwise hpoint.weights (.shared 1.0)
  have hamplitude : ∀ ρ : View (ℝ × ℝ × ℝ), d.amplitude.evaluate u (Quantity.given (·.1) ρ)
      (Quantity.given (·.2.1) ρ) (Quantity.given (·.2.2) ρ) =
        .ok ((Quantity.varying fun e => z.mul (A e)).view ρ) := by
    intro ρ
    have hsum := hA ρ
    rw [ha] at hsum ⊢
    have hscaled := Amplitude.Terms.evaluate_scaled h.coefficients h.nodes hsum
    rw [← Quantity.map_view] at hscaled
    have hzero : (Value.scalar .zero).map z.mul = .scalar .zero :=
      congrArg Value.scalar z.mul_zero_eq
    rw [hzero] at hscaled
    exact hscaled
  have hcovered : ∀ w ∈ d.weights, (u.registry w.vars).names ⊆ d.roles := fun w hw => by
    rw [(h.functions w hw).names]
    exact hd.weight_names_subset hw
  have hproduct : ∀ ρ : View (ℝ × ℝ × ℝ), weightProduct u (d.rolePoint (·.1) (·.2.1) (·.2.2) ρ)
      d.weights (.scalar 1.0) = .ok (p.view ρ) := fun ρ =>
    (weightProduct_of_parts rfl (List.forall₂_same.mpr h.functions) hcovered _ _ _ _).trans (hp ρ)
  refine ⟨_, numerator_of_parts Reals.powersAgree hA hp, ?_⟩
  convert numerator_of_parts Reals.powersAgree hamplitude hproduct using 1
  funext e
  rw [ComplexNumber.selfProduct_magnitude_mul, mul_assoc]

/-- **Assigning such a form** leaves the coefficients with the factor, and everything else as it
is. -/
theorem Rescales.rescaled (h : Rescales s d r terms z input) (hs : s.Sound)
    (hd : (Model.decay d).Valid s) (ha : d.amplitude = .sum r terms)
    (hown : d.OwnCoefficients s terms)
    (hu : s.Inside ((s.registry d.head.pars).cellsOf
      ((input.entries (s.registry d.head.pars)).map (·.1))) ∅ u)
    (hwritten : s.Written u (s.registry d.head.pars) (input.entries (s.registry d.head.pars))) :
    Rescaled s u d r terms z := by
  have hregistry : ∀ q ∈ (Model.decay d).registries, u.registry q = s.registry q := fun q hq =>
    hu.registries q (hd.linked.bounded q hq)
  have hhead := hregistry d.head.pars d.head_pars_mem
  have hkept : ∀ n, n ∉ terms.coefficientNames →
      u.value? d.head.pars n = s.value? d.head.pars n := by
    intro n hn
    by_cases hmem : n ∈ (input.entries (s.registry d.head.pars)).map (·.1)
    · obtain ⟨e, he, rfl⟩ := List.mem_map.mp hmem
      obtain ⟨v, err, hv, hold⟩ := h.kept e he hn
      have hbrings : input.Brings (s.registry d.head.pars) e.1 v := ⟨e.2, err, he, hv⟩
      rw [hbrings.value?_eq (Store.mem_names_of_value? hold) hhead hwritten, hold]
    · exact hu.value?_eq hs (hd.linked.bounded _ d.head_pars_mem) fun c hc =>
        (hs _).not_mem_cellsOf hc hmem
  -- a part that has none of the names reads what it has read before
  have hvalue : ∀ q ∈ (Model.decay d).parRegistries,
      (∀ n ∈ (s.registry q).names, n ∉ terms.coefficientNames) →
        ∀ n, u.value? q n = s.value? q n := by
    intro q hq hnames n
    by_cases hn : n ∈ (s.registry q).names
    · rw [hd.value?_part hregistry hq hn, hd.value?_part (fun _ _ => rfl) hq hn]
      exact hkept n (hnames n hn)
    · have hn' : n ∉ (u.registry q).names :=
        (hregistry q ((Model.decay d).parRegistries_subset hq)).symm ▸ hn
      rw [Store.value?_of_not_mem hn', Store.value?_of_not_mem hn]
  have hamplitude : ∀ q ∈ r :: terms.registries, q ∈ (Model.decay d).parRegistries := fun q hq =>
    (Model.decay d).partPars_subset (List.mem_append_left _ (by rw [ha]; exact hq))
  have hr := hamplitude r List.mem_cons_self
  have hread : ∀ n v w, input.Brings (s.registry d.head.pars) n v → s.value? r n = some w →
      u.value? r n = some v := by
    intro n v w hbrings hold
    have hn := Store.mem_names_of_value? hold
    rw [hd.value?_part hregistry hr hn]
    exact hbrings.value?_eq ((hd.linked.pars r hr).names_subset hn) hhead hwritten
  refine ⟨fun e he c hc => ?_, fun q hq => ?_, fun w hw => ⟨rfl, ?_, ?_⟩⟩
  · obtain ⟨hre, him⟩ := h.scaled e he c hc
    obtain ⟨⟨v, hv⟩, w, hw⟩ := Amplitude.coefficient_values hc
    exact Amplitude.coefficient_of_scalars (hread _ _ _ hre hv) (hread _ _ _ him hw)
  · exact hvalue q (hamplitude q (List.mem_cons_of_mem _ hq)) (hown.nodes q hq)
  · exact congrArg Registry.names (hregistry _ ((Model.decay d).varRegistries_subset
      ((Model.decay d).partVars_subset (List.mem_map_of_mem hw))))
  · exact hvalue w.pars ((Model.decay d).partPars_subset
      (List.mem_append_right _ (List.mem_map_of_mem hw))) (hown.functions w hw)

/-- **There is such a form**: the mapping from the names of the coefficients to their new
values. -/
theorem exists_rescales (hd : (Model.decay d).Valid s) (ha : d.amplitude = .sum r terms)
    (hpoint : d.Pointwise s) (hown : d.OwnCoefficients s terms) (z : ComplexNumber ℝ) :
    ∃ input : Input ℝ, Rescales s d r terms z input.measured := by
  obtain ⟨A, hA⟩ := hpoint.amplitude
  have hvalue := hA (.event trivial (0, 0, 0))
  rw [ha] at hvalue
  have hcoefficient := Amplitude.Terms.coefficient_ok hvalue
  let entries (e : String × String) : List (String × Entry ℝ) :=
    let c := z.mul ((Amplitude.coefficient s r e.1 e.2).toOption.getD .zero)
    [(e.1, .raw (.scalar c.re)), (e.2, .raw (.scalar c.im))]
  have hnames : (terms.coefficients.flatMap entries).map (·.1) = terms.coefficientNames := by
    rw [List.map_flatMap]
    rfl
  have hr : r ∈ (Model.decay d).partPars :=
    List.mem_append_left _ (by rw [ha]; exact List.mem_cons_self)
  have hunder := hd.linked.pars r ((Model.decay d).partPars_subset hr)
  refine ⟨.mapping (terms.coefficients.flatMap entries),
    { accepted := fun x hx => ?_
      proper := (congrArg List.Nodup hnames).mpr hown.distinct
      readable := fun x hx => ?_
      scaled := fun e he c hc => ?_
      kept := fun x hx hn => absurd (hnames ▸ List.mem_map_of_mem hx) hn }⟩
  · obtain ⟨e, he, hx⟩ := List.mem_flatMap.mp hx
    obtain ⟨c, hc⟩ := hcoefficient e he
    obtain ⟨⟨_, hre⟩, _, him⟩ := Amplitude.coefficient_values hc
    have hhead : ∀ {n v}, s.value? r n = some v → n ∈ (s.registry d.head.pars).names :=
      fun hv => Store.mem_names_of_value? (Store.value?_of_under hunder hv)
    rcases List.mem_pair.mp hx with rfl | rfl
    · exact hhead hre
    · exact hhead him
  · obtain ⟨e, he, hx⟩ := List.mem_flatMap.mp hx
    rcases List.mem_pair.mp hx with rfl | rfl
    · exact ⟨none, rfl⟩
    · exact ⟨none, rfl⟩
  · have hentries : entries e =
        [(e.1, .raw (.scalar (z.mul c).re)), (e.2, .raw (.scalar (z.mul c).im))] := by
      simp only [entries, hc]
      rfl
    have hmem : ∀ x ∈ entries e, x ∈ terms.coefficients.flatMap entries := fun x hx =>
      List.mem_flatMap.mpr ⟨e, he, hx⟩
    rw [hentries] at hmem
    exact ⟨⟨_, none, hmem _ List.mem_cons_self, rfl⟩,
      ⟨_, none, hmem _ (List.mem_cons_of_mem _ List.mem_cons_self), rfl⟩⟩

/-- **A factor of the coefficients changes the norm only.** -/
theorem setPars_scaledBy (hs : s.Sound) (hd : (Model.decay d).Valid s) (hpoint : d.Pointwise s)
    (hfresh : d.Fresh s) (ha : d.amplitude = .sum r terms) (hown : d.OwnCoefficients s terms)
    (hz : z.re ≠ 0 ∨ z.im ≠ 0) (h : Rescales s d r terms z input.measured) :
    ∃ t, ((Density.model (.decay d)).setPars input).outcome s = (.ok ⟨⟩, t) ∧
      d.ScaledBy s t d (z.re * z.re + z.im * z.im) := by
  obtain ⟨_, u, hassign, hinside, hwritten⟩ :=
    (Run.assign_accepted hs h.accepted h.proper h.readable CellKind.parameter.word).exists_ok
  obtain ⟨f, hf, hscaled⟩ := (h.rescaled hs hd ha hown hinside hwritten).numerator hd ha hpoint
  have hplaced := hd.states d.state (List.mem_singleton_self _)
  have hresolution := hinside.resolutions d.state hplaced
  obtain ⟨t, hcache, hsame⟩ := cache_ok (hf.integral_scaled hscaled rfl hresolution hfresh)
  have hstate := (hsame.state d.state).trans
    (Store.state_withNorm (hplaced.trans_le hinside.moreStates) _)
  have hvalid : (Model.decay d).Valid u := hd.grows hinside.toGrows
  have hnames : ∀ q, (t.registry q).names = (u.registry q).names := fun q =>
    congrArg Registry.names (hsame.registry q)
  have hvalue : ∀ q n, t.value? q n = u.value? q n := hsame.value?
  have hout : d.Numerator t fun p => (z.re * z.re + z.im * z.im) * f p := fun ρ =>
    (intensity_of_values hnames (fun q _ => hvalue q) (fun w _ => hvalue w.pars)
      (fun w hw => hvalid.weight_names_subset hw) _ _ _).trans (hscaled ρ)
  have hpositive : 0 < z.re * z.re + z.im * z.im := by
    rcases hz with h | h
    · exact add_pos_of_pos_of_nonneg (mul_self_pos.mpr h) (mul_self_nonneg _)
    · exact add_pos_of_nonneg_of_pos (mul_self_nonneg _) (mul_self_pos.mpr h)
  refine ⟨t, (Run.outcome_bind_ok _ hassign).trans hcache,
    hf.scaledBy hout hpositive.ne' rfl rfl ?_ hfresh (by rw [hstate])⟩
  rw [hstate]
  exact hresolution

end

end Decay

/-- **The normalized density does not depend on overall scale.** In every session and exact
arithmetic, take a decay density that is pointwise and stores its integral. Times a function
that is a positive constant, its norm has this constant as a factor, and its values and marginals
are the same. If its amplitude is a sum with coefficients of its own, setting all of them to
their products with a number that is not zero can be done, and brings the squared magnitude of
that number into the norm, and no change to values and marginals. -/
theorem Session.scale_drops_out (calls : List (Call ℝ)) (d : Decay ℝ)
    (hd : .density (.model (.decay d)) ∈ (Session.after calls).objects)
    (hpoint : d.Pointwise (Session.after calls).store)
    (hfresh : d.Fresh (Session.after calls).store) :
    let s := (Session.after calls).store
    (∀ w c, .weight w ∈ (Session.after calls).objects → 0 < c → d.ConstantFactor s w c →
      ∃ out t, (d.withWeight w).outcome s = (.ok out, t) ∧ d.ScaledBy s t out c) ∧
    ∀ r terms z, d.amplitude = .sum r terms → d.OwnCoefficients s terms →
      (z.re ≠ 0 ∨ z.im ≠ 0) →
      (∃ input : Input ℝ, Decay.Rescales s d r terms z input.measured) ∧
      ∀ input : Input ℝ, Decay.Rescales s d r terms z input.measured →
        ∃ t, ((Density.model (.decay d)).setPars input).outcome s = (.ok ⟨⟩, t) ∧
          d.ScaledBy s t d (z.re * z.re + z.im * z.im) := by
  intro s
  have hvalid := Session.after_valid calls
  have hdecay : (Model.decay d).Valid s := hvalid.objects _ hd
  refine ⟨fun w c hw hc hconstant => ?_, fun r terms z ha hown hz => ⟨?_, fun input hinput => ?_⟩⟩
  · exact Decay.withWeight_scaledBy hvalid.sound hdecay (hvalid.objects _ hw) hpoint hfresh hc
      hconstant
  · exact Decay.exists_rescales hdecay ha hpoint hown z
  · exact Decay.setPars_scaledBy hvalid.sound hdecay hpoint hfresh ha hown hz hinput

/-- In the sample session the function that is 2 doubles the norm, and the factor 2i of both
coefficients makes it four times as large. -/
theorem Session.scale_drops_out_massless :
    let s := (Session.after Reals.calls).store
    (s.state Reals.decay.state).norm = 331 / 1700 ∧
    (∃ w out t, .weight w ∈ (Session.after Reals.calls).objects ∧
      (Reals.decay.withWeight w).outcome s = (.ok out, t) ∧
      (t.state out.state).norm = 331 / 850 ∧ Reals.decay.ScaledBy s t out 2) ∧
    ∃ input t, ((Density.model (.decay Reals.decay)).setPars input).outcome s = (.ok ⟨⟩, t) ∧
      (t.state Reals.decay.state).norm = 331 / 425 ∧ Reals.decay.ScaledBy s t Reals.decay 4 := by
  intro s
  obtain ⟨hmem, hsame⟩ := Reals.decay_calls
  obtain ⟨hfresh, hnorm⟩ := Reals.fresh_calls
  obtain ⟨hconstant, hcoefficients⟩ :=
    scale_drops_out Reals.calls Reals.decay hmem Reals.pointwise_calls hfresh
  have hnames : ∀ r : RegistryId, (s.registry r).names = (Reals.cached.registry r).names :=
    fun r => congrArg Registry.names (hsame.registry r)
  have hempty : ∀ r : RegistryId, (Reals.cached.registry r).names = [] →
      ∀ n, n ∉ (s.registry r).names := by
    intro r hr n hn
    rw [hnames, hr] at hn
    exact List.not_mem_nil hn
  constructor
  · exact hnorm
  constructor
  · have htwo : .weight ⟨"two", ⟨3⟩, ⟨4⟩, .constant 2.0⟩ ∈ (Session.after Reals.calls).objects := by
      obtain ⟨t, -, hafter⟩ := Reals.after_calls
      rw [hafter]
      exact List.mem_append_left _ (List.mem_of_getElem? (i := 12) rfl)
    obtain ⟨out, t, hrun, hscaled⟩ := hconstant _ 2 htwo two_pos
      { vars := fun n hn => absurd hn (hempty ⟨3⟩ rfl n)
        pars := fun n hn => absurd hn (hempty ⟨4⟩ rfl n)
        value := ⟨.shared 2.0, fun _ => by norm_num [Quantity.value], fun _ => rfl⟩ }
    refine ⟨_, out, t, htwo, hrun, ?_, hscaled⟩
    rw [hscaled.norm, hnorm]
    norm_num
  · have hown : Reals.decay.OwnCoefficients s (.cons "re1" "im1" (.flat ⟨6⟩ (.ofReal 1))
        (.cons "re2" "im2" (.resonance ⟨7⟩ "m" "g" .of12) .nil)) := by
      refine ⟨?_, fun q hq => ?_, fun w hw => absurd hw List.not_mem_nil⟩
      · show ["re1", "im1", "re2", "im2"].Nodup
        decide
      · obtain rfl | rfl : q = ⟨6⟩ ∨ q = ⟨7⟩ := List.mem_pair.mp hq
        · exact fun n hn => absurd hn (hempty ⟨6⟩ rfl n)
        · intro n hn
          rw [hnames] at hn
          show n ∉ ["re1", "im1", "re2", "im2"]
          obtain rfl | rfl : n = "m" ∨ n = "g" := List.mem_pair.mp hn
          all_goals decide
    obtain ⟨⟨input, hinput⟩, hset⟩ := hcoefficients ⟨5⟩ _ ⟨0, 2⟩ rfl hown (.inr two_ne_zero)
    obtain ⟨t, hrun, hscaled⟩ := hset input hinput
    have hfour : (0 : ℝ) * 0 + 2 * 2 = 4 := by norm_num
    simp only [hfour] at hscaled
    refine ⟨input, t, hrun, ?_, hscaled⟩
    rw [hscaled.norm, hnorm]
    norm_num

end DensityAlgebra
