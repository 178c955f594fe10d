/-
# Densities that are computed point by point

An amplitude or a weight function is pointwise if it comes to one number for each point, the
same whether the point stands alone or in a column; a weight function may be one number for
all points. The numerator of a decay density with a pointwise amplitude and pointwise weight
functions is then a function of the point, and everything that the density computes can be
read off this function: its values at points and at pairs, its integral, and its marginals.

Key definitions: `Quantity.value`, `Decay.Pointwise`, `Decay.Numerator`,
`Decay.normalized`, `Decay.masked`, `Decay.marginal`.
Key theorems: `Decay.pointwise_of_integral`, `Decay.Pointwise.numerator`,
`Decay.Numerator.evaluateAt`, `Decay.Numerator.integral`, `Decay.Numerator.project`.
-/
import DensityAlgebra.Proofs.Views

namespace DensityAlgebra

variable {α β γ δ E : Type}

/-! ### Values of quantities -/

namespace Quantity

/-- What the quantity is at an event. -/
def value : Quantity E β → E → β
  | shared x, _ => x
  | varying f, e => f e

@[simp] theorem value_combine (g : β → γ → δ) (p : Quantity E β) (q : Quantity E γ) (e : E) :
    (p.combine g q).value e = g (p.value e) (q.value e) := by
  cases p <;> cases q <;> rfl

end Quantity

/-! ### Pointwise parts -/

namespace Decay

variable [Scalar α]

/-- The amplitude has one value for each point, and each weight function has one for each
point or one for all. -/
structure Pointwise (s : Store α) (d : Decay α) : Prop where
  amplitude : ∃ A : α × α × α → ComplexNumber α, ∀ ρ : View (α × α × α),
    d.amplitude.evaluate s (Quantity.given (·.1) ρ) (Quantity.given (·.2.1) ρ)
      (Quantity.given (·.2.2) ρ) = .ok ((Quantity.varying A).view ρ)
  weights : ∀ w ∈ d.weights, ∃ q : Quantity (α × α × α) α, ∀ ρ : View (α × α × α),
    w.factor s (d.rolePoint (·.1) (·.2.1) (·.2.2) ρ) = .ok (q.view ρ)

/-- The numerator is a function of the point. -/
def Numerator (s : Store α) (d : Decay α) (f : α × α × α → α) : Prop := ∀ ρ : View (α × α × α),
  d.intensity s (Quantity.given (·.1) ρ) (Quantity.given (·.2.1) ρ) (Quantity.given (·.2.2) ρ) =
    .ok ((Quantity.varying f).view ρ)

variable {s : Store α} {d : Decay α}

theorem weightProduct_append {point : List (String × Given α)} (ws ws' : List (Weight α)) :
    ∀ product, weightProduct s point (ws ++ ws') product =
      weightProduct s point ws product >>= weightProduct s point ws' := by
  induction ws with
  | nil => exact fun _ => rfl
  | cons w ws ih =>
    intro product
    simp only [List.cons_append, weightProduct, ih, bind_assoc]

/-- The product of pointwise weight functions is pointwise. -/
theorem weightProduct_pointwise {point : View E → List (String × Given α)} :
    ∀ {ws : List (Weight α)},
      (∀ w ∈ ws, ∃ q : Quantity E α, ∀ ρ, w.factor s (point ρ) = .ok (q.view ρ)) →
      ∀ product : Quantity E α, ∃ q : Quantity E α, ∀ ρ,
        weightProduct s (point ρ) ws (product.view ρ) = .ok (q.view ρ)
  | [], _, product => ⟨product, fun _ => rfl⟩
  | w :: ws, h, product => by
    rw [List.forall_mem_cons] at h
    obtain ⟨v, hv⟩ := h.1
    obtain ⟨q, hq⟩ := weightProduct_pointwise h.2 (product.combine (fun x y => x * y) v)
    refine ⟨q, fun ρ => ?_⟩
    simp only [weightProduct, hv, ok_bind, Quantity.combine_view, hq]

/-- Where every factor of a product has a value, so has the product of the first ones. -/
theorem factor_of_weightProduct {point : List (String × Given α)} :
    ∀ {ws : List (Weight α)} {product v : Value α},
      weightProduct s point ws product = .ok v → ∀ w ∈ ws, ∃ x, w.factor s point = .ok x
  | [], _, _, _ => by simp
  | w :: ws, product, v, h => by
    obtain ⟨x, hx, h⟩ := bind_eq_ok_iff.mp h
    obtain ⟨y, -, h⟩ := bind_eq_ok_iff.mp h
    exact List.forall_mem_cons.mpr ⟨⟨x, hx⟩, factor_of_weightProduct h⟩

section

variable (hα : Scalar.PowersAgree α)

include hα

/-- The numerator is the squared magnitude of the amplitude times the product of the weight
functions, or zero if that is negative. -/
theorem numerator_of_parts {A : α × α × α → ComplexNumber α} {p : Quantity (α × α × α) α}
    (hA : ∀ ρ : View (α × α × α), d.amplitude.evaluate s (Quantity.given (·.1) ρ)
      (Quantity.given (·.2.1) ρ) (Quantity.given (·.2.2) ρ) = .ok ((Quantity.varying A).view ρ))
    (hp : ∀ ρ : View (α × α × α),
      weightProduct s (d.rolePoint (·.1) (·.2.1) (·.2.2) ρ) d.weights (.scalar 1.0) =
        .ok (p.view ρ)) :
    d.Numerator s fun e => Scalar.selfProduct (A e).magnitude * Scalar.max (p.value e) 0.0 := by
  intro ρ
  have hweight : d.weight s (Quantity.given (·.1) ρ) (Quantity.given (·.2.1) ρ)
      (Quantity.given (·.2.2) ρ) = .ok ((p.map (Scalar.max · 0.0)).view ρ) := by
    have hproduct := hp ρ
    unfold rolePoint at hproduct
    simp only [weight, hproduct, ok_bind, Quantity.map_view]
    rfl
  unfold intensity
  simp only [hA, hweight, ok_bind, ← Quantity.map_view, ← Quantity.square_view fun _ => hα,
    Quantity.combine_view]
  cases p <;> rfl

/-- **The numerator of a pointwise density is a function of the point.** -/
theorem Pointwise.numerator (h : d.Pointwise s) : ∃ f, d.Numerator s f := by
  obtain ⟨A, hA⟩ := h.amplitude
  obtain ⟨p, hp⟩ := weightProduct_pointwise h.weights (.shared 1.0)
  exact ⟨_, numerator_of_parts hα hA hp⟩

/-- **A decay density that has an integral is pointwise**, if its parameters are single numbers
and each sum in its amplitude has a term. -/
theorem pointwise_of_integral (hd : (Model.decay d).Valid s) (hpars : (Model.decay d).Scalars s)
    (hsum : d.amplitude.Summed) {x : α} (hx : d.integral s = .ok x) : d.Pointwise s := by
  -- the integral has evaluated all parts at a batch of points
  obtain ⟨⟨xs, dx⟩, -, hx⟩ := bind_eq_ok_iff.mp hx
  obtain ⟨⟨ys, dy⟩, -, hx⟩ := bind_eq_ok_iff.mp hx
  obtain ⟨v, hv, -⟩ := bind_eq_ok_iff.mp hx
  obtain ⟨z, hz, hv⟩ := bind_eq_ok_iff.mp hv
  obtain ⟨u, hu, -⟩ := bind_eq_ok_iff.mp hv
  obtain ⟨product, hproduct, -⟩ := bind_eq_ok_iff.mp hu
  have hamplitude : ∀ r ∈ d.amplitude.registries, s.Scalars r := fun r hr =>
    hpars r ((Model.decay d).partPars_subset (List.mem_append_left _ hr))
  let ρ : View (α × α × α) := .batch (insidePoints d.space xs ys)
  constructor
  · obtain ⟨q, hq, hall⟩ := Uniform.returns (ρ := ρ) (Amplitude.evaluate_uniform (E := α × α × α)
      (·.1) (·.2.1) (·.2.2) d.amplitude hsum hamplitude) hz
    obtain ⟨A, rfl⟩ := hq.exists_eq
    exact ⟨A, hall⟩
  · intro w hw
    obtain ⟨y, hy⟩ := factor_of_weightProduct hproduct w hw
    obtain ⟨q, -, hall⟩ := Uniform.returns (ρ := ρ)
      (Weight.factor_uniform (fun _ => hα) hd hpars (E := α × α × α) (·.1) (·.2.1) (·.2.2) hw) hy
    exact ⟨q, hall⟩

end

/-! ### What is computed from the numerator -/

/-- The numerator over the stored normalization. -/
def normalized (s : Store α) (d : Decay α) (f : α × α × α → α) (e : α × α × α) : α :=
  f e / (s.state d.state).norm

namespace Numerator

variable {f : α × α × α → α} (h : d.Numerator s f)

include h

theorem intensity (a b c : E → α) (ρ : View E) :
    d.intensity s (Quantity.given a ρ) (Quantity.given b ρ) (Quantity.given c ρ) =
      .ok ((Quantity.varying fun e => f (a e, b e, c e)).view ρ) := by
  have hpoint := h (ρ.map fun e => (a e, b e, c e))
  simpa only [Quantity.given, Quantity.varying_view_map] using hpoint

theorem densityAt (a b c : E → α) (ρ : View E) :
    d.densityAt s (Quantity.given a ρ) (Quantity.given b ρ) (Quantity.given c ρ) =
      .ok ((Quantity.varying fun e => normalized s d f (a e, b e, c e)).view ρ) := by
  have hmap := Quantity.map_view (· / (s.state d.state).norm)
    (Quantity.varying fun e => f (a e, b e, c e)) ρ
  unfold Decay.densityAt
  rw [h.intensity a b c ρ]
  exact congrArg Except.ok hmap.symm

/-- **The density at a point** is the numerator over the stored normalization. -/
theorem evaluateAt (a b c : E → α) (ρ : View E) :
    d.evaluateAt s ((Quantity.varying a).view ρ) ((Quantity.varying b).view ρ)
        (some ((Quantity.varying c).view ρ)) =
      .ok ((Quantity.varying fun e => normalized s d f (a e, b e, c e)).view ρ) :=
  h.densityAt a b c ρ

/-- So it is at a pair, with what is left for the third. -/
theorem evaluateAt_pair (a b : E → α) (ρ : View E) :
    d.evaluateAt s ((Quantity.varying a).view ρ) ((Quantity.varying b).view ρ) none =
      .ok ((Quantity.varying fun e =>
        normalized s d f (a e, b e, d.space.third (a e) (b e))).view ρ) := by
  have hthird : d.third ((Quantity.varying a).view ρ) ((Quantity.varying b).view ρ) =
      .ok ((Quantity.varying fun e => d.space.third (a e) (b e)).view ρ) :=
    Quantity.combine_view _ _ _ ρ
  unfold Decay.evaluateAt
  simp only [hthird]
  exact h.densityAt a b (fun e => d.space.third (a e) (b e)) ρ

/-- **The integral** adds up the numerator at the points inside. -/
theorem integral {xs ys : List α} {dx dy : α}
    (hx : Grid.bins (d.space.sqMin .of12) (d.space.sqMax .of12) (s.state d.state).resolution =
      (.ok (xs, dx) : Except (Fault α) _))
    (hy : Grid.bins (d.space.sqMin .of13) (d.space.sqMax .of13) (s.state d.state).resolution =
      (.ok (ys, dy) : Except (Fault α) _)) :
    d.integral s = .ok (Scalar.sum ((insidePoints d.space xs ys).map f) * dx * dy) := by
  have hbatch := h (.batch (insidePoints d.space xs ys))
  unfold Decay.integral
  simp only [hx, hy, ok_bind]
  exact congrArg (fun x => x >>= fun v : Value α => Except.ok (v.total * dx * dy)) hbatch

end Numerator

/-! ### Marginals -/

omit [Scalar α] in
/-- The pieces of a table are its rows. -/
theorem rows_flatMap {n : Nat} (g : β → List α) (hg : ∀ x, (g x).length = n) :
    ∀ xs : List β, rows n xs.length (xs.flatMap g) = xs.map g
  | [] => rfl
  | x :: xs => by
    have htake : (g x ++ xs.flatMap g).take n = g x := List.take_left' (hg x)
    have hdrop : (g x ++ xs.flatMap g).drop n = xs.flatMap g := List.drop_left' (hg x)
    rw [List.flatMap_cons, List.length_cons, rows, htake, hdrop, rows_flatMap g hg xs]
    rfl

/-- What was taken out of a list goes back to its places. -/
theorem scatter_filter (p : β → Bool) (g : β → α) : ∀ xs : List β,
    scatter (xs.map p) ((xs.filter p).map g) = xs.map fun x => if p x then g x else 0.0
  | [] => rfl
  | x :: xs => by
    have ih := scatter_filter p g xs
    cases hx : p x <;> simp [hx, scatter, ih]

/-- What a function is inside of the Dalitz region; outside it is zero. -/
def masked (p : PhaseSpace α) (f : α × α × α → α) (e : α × α × α) : α :=
  if p.contains Scalar.selfProduct e.1 e.2.1 e.2.2 then f e else 0.0

/-- The marginal of a function in the variable in role `i` at `x`: the sum over the midpoints
`ys` of the next variable. -/
def marginal (p : PhaseSpace α) (f : α × α × α → α) (i : Pair) (ys : List α) (dy x : α) : α :=
  Scalar.sum (ys.map fun y => masked p f (placed p i x y)) * dy

namespace Numerator

variable {f : α × α × α → α} (h : d.Numerator s f) {i : Pair} {ys : List α} {dy : α}
  (hy : Grid.bins (d.space.sqMin i.next) (d.space.sqMax i.next) (s.state d.state).resolution =
    (.ok (ys, dy) : Except (Fault α) _))

include h hy

/-- Marginals are taken row by row. -/
theorem projectColumn (xs : List α) :
    d.projectColumn s i xs = .ok (xs.map (marginal d.space (normalized s d f) i ys dy)) := by
  set points := xs.flatMap fun x => ys.map fun y => placed d.space i x y with hpoints
  set p : α × α × α → Bool := fun e => d.space.contains Scalar.selfProduct e.1 e.2.1 e.2.2
  set vs := (points.filter p).map (normalized s d f) with hvs
  have hinside : d.evaluateAt s (.column ((points.filter p).map (·.1)))
      (.column ((points.filter p).map (·.2.1))) (some (.column ((points.filter p).map (·.2.2)))) =
        .ok (.column vs) :=
    h.evaluateAt (E := α × α × α) (·.1) (·.2.1) (·.2.2) (.batch (points.filter p))
  have hrepeat : (Value.column vs).repeatTo (points.filter p).length =
      (.ok vs : Except (Fault α) _) := if_pos (List.length_map _)
  have hrows : rows ys.length xs.length (scatter (points.map p) vs) =
      xs.map fun x => ys.map fun y => masked d.space (normalized s d f) (placed d.space i x y) := by
    rw [hvs, scatter_filter, hpoints, List.map_flatMap]
    simp only [List.map_map]
    exact rows_flatMap _ (fun x => List.length_map _) xs
  refine bind_eq_ok_iff.mpr ⟨_, hy, bind_eq_ok_iff.mpr ⟨_, hinside,
    bind_eq_ok_iff.mpr ⟨_, hrepeat, ?_⟩⟩⟩
  refine congrArg Except.ok ((congrArg (List.map _) hrows).trans ?_)
  rw [List.map_map]
  rfl

/-- **The marginal density of a variable** at a value, or at a column of them. -/
theorem project {name : String} (hi : d.roleOf? name = some i) (a : E → α) (ρ : View E) :
    d.project s name ((Quantity.varying a).view ρ) =
      .ok ((Quantity.varying fun e =>
        marginal d.space (normalized s d f) i ys dy (a e)).view ρ) := by
  unfold Decay.project
  rw [hi]
  cases ρ with
  | event _ e =>
    show (d.projectColumn s i [a e] >>= _) = _
    rw [h.projectColumn hy]
    rfl
  | batch es =>
    show (d.projectColumn s i (es.map a) >>= _) = _
    rw [h.projectColumn hy, List.map_map]
    rfl

end Numerator

end Decay

end DensityAlgebra
