/-
# One event, or a batch of them

An event has a number for each variable, a batch of events a column. A quantity of events
is one number for all of them, or one for each: seen for one event it is a number, and seen
for a batch it is a column as long as the batch, unless it is the same for all events; then
it stays a single number. A computation is uniform if it fails alike in every view, or comes
to one quantity, seen in the view. Arithmetic on values is uniform, and what it makes of a
quantity that varies does vary.

Powers of a number alone may be taken in another way than those of a number in a column. So
they are uniform in the views of batches, and in those of single events where powers agree.

Amplitudes, weight functions and densities are uniform as well, if parameters are single
numbers. A density varies: a decay density does so because each sum in its amplitude has a
term. Whether it has a value does not depend on the event, so a decay density that has an
integral has a value everywhere.

Key definitions: `View`, `Quantity`, `Quantity.view`, `Uniform`, `Scalar.PowersAgree`,
`Model.Elementary`.
Key theorems: `Quantity.combine_view`, `Uniform.bind`, `Amplitude.evaluate_uniform`,
`Decay.densityAt_uniform`, `Decay.densityAt_returns`, `Model.density_uniform`.
-/
import DensityAlgebra.Proofs.Points

namespace DensityAlgebra

variable {α β γ δ ε E E' : Type} {lone : Prop}

/-! ### Quantities of events -/

/-- What is looked at: a batch of events, or one event alone if such are looked at. -/
inductive View (E : Type) (lone : Prop := True) where
  | event (h : lone) (e : E)
  | batch (es : List E)

/-- The view where each event is replaced. -/
def View.map (g : E → E') : View E lone → View E' lone
  | event h e => .event h (g e)
  | batch es => .batch (es.map g)

/-- One number for all events, or one for each. -/
inductive Quantity (E β : Type) where
  | shared (x : β)
  | varying (f : E → β)

namespace Quantity

/-- What there is of a quantity in a view. -/
def view : Quantity E β → View E lone → Value β
  | shared x, _ => .scalar x
  | varying f, .event _ e => .scalar (f e)
  | varying f, .batch es => .column (es.map f)

def map (g : β → γ) : Quantity E β → Quantity E γ
  | shared x => shared (g x)
  | varying f => varying fun e => g (f e)

def combine (g : β → γ → δ) : Quantity E β → Quantity E γ → Quantity E δ
  | shared x, shared y => shared (g x y)
  | shared x, varying h => varying fun e => g x (h e)
  | varying f, shared y => varying fun e => g (f e) y
  | varying f, varying h => varying fun e => g (f e) (h e)

/-- The square, taken in the way of a number alone if it is one for all events. -/
def square [Scalar α] : Quantity E α → Quantity E α
  | shared x => shared (Scalar.square x)
  | varying f => varying fun e => Scalar.selfProduct (f e)

/-- The power, which an exponent for all events shares. -/
def power [Scalar α] : Quantity E α → Quantity E α → Quantity E α
  | p, shared y => p.map (Scalar.sharedPower y)
  | p, varying h => p.combine Scalar.pow (varying h)

/-- The quantity is one for each event. -/
def Varies : Quantity E β → Prop
  | shared _ => False
  | varying _ => True

theorem Varies.exists_eq {q : Quantity E β} (h : q.Varies) : ∃ f, q = varying f := by
  cases q with
  | shared x => exact absurd h id
  | varying f => exact ⟨f, rfl⟩

theorem Varies.map {q : Quantity E β} (h : q.Varies) (g : β → γ) : (q.map g).Varies := by
  cases q with
  | shared x => exact h
  | varying f => exact h

theorem Varies.combine {p : Quantity E β} {q : Quantity E γ} (h : p.Varies ∨ q.Varies)
    (g : β → γ → δ) : (p.combine g q).Varies := by
  cases p with
  | varying f => cases q <;> trivial
  | shared x =>
    cases q with
    | varying f => trivial
    | shared y => exact h.elim id id

theorem Varies.square [Scalar α] {q : Quantity E α} (h : q.Varies) : q.square.Varies := by
  cases q with
  | shared x => exact h
  | varying f => trivial

theorem Varies.power [Scalar α] {p q : Quantity E α} (h : p.Varies ∨ q.Varies) :
    (p.power q).Varies := by
  cases q with
  | shared y => exact (h.resolve_right id).map _
  | varying f =>
    have hvaries : (varying f).Varies := trivial
    exact Varies.combine (.inr hvaries) _

theorem varying_view_map (f : E' → β) (g : E → E') (ρ : View E lone) :
    (varying f).view (ρ.map g) = (varying fun e => f (g e)).view ρ := by
  cases ρ with
  | event _ e => rfl
  | batch es => exact congrArg Value.column List.map_map

/-- A function is applied in every view. -/
theorem map_view (g : β → γ) (q : Quantity E β) (ρ : View E lone) :
    (q.map g).view ρ = (q.view ρ).map g := by
  cases q with
  | shared x => rfl
  | varying f =>
    cases ρ with
    | event _ e => rfl
    | batch es => exact congrArg Value.column (List.map_map (f := f) (g := g)).symm

/-- **Quantities combine in every view.** -/
theorem combine_view (g : β → γ → δ) (p : Quantity E β) (q : Quantity E γ) (ρ : View E lone) :
    Value.combine g (p.view ρ) (q.view ρ) =
      (.ok ((p.combine g q).view ρ) : Except (Fault α) (Value δ)) := by
  cases p with
  | shared x =>
    cases q with
    | shared y => rfl
    | varying h =>
      cases ρ with
      | event _ e => rfl
      | batch es =>
        show Except.ok (Value.column ((es.map h).map (g x))) = _
        rw [List.map_map]
        rfl
  | varying f =>
    cases q with
    | shared y =>
      cases ρ with
      | event _ e => rfl
      | batch es =>
        show Except.ok (Value.column ((es.map f).map (g · y))) = _
        rw [List.map_map]
        rfl
    | varying h =>
      cases ρ with
      | event _ e => rfl
      | batch es =>
        have hlength : (es.map f).length = (es.map h).length := by simp
        have hzip : List.zipWith g (es.map f) (es.map h) = es.map fun e => g (f e) (h e) := by
          rw [List.zipWith_map, List.zipWith_self]
        show (if (es.map f).length = (es.map h).length then _ else _) = _
        rw [if_pos hlength, hzip]
        rfl

end Quantity

/-! ### Uniform computations -/

/-- The computation fails alike in every view, or it comes to one thing with the property
`P`, as it looks in the view. -/
def Uniform (look : β → View E lone → γ) (P : β → Prop) (x : View E lone → Except (Fault α) γ) :
    Prop :=
  (∃ e, ∀ ρ, x ρ = .error e) ∨ ∃ b, P b ∧ ∀ ρ, x ρ = .ok (look b ρ)

namespace Uniform

variable {look : β → View E lone → γ} {P Q : β → Prop} {x : View E lone → Except (Fault α) γ}

theorem ok {b : β} (h : P b) : Uniform look P fun ρ => (.ok (look b ρ) : Except (Fault α) γ) :=
  .inr ⟨b, h, fun _ => rfl⟩

theorem error (e : Fault α) : Uniform look P fun _ => (.error e : Except (Fault α) γ) :=
  .inl ⟨e, fun _ => rfl⟩

theorem mono (h : Uniform look P x) (hPQ : ∀ b, P b → Q b) : Uniform look Q x :=
  h.imp id fun ⟨b, hb, hx⟩ => ⟨b, hPQ b hb, hx⟩

/-- A sequence is uniform if its parts are. -/
theorem bind {β' γ' : Type} {look' : β' → View E lone → γ'} {R : β' → Prop}
    {k : View E lone → γ → Except (Fault α) γ'} (hx : Uniform look P x)
    (hk : ∀ b, P b → Uniform look' R fun ρ => k ρ (look b ρ)) :
    Uniform look' R fun ρ => x ρ >>= k ρ := by
  rcases hx with ⟨e, he⟩ | ⟨b, hb, hx⟩
  · exact .inl ⟨e, fun ρ => congrArg (· >>= k ρ) (he ρ)⟩
  · have hrest : ∀ ρ, x ρ >>= k ρ = k ρ (look b ρ) := fun ρ => congrArg (· >>= k ρ) (hx ρ)
    rcases hk b hb with ⟨e, he⟩ | ⟨c, hc, hc'⟩
    · exact .inl ⟨e, fun ρ => (hrest ρ).trans (he ρ)⟩
    · exact .inr ⟨c, hc, fun ρ => (hrest ρ).trans (hc' ρ)⟩

/-- What does not depend on the view is uniform. -/
theorem fixed_bind {y : Except (Fault α) δ} {k : View E lone → δ → Except (Fault α) γ}
    (hk : ∀ c, y = .ok c → Uniform look P fun ρ => k ρ c) :
    Uniform look P fun ρ => y >>= k ρ := by
  cases y with
  | error e => exact error e
  | ok c => exact hk c rfl

/-- If it comes to something in one view, it does so in all. -/
theorem returns (h : Uniform look P x) {ρ : View E lone} {v : γ} (hv : x ρ = .ok v) :
    ∃ b, P b ∧ ∀ ρ, x ρ = .ok (look b ρ) := by
  rcases h with ⟨e, he⟩ | hb
  · cases (he ρ).symm.trans hv
  · exact hb

theorem map {x : View E lone → Except (Fault α) (Value β)} {P : Quantity E β → Prop}
    {Q : Quantity E γ → Prop} (h : Uniform Quantity.view P x) (g : β → γ)
    (hPQ : ∀ q, P q → Q (q.map g)) :
    Uniform Quantity.view Q fun ρ => do return (← x ρ).map g := by
  refine h.bind fun q hq => .inr ⟨q.map g, hPQ q hq, fun ρ => ?_⟩
  rw [q.map_view]
  rfl

theorem combine (g : β → γ → δ) (p : Quantity E β) (q : Quantity E γ) :
    Uniform (α := α) Quantity.view (fun r => p.Varies ∨ q.Varies → r.Varies)
      fun ρ : View E lone => Value.combine g (p.view ρ) (q.view ρ) :=
  .inr ⟨p.combine g q, fun h => Quantity.Varies.combine h g, p.combine_view g q⟩

theorem combine₃ (g : β → γ → δ → ε) (p : Quantity E β) (q : Quantity E γ) (r : Quantity E δ)
    (h : p.Varies) : Uniform (α := α) Quantity.view Quantity.Varies
      fun ρ : View E lone => Value.combine₃ g (p.view ρ) (q.view ρ) (r.view ρ) :=
  (combine _ p q).bind fun z hz => (combine _ z r).mono fun _ hw => hw (.inl (hz (.inl h)))

end Uniform

/-! ### Values and formulas -/

/-- Powers are the same for a number that stands alone and for one of many, as in exact
arithmetic. -/
structure Scalar.PowersAgree (α : Type) [Scalar α] : Prop where
  square : ∀ x : α, Scalar.square x = Scalar.selfProduct x
  shared : ∀ y x : α, Scalar.sharedPower y x = Scalar.pow x y

section

variable [Scalar α]

/-- Squares are taken in every view, if powers agree where events are looked at alone. -/
theorem Quantity.square_view (hα : lone → Scalar.PowersAgree α) (q : Quantity E α)
    (ρ : View E lone) : q.square.view ρ = (q.view ρ).square := by
  cases q with
  | shared x => rfl
  | varying f =>
    cases ρ with
    | event h e => exact congrArg Value.scalar ((hα h).square (f e)).symm
    | batch es =>
      have hmap : (es.map f).map Scalar.selfProduct = es.map fun e => Scalar.selfProduct (f e) :=
        List.map_map
      exact congrArg Value.column hmap.symm

/-- An exponent for each event is not shared. -/
theorem Quantity.power_batch (p : Quantity E α) (h : E → α) (es : List E) :
    (p.view (.batch es : View E lone)).power (.column (es.map h)) =
      .ok ((p.combine Scalar.pow (varying h)).view (.batch es : View E lone)) := by
  rw [← combine_view]
  -- one exponent in a column would be repeated, but then there is one event
  match p, es with
  | shared x, [] | shared x, [e] | shared x, e :: e' :: es => rfl
  | varying f, [] | varying f, [e] | varying f, e :: e' :: es => rfl

/-- So are powers. -/
theorem Quantity.power_view (hα : lone → Scalar.PowersAgree α) (p q : Quantity E α)
    (ρ : View E lone) : (p.view ρ).power (q.view ρ) = .ok ((p.power q).view ρ) := by
  cases q with
  | shared y => exact congrArg Except.ok (map_view _ p ρ).symm
  | varying h =>
    cases ρ with
    | event hlone e =>
      have hpow := (hα hlone).shared (h e)
      cases p <;> exact congrArg (fun x => Except.ok (Value.scalar x)) (hpow _)
    | batch es => cases p <;> exact power_batch _ h es

theorem Uniform.power (hα : lone → Scalar.PowersAgree α) (p q : Quantity E α) :
    Uniform Quantity.view (fun r => p.Varies ∨ q.Varies → r.Varies)
      fun ρ : View E lone => (p.view ρ).power (q.view ρ) :=
  .inr ⟨p.power q, Quantity.Varies.power, p.power_view hα q⟩

theorem Formula.Binary.combine_uniform (hα : lone → Scalar.PowersAgree α) (f : Formula.Binary)
    (p q : Quantity E α) : Uniform Quantity.view (fun r => p.Varies ∨ q.Varies → r.Varies)
      fun ρ : View E lone => f.combine (p.view ρ) (q.view ρ) := by
  cases f with
  | pow => exact Uniform.power hα p q
  | _ => exact Uniform.combine _ p q

/-- A formula is uniform where its arguments are. -/
theorem Formula.evaluate_uniform (hα : lone → Scalar.PowersAgree α)
    {env : View E lone → String → Except (Fault α) (Value α)}
    (henv : ∀ n, Uniform Quantity.view (fun _ => True) fun ρ => env ρ n) : ∀ body : Formula α,
    Uniform Quantity.view (fun _ => True) fun ρ => body.evaluate (env ρ)
  | .argument n => henv n
  | .constant x => Uniform.ok (b := Quantity.shared x) trivial
  | .unary f x => (Formula.evaluate_uniform hα henv x).map f.apply fun _ _ => trivial
  | .binary f x y => by
    refine (Formula.evaluate_uniform hα henv x).bind fun p _ => ?_
    refine (Formula.evaluate_uniform hα henv y).bind fun q _ => ?_
    exact (f.combine_uniform hα p q).mono fun _ _ => trivial

/-! ### Parameters -/

/-- The values under the names of a registry are single numbers. -/
def Store.Scalars (s : Store α) (r : RegistryId) : Prop :=
  ∀ n v, s.value? r n = some v → ∃ x, v = .scalar x

theorem Store.Scalars.lookup {s : Store α} {r : RegistryId} (h : s.Scalars r) {n : String}
    {v : Content α} (hv : s.lookup r n = .ok v) : ∃ x, v = .scalar x :=
  h n v (Store.lookup_eq_ok_iff.mp hv)

/-- Whether a content is a single number. -/
def Content.isScalar : Content α → Bool
  | .scalar _ => true
  | _ => false

theorem Store.scalars_of_currentValues {s : Store α} {r : RegistryId}
    (h : ∀ e ∈ s.currentValues r, e.2.isScalar = true) : s.Scalars r := by
  intro n v hv
  have hsingle := h (n, v) (Store.mem_currentValues hv)
  rcases v with (x | xs) | d | x
  · exact ⟨x, rfl⟩
  all_goals cases hsingle

theorem Store.Scalars.of_under {s : Store α} {q r : RegistryId} (h : s.Scalars r)
    (hqr : (s.registry q).Under (s.registry r)) : s.Scalars q := fun n v hv =>
  h n v (Store.value?_of_under hqr hv)

/-! ### Amplitudes -/

mutual

/-- Every sum has a term. -/
def Amplitude.Summed : Amplitude α → Prop
  | .flat .. => True
  | .resonance .. => True
  | .sum _ terms => terms ≠ .nil ∧ terms.Summed

def Amplitude.Terms.Summed : Amplitude.Terms α → Prop
  | .nil => True
  | .cons _ _ factor rest => factor.Summed ∧ rest.Summed

end

mutual

def Amplitude.decidableSummed : (A : Amplitude α) → Decidable A.Summed
  | .flat .. => .isTrue trivial
  | .resonance .. => .isTrue trivial
  | .sum _ .nil => .isFalse fun h => h.1 rfl
  | .sum _ (.cons re im factor rest) =>
    match Amplitude.Terms.decidableSummed (.cons re im factor rest) with
    | .isTrue h => .isTrue ⟨nofun, h⟩
    | .isFalse h => .isFalse fun h' => h h'.2

def Amplitude.Terms.decidableSummed : (ts : Amplitude.Terms α) → Decidable ts.Summed
  | .nil => .isTrue trivial
  | .cons _ _ factor rest =>
    match Amplitude.decidableSummed factor, Amplitude.Terms.decidableSummed rest with
    | .isTrue h, .isTrue h' => .isTrue ⟨h, h'⟩
    | .isFalse h, _ => .isFalse fun h' => h h'.1
    | _, .isFalse h => .isFalse fun h' => h h'.2

end

instance : DecidablePred (Amplitude.Summed (α := α)) := Amplitude.decidableSummed

/-- What is given for a variable in a view. -/
def Quantity.given (f : E → α) (ρ : View E lone) : Given α := .value ((varying f).view ρ)

theorem Amplitude.massSquare_eq_ok {m : α} {v : Value α} (h : massSquare (.scalar m) = .ok v) :
    ∃ x, v = .scalar x := by
  unfold massSquare at h
  cases hm : Scalar.square? m with
  | none => simp only [hm] at h; cases h
  | some y => simp only [hm] at h; exact ⟨y, (Except.ok.inj h).symm⟩

/-- The propagator varies with the mass of the pair. -/
theorem Amplitude.propagator_uniform (m width : α) (q : Quantity E α) (hq : q.Varies) :
    Uniform Quantity.view Quantity.Varies fun ρ : View E lone =>
      propagator (.scalar m) (.scalar width) (q.view ρ) := by
  refine Uniform.fixed_bind fun y hy => ?_
  obtain ⟨x, rfl⟩ := massSquare_eq_ok hy
  refine (Uniform.combine _ (.shared x) q).bind fun d hd => ?_
  refine Uniform.fixed_bind fun g hg => ?_
  obtain rfl := Except.ok.inj hg
  refine Uniform.map ((Uniform.combine _ d (.shared _)).mono fun _ h => h (.inl (hd (.inr hq)))) _
    fun _ h => h.map _

section

variable {s : Store α} (a b c : E → α)

mutual

/-- **An amplitude is uniform and varies.** -/
theorem Amplitude.evaluate_uniform : ∀ A : Amplitude α, A.Summed →
    (∀ r ∈ A.registries, s.Scalars r) →
    Uniform Quantity.view Quantity.Varies fun ρ : View E lone =>
      A.evaluate s (Quantity.given a ρ) (Quantity.given b ρ) (Quantity.given c ρ)
  | .flat r z, _, _ => by
    have hextent : ∀ (f : E → α) (ρ : View E lone), (Quantity.given f ρ).extent =
        ((Quantity.varying f).map fun _ => ()).view ρ := fun f ρ => (Quantity.map_view _ _ ρ).symm
    simp only [Amplitude.evaluate, hextent]
    exact Uniform.combine₃ _ _ _ _ trivial
  | .resonance r mass width channel, _, hr => by
    have hscalars : s.Scalars r := hr r (List.mem_singleton_self r)
    refine Uniform.fixed_bind fun m hm => Uniform.fixed_bind fun g hg => ?_
    obtain ⟨x, rfl⟩ := hscalars.lookup hm
    obtain ⟨y, rfl⟩ := hscalars.lookup hg
    have hselect : ∀ ρ : View E lone, (channel.select (Quantity.given a ρ) (Quantity.given b ρ)
        (Quantity.given c ρ)).read =
          (.ok ((Quantity.varying (channel.select a b c)).view ρ) : Except (Fault α) _) := by
      cases channel <;> exact fun ρ => rfl
    simp only [hselect]
    exact Amplitude.propagator_uniform x y _ trivial
  | .sum r terms, h, hr =>
    (Amplitude.Terms.evaluate_uniform terms r (.shared .zero) h.2 fun q hq =>
      hr q (List.mem_cons_of_mem _ hq)).mono fun _ hvaries => hvaries (.inr h.1)

/-- So are terms, and their sum varies if there is one. -/
theorem Amplitude.Terms.evaluate_uniform : ∀ (ts : Amplitude.Terms α) (r : RegistryId)
    (total : Quantity E (ComplexNumber α)), ts.Summed → (∀ q ∈ ts.registries, s.Scalars q) →
    Uniform Quantity.view (fun q => total.Varies ∨ ts ≠ .nil → q.Varies) fun ρ : View E lone =>
      ts.evaluate s r (Quantity.given a ρ) (Quantity.given b ρ) (Quantity.given c ρ)
        (total.view ρ)
  | .nil, _, total, _, _ => Uniform.ok (b := total) fun h => h.resolve_right (not_not_intro rfl)
  | .cons re im factor rest, r, total, h, hr => by
    refine Uniform.fixed_bind fun z _ => ?_
    refine (Amplitude.evaluate_uniform factor h.1 fun q hq =>
      hr q (List.mem_append_left _ hq)).bind fun p hp => ?_
    simp only [← Quantity.map_view]
    refine (Uniform.combine _ total (p.map z.mul)).bind fun sum hsum => ?_
    refine (Amplitude.Terms.evaluate_uniform rest r sum h.2 fun q hq =>
      hr q (List.mem_append_right _ hq)).mono fun _ hq _ => ?_
    exact hq (.inl (hsum (.inr (hp.map _))))

end

end

/-! ### Weight functions -/

/-- The parameters of a density are single numbers. -/
def Model.Scalars (s : Store α) (m : Model α) : Prop := ∀ r ∈ m.parRegistries, s.Scalars r

/-- What is given for a role. -/
def Decay.rolePoint (d : Decay α) (a b c : E → α) (ρ : View E lone) : List (String × Given α) :=
  [(d.role12, Quantity.given a ρ), (d.role13, Quantity.given b ρ), (d.role23, Quantity.given c ρ)]

omit [Scalar α] in
/-- What is given for a role is a quantity. -/
theorem Decay.lookup_rolePoint {d : Decay α} (a b c : E → α) {n : String} (hn : n ∈ d.roles) :
    ∃ f : E → α, ∀ ρ : View E lone, (d.rolePoint a b c ρ).lookup n = some (Quantity.given f ρ) := by
  by_cases h12 : n = d.role12
  · subst h12
    exact ⟨a, fun ρ => List.lookup_cons_self⟩
  by_cases h13 : n = d.role13
  · subst h13
    refine ⟨b, fun ρ => ?_⟩
    rw [rolePoint, List.lookup_cons, beq_false_of_ne h12]
    exact List.lookup_cons_self
  · have h23 : n = d.role23 := by simpa [roles, h12, h13] using hn
    subst h23
    refine ⟨c, fun ρ => ?_⟩
    rw [rolePoint, List.lookup_cons, beq_false_of_ne h12, List.lookup_cons, beq_false_of_ne h13]
    exact List.lookup_cons_self

section

variable {s : Store α} {d : Decay α} (hα : lone → Scalar.PowersAgree α)
  (hd : (Model.decay d).Valid s) (hpars : (Model.decay d).Scalars s) (a b c : E → α)

include hα hd hpars

theorem Weight.factor_uniform {w : Weight α} (hw : w ∈ d.weights) :
    Uniform Quantity.view (fun _ => True) fun ρ : View E lone =>
      w.factor s (d.rolePoint a b c ρ) := by
  refine Formula.evaluate_uniform hα (fun n => ?_) w.body
  unfold argument
  cases hc : (s.registry w.vars).find? n with
  | some cell =>
    obtain ⟨f, hf⟩ : ∃ f : E → α, ∀ ρ : View E lone,
        (d.rolePoint a b c ρ).lookup n = some (Quantity.given f ρ) :=
      Decay.lookup_rolePoint a b c
        (hd.weight_names_subset hw (Registry.mem_names_of_find? hc))
    simp only [hf]
    exact Uniform.ok (b := Quantity.varying f) trivial
  | none =>
    have hmem : w.pars ∈ (Model.decay d).parRegistries :=
      (Model.decay d).partPars_subset (List.mem_append_right _ (List.mem_map_of_mem hw))
    refine Uniform.fixed_bind fun g hg => ?_
    obtain ⟨v, hv, hg⟩ := bind_eq_ok_iff.mp hg
    obtain ⟨x, rfl⟩ := (hpars _ hmem).lookup hv
    obtain rfl := Except.ok.inj hg
    exact Uniform.ok (b := Quantity.shared x) trivial

theorem Decay.weightProduct_uniform : ∀ (ws : List (Weight α)) (product : Quantity E α),
    ws ⊆ d.weights → Uniform Quantity.view (fun _ => True) fun ρ : View E lone =>
      weightProduct s (d.rolePoint a b c ρ) ws (product.view ρ)
  | [], product, _ => Uniform.ok (b := product) trivial
  | w :: rest, product, h => by
    rw [List.cons_subset] at h
    refine (Weight.factor_uniform hα hd hpars a b c h.1).bind fun v _ => ?_
    exact (Uniform.combine _ product v).bind fun p _ =>
      Decay.weightProduct_uniform rest p h.2

/-! ### Decay densities -/

/-- **The intensity is uniform and varies.** -/
theorem Decay.intensity_uniform (hsum : d.amplitude.Summed) :
    Uniform Quantity.view Quantity.Varies fun ρ : View E lone =>
      d.intensity s (Quantity.given a ρ) (Quantity.given b ρ) (Quantity.given c ρ) := by
  have hamplitude : ∀ r ∈ d.amplitude.registries, s.Scalars r := fun r hr =>
    hpars r ((Model.decay d).partPars_subset (List.mem_append_left _ hr))
  have hweight : Uniform Quantity.view (fun _ => True) fun ρ : View E lone =>
      d.weight s (Quantity.given a ρ) (Quantity.given b ρ) (Quantity.given c ρ) :=
    (weightProduct_uniform hα hd hpars a b c d.weights (.shared 1.0)
      (List.Subset.refl _)).map (Scalar.max · 0.0) fun _ _ => trivial
  refine (Amplitude.evaluate_uniform a b c d.amplitude hsum hamplitude).bind fun p hp => ?_
  refine hweight.bind fun w _ => ?_
  simp only [← Quantity.map_view, ← Quantity.square_view hα]
  exact (Uniform.combine _ _ w).mono fun _ h => h (.inl (hp.map _).square)

/-- **A decay density is uniform and varies.** -/
theorem Decay.densityAt_uniform (hsum : d.amplitude.Summed) :
    Uniform Quantity.view Quantity.Varies fun ρ : View E lone =>
      d.densityAt s (Quantity.given a ρ) (Quantity.given b ρ) (Quantity.given c ρ) :=
  (intensity_uniform hα hd hpars a b c hsum).map _ fun _ h => h.map _

/-- **Where a decay density has an integral**, it has a value at every point. -/
theorem Decay.densityAt_returns (hsum : d.amplitude.Summed) {x : α} (hx : d.integral s = .ok x) :
    ∃ f : E → α, ∀ ρ : View E lone, d.densityAt s (Quantity.given a ρ) (Quantity.given b ρ)
      (Quantity.given c ρ) = .ok ((Quantity.varying f).view ρ) := by
  -- the integral is a sum over the intensity of a batch of points
  obtain ⟨⟨xs, dx⟩, -, hx⟩ := bind_eq_ok_iff.mp hx
  obtain ⟨⟨ys, dy⟩, -, hx⟩ := bind_eq_ok_iff.mp hx
  obtain ⟨v, hv, -⟩ := bind_eq_ok_iff.mp hx
  have huniform := intensity_uniform hα hd hpars (E := α × α × α) (·.1) (·.2.1) (·.2.2) hsum
  obtain ⟨q, hq, hall⟩ := huniform.returns (ρ := .batch (insidePoints d.space xs ys)) hv
  obtain ⟨g, rfl⟩ := hq.exists_eq
  refine ⟨fun e => g (a e, b e, c e) / (s.state d.state).norm, fun ρ => ?_⟩
  have hpoint := hall (ρ.map fun e => (a e, b e, c e))
  simp only [Quantity.given, Quantity.varying_view_map] at hpoint
  unfold densityAt Quantity.given
  rw [hpoint, ok_bind, ← Quantity.map_view]
  rfl

end

/-! ### Models -/

/-- A normal or a flat density, or a decay density where every sum has a term. -/
def Model.Elementary : Model α → Prop
  | gaussian .. => True
  | uniform .. => True
  | decay d => d.amplitude.Summed
  | formula .. => False

instance : DecidablePred (Model.Elementary (α := α))
  | .gaussian .. => .isTrue trivial
  | .uniform .. => .isTrue trivial
  | .decay d => inferInstanceAs (Decidable d.amplitude.Summed)
  | .formula .. => .isFalse id

/-- What is given for the variables of an event, or of a batch. -/
def View.given (ρ : View (String → α) lone) (n : String) : Given α :=
  Quantity.given (fun e => e n) ρ

/-- A decay density at assigned values. -/
theorem Decay.density_assigned {s : Store α} {d : Decay α} (hd : (Model.decay d).Valid s)
    (v : String → Given α) :
    (Model.decay d).density s (assignedPoint v ((Model.decay d).varNames s)) =
      d.densityAt s (v d.role12) (v d.role13) (v d.role23) := by
  have hlookup : ∀ n ∈ d.roles,
      (assignedPoint v ((Model.decay d).varNames s)).lookup n = some (v n) := fun n hn =>
    lookup_assignedPoint v (Registry.mem_sortNames.mpr (hd.names_eq_roles.symm ▸ hn))
  simp only [Model.density, hlookup d.role12 (by simp [roles]), hlookup d.role13 (by simp [roles]),
    hlookup d.role23 (by simp [roles])]

section

variable {s : Store α} {m : Model α} (hα : lone → ∀ d, m = .decay d → Scalar.PowersAgree α)
  (hm : m.Valid s) (hpars : m.Scalars s) (helem : m.Elementary)

include hα hm hpars helem

/-- **A model is uniform and varies.** -/
theorem Model.density_uniform :
    Uniform Quantity.view Quantity.Varies fun ρ : View (String → α) lone =>
    m.density s (assignedPoint ρ.given (m.varNames s)) := by
  have hgiven : ∀ {n}, n ∈ (s.registry m.head.vars).names → ∀ ρ : View (String → α) lone,
      (assignedPoint ρ.given (m.varNames s)).lookup n = some (ρ.given n) := fun hn ρ =>
    lookup_assignedPoint ρ.given (Registry.mem_sortNames.mpr hn)
  cases m with
  | gaussian head x mu sigma =>
    have hx := hgiven hm.covered.1
    have hhead := hpars head.pars List.mem_cons_self
    simp only [density, hx]
    refine Uniform.fixed_bind fun mean hmean => Uniform.fixed_bind fun width hwidth => ?_
    obtain ⟨y, rfl⟩ := hhead.lookup hmean
    obtain ⟨z, rfl⟩ := hhead.lookup hwidth
    exact Uniform.combine₃ normalDensity (.varying fun e : String → α => e x) (.shared y)
      (.shared z) trivial
  | uniform head x lo hi =>
    have hx := hgiven hm.covered
    simp only [density, hx]
    have hvarying : Uniform (α := α) Quantity.view Quantity.Varies fun ρ : View _ lone =>
        .ok ((Quantity.varying fun e : String → α => e x).view ρ) := Uniform.ok trivial
    exact hvarying.map _ fun _ h => h.map _
  | decay d =>
    simp only [Decay.density_assigned hm]
    exact Decay.densityAt_uniform (fun h => hα h d rfl) hm hpars _ _ _ helem
  | formula => exact absurd helem id

/-- A model has a value at every event, if it has an integral where it needs one. -/
theorem Model.density_returns (hint : ∀ d, m = .decay d → ∃ x, d.integral s = .ok x) :
    ∃ f : (String → α) → α, ∀ ρ : View (String → α) lone,
      m.density s (assignedPoint ρ.given (m.varNames s)) = .ok ((Quantity.varying f).view ρ) := by
  -- as it is uniform, it has one if it has one for the batch of no events
  suffices hempty : ∃ v, m.density s (assignedPoint
      (.batch [] : View (String → α) lone).given (m.varNames s)) = .ok v by
    obtain ⟨v, hv⟩ := hempty
    obtain ⟨q, hq, hall⟩ := (density_uniform hα hm hpars helem).returns hv
    obtain ⟨f, rfl⟩ := hq.exists_eq
    exact ⟨f, hall⟩
  have hgiven : ∀ {n}, n ∈ (s.registry m.head.vars).names →
      (assignedPoint (.batch [] : View (String → α) lone).given (m.varNames s)).lookup n =
        some (.value (.column [])) := fun hn =>
    lookup_assignedPoint _ (Registry.mem_sortNames.mpr hn)
  cases m with
  | gaussian head x mu sigma =>
    have hx := hgiven hm.covered.1
    have hhead := hpars head.pars List.mem_cons_self
    have hvalue : ∀ {n}, n ∈ (s.registry head.pars).names →
        ∃ y, s.lookup head.pars n = .ok (.scalar y) := by
      intro n hn
      obtain ⟨c, hc⟩ := Registry.find?_eq_some_of_mem hn
      have hlookup := Store.lookup_eq_ok_iff.mpr (Store.value?_of_find? hc)
      obtain ⟨y, hy⟩ := hhead.lookup hlookup
      exact ⟨y, hlookup.trans (congrArg _ hy)⟩
    obtain ⟨y, hy⟩ := hvalue hm.covered.2.1
    obtain ⟨z, hz⟩ := hvalue hm.covered.2.2
    simp only [density, hx, hy, hz]
    exact ⟨_, rfl⟩
  | uniform head x lo hi =>
    have hx := hgiven hm.covered
    simp only [density, hx]
    exact ⟨_, rfl⟩
  | decay d =>
    obtain ⟨x, hx⟩ := hint d rfl
    obtain ⟨f, hf⟩ := Decay.densityAt_returns (fun h => hα h d rfl) hm hpars
      (fun e : String → α => e d.role12) (fun e => e d.role13) (fun e => e d.role23) helem hx
    rw [Decay.density_assigned hm]
    exact ⟨_, hf (.batch [])⟩
  | formula => exact absurd helem id

end

/-- Two values in a row are m12 and m13 of a decay density, and leave the third one. -/
theorem Decay.evaluate_pair {s : Store α} {d : Decay α} (hd : d.roles.Nodup) (a b : Value α) :
    (Model.decay d).evaluate s (.sequence [a, b]) =
      (do d.densityAt s (.value a) (.value b) (.value (← d.third a b))) := by
  have hroles : d.role13 ≠ d.role12 ∧ d.role23 ≠ d.role12 ∧ d.role23 ≠ d.role13 := by
    simpa [roles, eq_comm, and_assoc] using hd
  obtain ⟨h1, h2, h3⟩ := hroles
  show (d.third a b >>= fun c => _) >>= _ = _
  cases d.third a b with
  | error e => rfl
  | ok c =>
    have h13 : (d.role13 == d.role12) = false := beq_false_of_ne h1
    have h23 : (d.role23 == d.role12) = false := beq_false_of_ne h2
    have h23' : (d.role23 == d.role13) = false := beq_false_of_ne h3
    show (Model.decay d).density s [(d.role12, .value a), (d.role13, .value b),
      (d.role23, .value c)] = d.densityAt s (.value a) (.value b) (.value c)
    simp only [Model.density, List.lookup_cons, beq_self_eq_true, h13, h23, h23']

/-- **So is a decay density of two variables.** -/
theorem Decay.evaluate_pair_uniform {s : Store α} {d : Decay α}
    (hα : lone → Scalar.PowersAgree α) (hs : s.Sound) (hd : (Model.decay d).Valid s)
    (hpars : (Model.decay d).Scalars s) (hsum : d.amplitude.Summed) (a b : E → α) :
    Uniform Quantity.view Quantity.Varies fun ρ : View E lone => (Model.decay d).evaluate s
      (.sequence [(Quantity.varying a).view ρ, (Quantity.varying b).view ρ]) := by
  have hroles : d.roles.Nodup := hd.names_eq_roles ▸ (hs d.head.vars).distinct
  simp only [evaluate_pair hroles, third, Quantity.combine_view]
  exact densityAt_uniform hα hd hpars a b (fun e => d.space.third (a e) (b e)) hsum

end

end DensityAlgebra
