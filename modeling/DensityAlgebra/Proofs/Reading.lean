/-
# What the value of a density depends on

A density is read through the registries of its parts. Two densities of the same
shape over different registries, in different stores even, have the same value if
the registries of parameters hold the same values under the same names, the
registries of variables have the same names, and the stored normalizations are
equal. A decay density declares no variables but those of its roles, so what its
weight functions ask for is given by the point, and the current values of
variables do not matter where a point is given.

The integral does not depend on the stored normalization; of its state it reads
only the bins per axis.

Key definitions: `Amplitude.nodes`, `Amplitude.asks`, `Weight.Alike`, `Decay.Fresh`,
`Model.Fresh`, `Model.Alike`, `Model.norms`, `Composite.Alike`.
Key theorems: `Amplitude.evaluate_of_asked`, `Amplitude.evaluate_congr`,
`Decay.intensity_of_parts`, `Decay.intensity_congr`, `Decay.integral_congr`,
`Model.density_congr`, `Model.Alike.fresh`, `Composite.evaluate_congr`.
-/
import DensityAlgebra.Proofs.Validity

namespace DensityAlgebra

variable {α : Type} [Scalar α]

theorem Store.lookup_congr {s t : Store α} {r q : RegistryId} {n : String}
    (h : s.value? r n = t.value? q n) : s.lookup r n = t.lookup q n := by
  rw [Store.lookup_eq_value?, Store.lookup_eq_value?, h]

/-! ### Amplitudes -/

section

omit [Scalar α]

mutual

/-- The nodes of a tree as trees of their own, each before those below it. -/
def Amplitude.nodes : Amplitude α → List (Amplitude α)
  | .flat r z => [.flat r z]
  | .resonance r mass width channel => [.resonance r mass width channel]
  | .sum r terms => .sum r terms :: terms.nodes

def Amplitude.Terms.nodes : Amplitude.Terms α → List (Amplitude α)
  | .nil => []
  | .cons _ _ factor rest => factor.nodes ++ rest.nodes

end

/-- The names of the coefficients of terms. -/
def Amplitude.Terms.asks : Amplitude.Terms α → List String
  | .nil => []
  | .cons re im _ rest => re :: im :: rest.asks

/-- The names that the topmost node reads in its registry. -/
def Amplitude.asks : Amplitude α → List String
  | .flat .. => []
  | .resonance _ mass width _ => [mass, width]
  | .sum _ terms => terms.asks

mutual

theorem Amplitude.registries_eq_nodes : ∀ a : Amplitude α, a.registries = a.nodes.map (·.pars)
  | .flat .. => rfl
  | .resonance .. => rfl
  | .sum r terms => congrArg (r :: ·) (Amplitude.Terms.registries_eq_nodes terms)

theorem Amplitude.Terms.registries_eq_nodes : ∀ ts : Amplitude.Terms α,
    ts.registries = ts.nodes.map (·.pars)
  | .nil => rfl
  | .cons _ _ factor rest => by
    show factor.registries ++ rest.registries = (factor.nodes ++ rest.nodes).map (·.pars)
    rw [List.map_append, Amplitude.registries_eq_nodes factor,
      Amplitude.Terms.registries_eq_nodes rest]

end

theorem Amplitude.pars_mem_registries {a b : Amplitude α} (h : b ∈ a.nodes) :
    b.pars ∈ a.registries := by
  rw [a.registries_eq_nodes]
  exact List.mem_map_of_mem h

end

theorem Amplitude.coefficient_congr {s t : Store α} {r q : RegistryId} {re im : String}
    (hre : s.value? r re = t.value? q re) (him : s.value? r im = t.value? q im) :
    coefficient s r re im = coefficient t q re im := by
  unfold coefficient
  rw [Store.lookup_congr hre, Store.lookup_congr him]

mutual

/-- An amplitude depends only on the values that its nodes ask for. -/
theorem Amplitude.evaluate_of_asked {s t : Store α} {f g : RegistryId → RegistryId}
    (m12 m13 m23 : Given α) : ∀ a : Amplitude α,
    (∀ b ∈ a.nodes, ∀ n ∈ b.asks, s.value? (f b.pars) n = t.value? (g b.pars) n) →
      (a.rename f).evaluate s m12 m13 m23 = (a.rename g).evaluate t m12 m13 m23
  | .flat .., _ => rfl
  | .resonance r mass width channel, h => by
    have hr : ∀ n ∈ [mass, width], s.value? (f r) n = t.value? (g r) n := h _ List.mem_cons_self
    simp only [Amplitude.rename, Amplitude.evaluate]
    rw [Store.lookup_congr (hr mass List.mem_cons_self),
      Store.lookup_congr (hr width (List.mem_cons_of_mem _ List.mem_cons_self))]
  | .sum r terms, h => by
    simp only [Amplitude.rename, Amplitude.evaluate]
    exact Amplitude.Terms.evaluate_of_asked m12 m13 m23 terms (h _ List.mem_cons_self)
      (fun b hb => h b (List.mem_cons_of_mem _ hb)) _

theorem Amplitude.Terms.evaluate_of_asked {s t : Store α} {f g : RegistryId → RegistryId}
    {r q : RegistryId} (m12 m13 m23 : Given α) : ∀ ts : Amplitude.Terms α,
    (∀ n ∈ ts.asks, s.value? r n = t.value? q n) →
    (∀ b ∈ ts.nodes, ∀ n ∈ b.asks, s.value? (f b.pars) n = t.value? (g b.pars) n) →
      ∀ total, (ts.rename f).evaluate s r m12 m13 m23 total =
        (ts.rename g).evaluate t q m12 m13 m23 total
  | .nil, _, _, _ => rfl
  | .cons re im factor rest, hr, h, total => by
    have hfactor := Amplitude.evaluate_of_asked (s := s) (t := t) (f := f) (g := g) m12 m13 m23
      factor fun b hb => h b (List.mem_append_left _ hb)
    have hrest := Amplitude.Terms.evaluate_of_asked (f := f) (g := g) m12 m13 m23 rest
      (fun n hn => hr n (List.mem_cons_of_mem _ (List.mem_cons_of_mem _ hn)))
      fun b hb => h b (List.mem_append_right _ hb)
    simp only [Amplitude.Terms.rename, Amplitude.Terms.evaluate]
    rw [Amplitude.coefficient_congr (hr re List.mem_cons_self)
      (hr im (List.mem_cons_of_mem _ List.mem_cons_self)), hfactor]
    simp only [hrest]

end

/-- An amplitude depends only on the values under the names of its registries. -/
theorem Amplitude.evaluate_congr {s t : Store α} {f g : RegistryId → RegistryId}
    (m12 m13 m23 : Given α) (a : Amplitude α)
    (h : ∀ r ∈ a.registries, ∀ n, s.value? (f r) n = t.value? (g r) n) :
    (a.rename f).evaluate s m12 m13 m23 = (a.rename g).evaluate t m12 m13 m23 :=
  Amplitude.evaluate_of_asked m12 m13 m23 a fun _ hb n _ => h _ (Amplitude.pars_mem_registries hb) n

/-! ### Weight functions -/

/-- A variable is given by the point, or has the same value; a parameter has the same
value. -/
theorem Weight.argument_congr {s t : Store α} {w w' : Weight α} {point : List (String × Given α)}
    (hnames : (s.registry w.vars).names = (t.registry w'.vars).names)
    (hvars : ∀ n ∈ (s.registry w.vars).names, point.lookup n = none →
      s.value? w.vars n = t.value? w'.vars n)
    (hpars : ∀ n, s.value? w.pars n = t.value? w'.pars n) (n : String) :
    w.argument s point n = w'.argument t point n := by
  unfold Weight.argument
  cases hc : (s.registry w.vars).find? n with
  | none =>
    have hn : (t.registry w'.vars).find? n = none := by
      rw [Registry.find?_eq_none, ← hnames, ← Registry.find?_eq_none]
      exact hc
    rw [hn, Store.lookup_congr (hpars n)]
  | some c =>
    have hmem : n ∈ (s.registry w.vars).names := Registry.mem_names_of_find? hc
    obtain ⟨d, hd⟩ := Registry.find?_eq_some_of_mem (hnames ▸ hmem)
    rw [hd]
    show Except.ok _ = Except.ok _
    cases hp : point.lookup n with
    | some v => rfl
    | none =>
      have hv := hvars n hmem hp
      rw [Store.value?_of_find? hc, Store.value?_of_find? hd, Option.some.injEq] at hv
      rw [Option.getD_none, Option.getD_none, hv]

/-- Two functions with one formula, the same names of variables, and the same values of
parameters. -/
structure Weight.Alike (s t : Store α) (w w' : Weight α) : Prop where
  body : w.body = w'.body
  names : (s.registry w.vars).names = (t.registry w'.vars).names
  pars : ∀ n, s.value? w.pars n = t.value? w'.pars n

theorem Weight.factor_congr {s t : Store α} {w w' : Weight α} {point : List (String × Given α)}
    (hbody : w.body = w'.body) (h : ∀ n, w.argument s point n = w'.argument t point n) :
    w.factor s point = w'.factor t point := by
  unfold Weight.factor
  rw [hbody]
  simp only [h]

/-! ### Decay densities -/

namespace Decay

/-- What two stores must have in common for the density to read the same over either
renaming; the variables of the weight functions are given by the point. -/
structure Alike (s t : Store α) (f g : RegistryId → RegistryId) (d : Decay α) : Prop where
  pars : ∀ r ∈ (Model.decay d).parRegistries, ∀ n, s.value? (f r) n = t.value? (g r) n
  names : ∀ r ∈ (Model.decay d).varRegistries,
    (s.registry (f r)).names = (t.registry (g r)).names
  covered : ∀ w ∈ d.weights, (s.registry (f w.vars)).names ⊆ d.roles

variable {s t : Store α} {f g : RegistryId → RegistryId} {d : Decay α}

theorem weightProduct_congr {point : List (String × Given α)} {ws ws' : List (Weight α)}
    (h : List.Forall₂ (fun w w' => w.factor s point = w'.factor t point) ws ws') :
    ∀ product, weightProduct s point ws product = weightProduct t point ws' product := by
  induction h with
  | nil => exact fun _ => rfl
  | cons hw _ ih =>
    intro product
    simp only [weightProduct, hw, ih]

omit [Scalar α] in
/-- The roles of a decay density are given wherever the density is asked for. -/
theorem lookup_roles_ne_none (d : Decay α) (m12 m13 m23 : Given α) {n : String} (h : n ∈ d.roles) :
    [(d.role12, m12), (d.role13, m13), (d.role23, m23)].lookup n ≠ none := by
  intro hnone
  rw [List.lookup_eq_none_iff] at hnone
  simp only [roles, List.mem_cons, List.not_mem_nil, or_false] at h
  rcases h with rfl | rfl | rfl
  · exact absurd (hnone _ List.mem_cons_self) (by simp)
  · exact absurd (hnone _ (List.mem_cons_of_mem _ List.mem_cons_self)) (by simp)
  · exact absurd (hnone _ (List.mem_cons_of_mem _ (List.mem_cons_of_mem _ List.mem_cons_self)))
      (by simp)

/-- A product of weight functions is read through these; their variables are given with the
point. -/
theorem weightProduct_of_parts {e : Decay α} (hroles : d.roles = e.roles)
    (hweights : List.Forall₂ (Weight.Alike s t) d.weights e.weights)
    (hcovered : ∀ w ∈ d.weights, (s.registry w.vars).names ⊆ d.roles) (m12 m13 m23 : Given α)
    (product : Value α) :
    weightProduct s [(d.role12, m12), (d.role13, m13), (d.role23, m23)] d.weights product =
      weightProduct t [(e.role12, m12), (e.role13, m13), (e.role23, m23)] e.weights product := by
  obtain ⟨h12, h13, h23⟩ : d.role12 = e.role12 ∧ d.role13 = e.role13 ∧ d.role23 = e.role23 := by
    simpa [roles] using hroles
  rw [← h12, ← h13, ← h23]
  refine weightProduct_congr ?_ product
  rw [List.forall₂_iff_zip] at hweights ⊢
  refine ⟨hweights.1, fun {w w'} hmem => ?_⟩
  have halike := hweights.2 hmem
  refine Weight.factor_congr halike.body (Weight.argument_congr halike.names ?_ halike.pars)
  intro n hn hnone
  have hrole := hcovered w (List.of_mem_zip hmem).1 hn
  exact absurd hnone (lookup_roles_ne_none d m12 m13 m23 hrole)

/-- A density is read through its amplitude and its weight functions. -/
theorem intensity_of_parts {e : Decay α} (hroles : d.roles = e.roles)
    (hamplitude : ∀ a b c, d.amplitude.evaluate s a b c = e.amplitude.evaluate t a b c)
    (hweights : List.Forall₂ (Weight.Alike s t) d.weights e.weights)
    (hcovered : ∀ w ∈ d.weights, (s.registry w.vars).names ⊆ d.roles) (m12 m13 m23 : Given α) :
    d.intensity s m12 m13 m23 = e.intensity t m12 m13 m23 := by
  simp only [intensity, weight, hamplitude,
    weightProduct_of_parts hroles hweights hcovered m12 m13 m23]

theorem intensity_congr (h : d.Alike s t f g) (st st' : StateId) (src src' : SourceId)
    (m12 m13 m23 : Given α) :
    (d.moved f st src).intensity s m12 m13 m23 = (d.moved g st' src').intensity t m12 m13 m23 := by
  have hroles : (d.moved f st src).roles = (d.moved g st' src').roles := rfl
  refine intensity_of_parts hroles (fun a b c => ?_) ?_ (fun w hw => ?_) m12 m13 m23
  · exact Amplitude.evaluate_congr a b c d.amplitude fun r hr =>
      h.pars r (List.mem_cons_of_mem _ (List.mem_append_left _ hr))
  · refine List.forall₂_map_left_iff.mpr (List.forall₂_map_right_iff.mpr ?_)
    refine List.forall₂_same.mpr fun w hw => ⟨rfl, ?_, ?_⟩
    · exact h.names _ (List.mem_cons_of_mem _ (List.mem_map_of_mem hw))
    · exact h.pars _ (List.mem_cons_of_mem _ (List.mem_append_right _ (List.mem_map_of_mem hw)))
  · obtain ⟨v, hv, rfl⟩ := List.mem_map.mp hw
    exact h.covered v hv

/-- The integral is that of the density before it is normalized. -/
theorem integral_of_intensity {e : Decay α} (hspace : d.space = e.space)
    (hres : (s.state d.state).resolution = (t.state e.state).resolution)
    (hintensity : ∀ a b c, d.intensity s a b c = e.intensity t a b c) :
    d.integral s = e.integral t := by
  unfold integral
  simp only [hintensity, hspace, hres]

/-- **The integral depends on names, parameters and the bins per axis.** -/
theorem integral_congr (h : d.Alike s t f g) {st st' : StateId} (src src' : SourceId)
    (hres : (s.state st).resolution = (t.state st').resolution) :
    (d.moved f st src).integral s = (d.moved g st' src').integral t :=
  integral_of_intensity rfl hres (intensity_congr h st st' src src')

theorem densityAt_congr (h : d.Alike s t f g) {st st' : StateId} (src src' : SourceId)
    (hnorm : (s.state st).norm = (t.state st').norm) (m12 m13 m23 : Given α) :
    (d.moved f st src).densityAt s m12 m13 m23 = (d.moved g st' src').densityAt t m12 m13 m23 := by
  unfold densityAt
  rw [intensity_congr h st st' src src', moved_state, moved_state, hnorm]

/-- The stored normalization is the integral at the current parameters. -/
def Fresh (s : Store α) (d : Decay α) : Prop := d.integral s = .ok (s.state d.state).norm

end Decay

/-! ### Models -/

namespace Model

/-- A decay density stores its integral; other densities store none. -/
def Fresh (s : Store α) : Model α → Prop
  | decay d => d.Fresh s
  | _ => True

/-- The stored normalizations of a density. -/
def norms (s : Store α) (m : Model α) : List α := m.states.map fun d => (s.state d).norm

/-- The densities are of one shape, have the same values of parameters and the same
names of variables, and the same bins per axis. -/
def Alike (s t : Store α) (m m' : Model α) : Prop :=
  ∃ k f g, IsCopy f k m ∧ IsCopy g k m' ∧
    (∀ r ∈ k.parRegistries, ∀ n, s.value? (f r) n = t.value? (g r) n) ∧
    (∀ r ∈ k.varRegistries, (s.registry (f r)).names = (t.registry (g r)).names) ∧
    m.states.map (fun d => (s.state d).resolution) =
      m'.states.map (fun d => (t.state d).resolution)

variable {s t : Store α} {m m' : Model α}

theorem Alike.varNames (h : Alike s t m m') :
    (s.registry m.head.vars).names = (t.registry m'.head.vars).names := by
  obtain ⟨k, f, g, hf, hg, -, hnames, -⟩ := h
  rw [hf.head, hg.head]
  exact hnames _ k.head_vars_mem

omit [Scalar α] in
/-- The variables of the weight functions of a valid decay density are among its
roles. -/
theorem Valid.roles {f : RegistryId → RegistryId} {d : Decay α} {st : StateId} {src : SourceId}
    (h : (decay (d.moved f st src)).Valid s) :
    ∀ w ∈ d.weights, (s.registry (f w.vars)).names ⊆ d.roles := by
  intro w hw
  have hmem : w.rename f ∈ (d.moved f st src).weights := List.mem_map_of_mem hw
  exact h.weight_names_subset hmem

/-- Two alike decay densities have the same integral. -/
theorem Alike.integral {d d' : Decay α} (h : Alike s t (decay d) (decay d'))
    (hv : (decay d).Valid s) : d.integral s = d'.integral t := by
  obtain ⟨k, f, g, hf, hg, hpars, hnames, hres⟩ := h
  cases k with
  | decay e =>
    obtain ⟨st, src, heq⟩ := hf
    obtain ⟨st', src', heq'⟩ := hg
    obtain rfl := Model.decay.inj heq
    obtain rfl := Model.decay.inj heq'
    exact Decay.integral_congr ⟨hpars, hnames, hv.roles⟩ src src' (List.cons.inj hres).1
  | gaussian => cases hf
  | uniform => cases hf
  | formula => obtain ⟨_, hf⟩ := hf; cases hf

/-- Alike densities are of one kind. -/
theorem Alike.cases_decay {d : Decay α} (h : Alike s t (decay d) m') : ∃ d', m' = decay d' := by
  obtain ⟨k, f, g, hf, hg, -⟩ := h
  cases k with
  | decay e =>
    obtain ⟨st', src', rfl⟩ := hg
    exact ⟨_, rfl⟩
  | gaussian => cases hf
  | uniform => cases hf
  | formula => obtain ⟨_, hf⟩ := hf; cases hf

/-- **A stored integral stays right** for a density that reads alike and stores the
same. -/
theorem Alike.fresh (h : Alike s t m m') (hv : m.Valid s) (hn : m.norms s = m'.norms t) :
    m.Fresh s → m'.Fresh t := by
  cases m with
  | decay d =>
    obtain ⟨d', rfl⟩ := h.cases_decay
    intro hd
    have hnorm : (s.state d.state).norm = (t.state d'.state).norm := (List.cons.inj hn).1
    show d'.integral t = .ok _
    rw [← h.integral hv, ← hnorm]
    exact hd
  | _ =>
    intro _
    obtain ⟨k, f, g, hf, hg, -⟩ := h
    cases k with
    | decay e => obtain ⟨_, _, hf⟩ := hf; cases hf
    | formula => obtain ⟨_, rfl⟩ := hg; trivial
    | _ => subst hg; trivial

/-- Two alike densities that both store their integrals store the same. -/
theorem Alike.norms_eq (h : Alike s t m m') (hv : m.Valid s) (hm : m.Fresh s)
    (hm' : m'.Fresh t) : m.norms s = m'.norms t := by
  cases m with
  | decay d =>
    obtain ⟨d', rfl⟩ := h.cases_decay
    have heq : (.ok (s.state d.state).norm : Except (Fault α) α) = .ok (t.state d'.state).norm :=
      hm.symm.trans ((h.integral hv).trans hm')
    exact congrArg (fun x => [x]) (Except.ok.inj heq)
  | _ =>
    obtain ⟨k, f, g, hf, hg, -⟩ := h
    cases k with
    | decay e => obtain ⟨_, _, hf⟩ := hf; cases hf
    | formula => obtain ⟨_, rfl⟩ := hg; rfl
    | _ => subst hg; rfl

/-- **Alike densities with the same normalization have the same value at a point.** -/
theorem density_congr (h : Alike s t m m') (hv : m.Valid s) (hn : m.norms s = m'.norms t)
    (point : List (String × Given α)) : m.density s point = m'.density t point := by
  obtain ⟨k, f, g, hf, hg, hpars, hnames, hres⟩ := h
  have hhead := hpars _ k.head_pars_mem
  cases k with
  | gaussian h x mu sigma =>
    subst hf
    subst hg
    have henv : ∀ name, s.lookup (h.rename f).pars name = t.lookup (h.rename g).pars name :=
      fun name => Store.lookup_congr (hhead name)
    simp only [density, henv]
  | uniform h x lo hi =>
    subst hf
    subst hg
    rfl
  | formula h body c =>
    obtain ⟨_, rfl⟩ := hf
    obtain ⟨_, rfl⟩ := hg
    have henv : ∀ name, s.lookup (h.rename f).pars name = t.lookup (h.rename g).pars name :=
      fun name => Store.lookup_congr (hhead name)
    simp only [density, henv]
  | decay e =>
    obtain ⟨st, src, rfl⟩ := hf
    obtain ⟨st', src', rfl⟩ := hg
    have hnorm : (s.state st).norm = (t.state st').norm := (List.cons.inj hn).1
    have hat : ∀ a b c, (e.moved f st src).densityAt s a b c =
        (e.moved g st' src').densityAt t a b c := fun a b c =>
      Decay.densityAt_congr ⟨hpars, hnames, hv.roles⟩ src src' hnorm a b c
    simp only [density, hat, Decay.moved_role12, Decay.moved_role13, Decay.moved_role23]

/-- The density at given values, or at current values that are the same. -/
theorem evaluate_congr (h : Alike s t m m') (hv : m.Valid s) (hn : m.norms s = m'.norms t)
    (input : Input α)
    (hcur : input = .nothing → s.currentValues m.head.vars = t.currentValues m'.head.vars) :
    m.evaluate s input = m'.evaluate t input := by
  have hpoint : m.point s input = m'.point t input := by
    have hnames : m.varNames s = m'.varNames t := congrArg sortNames h.varNames
    obtain ⟨k, f, g, hf, hg, -⟩ := h
    have hname : m.name = m'.name := by
      unfold Model.name
      rw [hf.head, hg.head]
      rfl
    cases k with
    | decay e =>
      obtain ⟨st, src, rfl⟩ := hf
      obtain ⟨st', src', rfl⟩ := hg
      have hgen : genericPoint (decay (e.moved f st src)).name
            ((decay (e.moved f st src)).varNames s) input =
          genericPoint (decay (e.moved g st' src')).name
            ((decay (e.moved g st' src')).varNames t) input := by
        rw [hname, hnames]
      -- two values in a row are read by role, which takes no names
      match input with
      | .row [_, _] => rfl
      | .row [] | .row [_] | .row (_ :: _ :: _ :: _) => exact hgen
      | .nothing | .mapping _ | .text _ | .result _ | .single _ => exact hgen
    | formula =>
      obtain ⟨_, rfl⟩ := hf
      obtain ⟨_, rfl⟩ := hg
      show genericPoint _ _ _ = genericPoint _ _ _
      rw [hname, hnames]
    | _ =>
      subst hf
      subst hg
      show genericPoint _ _ _ = genericPoint _ _ _
      rw [hname, hnames]
  cases input with
  | nothing =>
    unfold Model.evaluate
    rw [hcur rfl]
    exact density_congr h hv hn _
  | _ =>
    simp only [Model.evaluate, hpoint, density_congr h hv hn]

end Model

/-! ### Composites -/

namespace Composite

/-- The composites have one program over alike models with the same normalizations,
the same names of variables, and the same values of parameters. -/
structure Alike (s t : Store α) (p q : Composite α) : Prop where
  program : p.program = q.program
  models : List.Forall₂ (fun m m' => m.Alike s t m' ∧ m.norms s = m'.norms t) p.models q.models
  varNames : (s.registry p.vars).names = (t.registry q.vars).names
  pars : ∀ n, s.value? p.pars n = t.value? q.pars n

omit [Scalar α] in
/-- Positions of related lists hold related items, or neither holds any. -/
theorem itemAt_forall₂ {β γ : Type} {R : β → γ → Prop} {xs : List β} {ys : List γ}
    (h : List.Forall₂ R xs ys) (i : Int) :
    (∃ x y, (itemAt xs i : Except (Fault α) β) = .ok x ∧ (itemAt ys i : Except (Fault α) γ) = .ok y
        ∧ R x y ∧ x ∈ xs) ∨
      ∃ e, (itemAt xs i : Except (Fault α) β) = .error e ∧
        (itemAt ys i : Except (Fault α) γ) = .error e := by
  have hlen : ys.length = xs.length := h.length_eq.symm
  unfold itemAt
  rw [hlen]
  set j := (if i < 0 then i + xs.length else i).toNat with hj
  by_cases hlt : j < xs.length
  · have hlt' : j < ys.length := hlen ▸ hlt
    rw [List.getElem?_eq_getElem hlt, List.getElem?_eq_getElem hlt']
    by_cases hneg : i + xs.length < 0
    · exact .inr ⟨_, if_pos hneg, if_pos hneg⟩
    · exact .inl ⟨_, _, if_neg hneg, if_neg hneg, h.get hlt hlt', List.getElem_mem hlt⟩
  · rw [List.getElem?_eq_none (Nat.le_of_not_lt hlt),
      List.getElem?_eq_none (hlen ▸ Nat.le_of_not_lt hlt)]
    exact .inr ⟨_, rfl, rfl⟩

/-- **Alike composites have the same value**, at a point, and at their current values
if those are the same. -/
theorem evaluate_congr {s t : Store α} {p q : Composite α} (h : Alike s t p q)
    (hv : ∀ m ∈ p.models, m.Valid s) (input : Input α)
    (hcur : input = .nothing →
      List.Forall₂ (fun m m' => s.currentValues m.head.vars = t.currentValues m'.head.vars)
        p.models q.models) :
    p.evaluate s input = q.evaluate t input := by
  have hnames : p.varNames s = q.varNames t := congrArg sortNames h.varNames
  have hpoint : p.point s input = q.point t input := by
    cases input <;> simp only [Composite.point, hnames]
  have hleaf : ∀ point, (input = .nothing ↔ point = none) →
      p.leafValue s point = q.leafValue t point := by
    intro point hp
    funext l
    cases l with
    | parameter name =>
      simp only [leafValue, Store.lookup_congr (h.pars name)]
    | constant x => rfl
    | model i =>
      have hboth : List.Forall₂ (fun m m' => (m.Alike s t m' ∧ m.norms s = m'.norms t) ∧
          (point = none → s.currentValues m.head.vars = t.currentValues m'.head.vars))
          p.models q.models := by
        cases point with
        | none => exact h.models.mp (fun _ _ h1 h2 => ⟨h1, fun _ => h2⟩) (hcur (hp.mpr rfl))
        | some _ => exact h.models.imp fun _ _ h1 => ⟨h1, fun h2 => by simp at h2⟩
      rcases @itemAt_forall₂ α _ _ _ _ _ hboth i with
        ⟨m, m', h1, h2, ⟨⟨ha, hn⟩, hc⟩, hm⟩ | ⟨e, h1, h2⟩
      · simp only [leafValue, h1, h2]
        cases point with
        | none =>
          show m.evaluate s .nothing = m'.evaluate t .nothing
          exact Model.evaluate_congr ha (hv m hm) hn _ fun _ => hc rfl
        | some point =>
          have hvars : m.varNames s = m'.varNames t := congrArg sortNames ha.varNames
          show ((m.varNames s).mapM _ >>= fun pt => m.density s pt) =
            ((m'.varNames t).mapM _ >>= fun pt => m'.density t pt)
          rw [hvars]
          simp only [Model.density_congr ha (hv m hm) hn]
      · simp only [leafValue, h1, h2]
        rfl
  unfold Composite.evaluate
  rw [hpoint, h.program]
  cases input with
  | nothing =>
    show q.program.evaluate (p.leafValue s none) = q.program.evaluate (q.leafValue t none)
    rw [hleaf none ⟨fun _ => rfl, fun _ => rfl⟩]
  | _ =>
    simp only [Composite.point, bind_assoc, pure_bind]
    refine congrArg _ (funext fun point => ?_)
    rw [hleaf (some point) ⟨fun h => by simp at h, fun h => by simp at h⟩]

end Composite

end DensityAlgebra
