/-
# Joining models to a composite

An operand's models are copied, the registries of the composite take the names
that they lack, and the copies are pointed to them. Afterwards there is one cell
per name again. A model that was there before reads as it did; one that came in
reads as its original did, except that a name that the composite had counts with
the composite's value.

Key definitions: `Composite.Built`, `Model.Carried`, `Density.registryOf`,
`Operand.density?`, `Composite.Joined`.
Key theorems: `find?_bound`, `Composite.appendModels_spec`, `Model.CarriedBy.of_bound`,
`Composite.Incoming.joined`, `Composite.append_spec`.
-/
import DensityAlgebra.Proofs.Constructing

namespace DensityAlgebra

variable {α : Type}

/-! ### Copies of copies -/

mutual

theorem Amplitude.rename_rename (f g : RegistryId → RegistryId) : ∀ a : Amplitude α,
    (a.rename f).rename g = a.rename (g ∘ f)
  | .flat .. => rfl
  | .resonance .. => rfl
  | .sum r terms => by
    show Amplitude.sum (g (f r)) ((terms.rename f).rename g) = _
    rw [Amplitude.Terms.rename_rename f g terms]
    rfl

theorem Amplitude.Terms.rename_rename (f g : RegistryId → RegistryId) :
    ∀ ts : Amplitude.Terms α, (ts.rename f).rename g = ts.rename (g ∘ f)
  | .nil => rfl
  | .cons re im factor rest => by
    show Amplitude.Terms.cons re im ((factor.rename f).rename g) ((rest.rename f).rename g) = _
    rw [Amplitude.rename_rename f g factor, Amplitude.Terms.rename_rename f g rest]
    rfl

end

theorem Model.IsCopy.trans {f g : RegistryId → RegistryId} {k m n : Model α} (h : IsCopy f k m)
    (h' : IsCopy g m n) : IsCopy (g ∘ f) k n := by
  cases k with
  | formula =>
    obtain ⟨_, rfl⟩ := h
    obtain ⟨c, rfl⟩ := h'
    exact ⟨c, rfl⟩
  | decay d =>
    obtain ⟨_, _, rfl⟩ := h
    obtain ⟨st, src, rfl⟩ := h'
    refine ⟨st, src, ?_⟩
    unfold Decay.moved
    rw [← Amplitude.rename_rename]
    show Model.decay _ = Model.decay _
    rw [show d.weights.map (Weight.rename (g ∘ f)) =
      (d.weights.map (Weight.rename f)).map (Weight.rename g) by rw [List.map_map]; rfl]
    rfl
  | _ =>
    subst h
    subst h'
    rfl

variable [Scalar α]

/-- The other model is a copy of this one that reads as it does, where given values
count instead of its own. -/
structure Model.CarriedBy (f : RegistryId → RegistryId) (given : String → Option (Content α))
    (s t : Store α) (m m' : Model α) : Prop where
  shape : IsCopy f m m'
  values : ∀ r ∈ m.parRegistries, ∀ n,
    t.value? (f r) n = (s.value? r n).map fun v => (given n).getD v
  names : ∀ r ∈ m.registries, (t.registry (f r)).names = (s.registry r).names
  states : m'.states.map t.state = m.states.map s.state

/-- A copy that reads as the model does, where given values count instead. -/
def Model.Carried (given : String → Option (Content α)) (s t : Store α) (m m' : Model α) : Prop :=
  ∃ f, Model.CarriedBy f given s t m m'

/-- No values are given. -/
def Store.noValues : String → Option (Content α) := fun _ => none

theorem Option.map_getD_none {β : Type} (x : Option β) :
    (x.map fun v => (none : Option β).getD v) = x := by
  cases x <;> rfl

namespace Model

/-- A copy of a copy. -/
theorem Carried.trans {given : String → Option (Content α)} {s t u : Store α} {k m n : Model α}
    (h : Carried Store.noValues s t k m) (h' : Carried given t u m n) : Carried given s u k n := by
  obtain ⟨f, h1, h2, h3, h4⟩ := h
  obtain ⟨g, h1', h2', h3', h4'⟩ := h'
  refine ⟨g ∘ f, h1.trans h1', fun r hr n => ?_, fun r hr => ?_, h4'.trans h4⟩
  · have hmem : f r ∈ m.parRegistries := by
      rw [h1.parRegistries]
      exact List.mem_map_of_mem hr
    show u.value? (g (f r)) n = _
    rw [h2' _ hmem, h2 r hr]
    show ((s.value? r n).map fun v => (none : Option (Content α)).getD v).map _ = _
    rw [Option.map_getD_none]
  · have hmem : f r ∈ m.registries := h1.mem_registries.mpr ⟨r, hr, rfl⟩
    show (u.registry (g (f r))).names = _
    rw [h3' _ hmem, h3 r hr]

/-- Copies made together are carried over. -/
theorem Carried.of_copies {f : RegistryId → RegistryId} {g : CellId → CellId} {s t : Store α}
    {rs : List RegistryId} {ms ms' : List (Model α)} (hf : s.Copied t rs f g)
    (hrs : ∀ m ∈ ms, m.registries ⊆ rs) (h : Copies f s t ms ms') :
    List.Forall₂ (CarriedBy f Store.noValues s t) ms ms' := by
  have hboth : List.Forall₂ (fun m m' => IsCopy f m m' ∧
      m'.states.map t.state = m.states.map s.state) ms ms' :=
    h.shapes.mp (fun _ _ h1 h2 => ⟨h1, h2⟩) h.contents
  refine forall₂_of_mem hboth fun m hm m' _ ⟨h1, h2⟩ =>
    ⟨h1, fun r hr n => ?_, fun r hr => ?_, h2⟩
  · rw [hf.value? (hrs m hm (m.parRegistries_subset hr))]
    exact (Option.map_getD_none _).symm
  · exact hf.names (hrs m hm hr)

/-- A store with the same cells, states and registries of the copy sees the same. -/
theorem CarriedBy.after {f : RegistryId → RegistryId} {given : String → Option (Content α)}
    {s t u : Store α} {m m' : Model α} (h : CarriedBy f given s t m m')
    (hr : ∀ r ∈ m'.registries, u.registry r = t.registry r)
    (hc : ∀ r ∈ m'.registries, ∀ n c, (t.registry r).find? n = some c → u.cell c = t.cell c)
    (hs : ∀ d ∈ m'.states, u.state d = t.state d) : CarriedBy f given s u m m' := by
  have hmem : ∀ r ∈ m.registries, f r ∈ m'.registries := fun r hr =>
    h.shape.mem_registries.mpr ⟨r, hr, rfl⟩
  refine ⟨h.shape, fun r hpr n => ?_, fun r hrm => ?_, ?_⟩
  · rw [← h.values r hpr n]
    have hfr := hmem r (m.parRegistries_subset hpr)
    unfold Store.value?
    rw [hr _ hfr]
    cases hcell : (t.registry (f r)).find? n with
    | none => rfl
    | some c =>
      simp only [Option.map_some]
      rw [hc _ hfr n c hcell]
  · rw [hr _ (hmem r hrm), h.names r hrm]
  · rw [← h.states]
    exact List.map_congr_left hs

/-- A model reads the same in a store that leaves it alone. -/
theorem CarriedBy.before {f : RegistryId → RegistryId} {given : String → Option (Content α)}
    {s t u : Store α} {m m' : Model α} (h : CarriedBy f given t u m m') (hs : s.Sound)
    (hm : m.Valid s) (hst : Store.Within ∅ ∅ s t) : CarriedBy f given s u m m' := by
  have hreg : ∀ r ∈ m.registries, t.registry r = s.registry r := fun r hr =>
    hst.registries r (hm.linked.bounded r hr)
  refine ⟨h.shape, fun r hr n => ?_, fun r hr => ?_, ?_⟩
  · rw [h.values r hr n]
    unfold Store.value?
    rw [hreg r (m.parRegistries_subset hr)]
    cases hc : (s.registry r).find? n with
    | none => rfl
    | some c =>
      simp only [Option.map_some]
      rw [hst.cells c ((hs r).find?_bounded hc) (Set.notMem_empty _)]
  · rw [h.names r hr, hreg r hr]
  · rw [h.states]
    exact List.map_congr_left fun d hd => hst.states d (hm.states d hd) (Set.notMem_empty _)

end Model

/-! ### Binding copies -/

/-- A copy that is bound holds the shared cell of a name, and else its own. -/
theorem Registry.find?_joined {own own' shared shared' cover : Registry}
    (h : ∀ n, own'.find? n = (own.find? n).bind fun _ => shared'.find? n)
    (hs : ∀ n, shared'.find? n = (shared.find? n).or (cover.find? n)) (hc : own.Under cover)
    (n : String) : own'.find? n = (own.find? n).map fun c => (shared.find? n).getD c := by
  rw [h, hs]
  cases ho : own.find? n with
  | none => rfl
  | some c =>
    rw [hc n c ho]
    cases shared.find? n <;> rfl

/-- **A bound copy reads as its original**, except where the shared registry has a
value of its own. -/
theorem Model.CarriedBy.of_bound {f : RegistryId → RegistryId} {s t₁ t : Store α}
    {m m' : Model α} {pars cover : RegistryId} (hs : s.Sound)
    (hm : CarriedBy f Store.noValues s t₁ m m')
    (hbound : ∀ r ∈ m'.parRegistries, ∀ n, (t.registry r).find? n =
      ((t₁.registry r).find? n).bind fun _ => (t.registry pars).find? n)
    (hnames : ∀ r ∈ m'.registries, (t.registry r).names = (t₁.registry r).names)
    (hpars : ∀ n, (t.registry pars).find? n =
      ((s.registry pars).find? n).or ((t₁.registry cover).find? n))
    (hcover : ∀ r ∈ m'.parRegistries, (t₁.registry r).Under (t₁.registry cover))
    (hst : Store.Within ∅ ∅ s t₁) (hcells : t.cells = t₁.cells) (hstates : t.states = t₁.states) :
    CarriedBy f (s.value? pars) s t m m' := by
  have hcell : ∀ c, t.cell c = t₁.cell c := Store.cell_congr hcells
  refine ⟨hm.shape, fun r hr n => ?_, fun r hr => ?_, ?_⟩
  · have hfr : f r ∈ m'.parRegistries := by
      rw [hm.shape.parRegistries]
      exact List.mem_map_of_mem hr
    have hval := hm.values r hr n
    rw [show (s.value? r n).map (fun v => (Store.noValues n).getD v) = s.value? r n from
      Option.map_getD_none _] at hval
    have hfind := Registry.find?_joined (hbound _ hfr) hpars (hcover _ hfr) n
    rw [← hval]
    unfold Store.value?
    rw [hfind, Option.map_map, Option.map_map]
    cases (t₁.registry (f r)).find? n with
    | none => rfl
    | some c =>
      simp only [Option.map_some, Function.comp_apply]
      cases hp : (s.registry pars).find? n with
      | none => rw [Option.getD_none, hcell, Option.map_none, Option.getD_none]
      | some d =>
        rw [Option.getD_some, hcell, Option.map_some, Option.getD_some,
          hst.cells d ((hs pars).find?_bounded hp) (Set.notMem_empty _)]
  · rw [hnames _ (hm.shape.mem_registries.mpr ⟨r, hr, rfl⟩), hm.names r hr]
  · rw [← hm.states]
    exact List.map_congr_left fun d _ => by rw [Store.state_congr hstates]

omit [Scalar α] in
/-- A registry that models were bound to takes what it lacks from one that they are under. -/
theorem find?_bound {ms : List (Model α)} {own : Model α → RegistryId} {u t : Store α}
    {shared shared' cover : Registry} (hshared : shared.Under shared')
    (horigin : ∀ n c, shared'.find? n = some c →
      shared.find? n = some c ∨ ∃ m ∈ ms, (u.registry (own m)).find? n = some c)
    (hcells : ∀ m ∈ ms, ∀ n, (t.registry (own m)).find? n =
      ((u.registry (own m)).find? n).bind fun _ => shared'.find? n)
    (hnames : ∀ m ∈ ms, (t.registry (own m)).names = (u.registry (own m)).names)
    (hunder : ∀ m ∈ ms, (u.registry (own m)).Under cover)
    (hnamed : ∀ n ∈ cover.names,
      n ∈ shared.names ∨ ∃ m ∈ ms, n ∈ (u.registry (own m)).names) (n : String) :
    shared'.find? n = (shared.find? n).or (cover.find? n) := by
  cases hu : shared.find? n with
  | some c => exact hshared n c hu
  | none =>
    rw [Option.none_or]
    cases ht : shared'.find? n with
    | none =>
      refine (Registry.find?_eq_none.mpr fun hn => ?_).symm
      rcases hnamed n hn with hn | ⟨m, hm, hn⟩
      · exact Registry.find?_eq_none.mp hu hn
      · rw [← hnames m hm] at hn
        obtain ⟨c, hc⟩ := Registry.find?_eq_some_of_mem hn
        rw [hcells m hm, ht, Option.bind_fun_none] at hc
        cases hc
    | some c =>
      rcases horigin n c ht with hc | ⟨m, hm, hc⟩
      · cases hu.symm.trans hc
      · exact (hunder m hm n c hc).symm

/-- The registry of a density for variables or for parameters. -/
def Density.registryOf (d : Density α) : CellKind → RegistryId
  | .variable => d.vars
  | .parameter => d.pars

namespace Composite

/-- A valid composite all of whose parts are newer than `b`. -/
structure Built (b s : Store α) (p : Composite α) : Prop where
  valid : p.Valid s
  registries : ∀ r ∈ p.registries, b.registries.size ≤ r.index
  states : ∀ m ∈ p.models, ∀ d ∈ m.states, b.states.size ≤ d.index

/-- Models that are ready to be joined to a composite: valid, newer than `b`, and
sharing nothing with it or with each other. -/
structure Joinable (b s : Store α) (p : Composite α) (ms : List (Model α)) : Prop where
  valid : ∀ m ∈ ms, m.Valid s
  registries : ∀ m ∈ ms, ∀ r ∈ m.registries, b.registries.size ≤ r.index
  states : ∀ m ∈ ms, ∀ d ∈ m.states, b.states.size ≤ d.index
  outside : ∀ m ∈ ms, ∀ r ∈ m.registries, r ∉ p.registries
  separate : ms.Pairwise fun a b => a.registries.Disjoint b.registries
  distinct : (ms.flatMap (·.states)).Nodup
  apart : ∀ m ∈ ms, ∀ d ∈ m.states, ∀ m' ∈ p.models, d ∉ m'.states

omit [Scalar α] in
theorem Joinable.heads_outside {b s : Store α} {p : Composite α} {ms : List (Model α)}
    (h : Joinable b s p ms) : ∀ m ∈ ms, p.vars ∉ m.registries ∧ p.pars ∉ m.registries :=
  fun m hm => ⟨fun hr => h.outside m hm _ hr p.vars_mem, fun hr => h.outside m hm _ hr p.pars_mem⟩

omit [Scalar α] in
/-- A composite that is valid is so with models that were bound to it. -/
theorem Valid.joined {b u t : Store α} {p : Composite α} {ms : List (Model α)}
    (hu : p.Valid u) (ht : p.Valid t) (hms : Joinable b u p ms)
    (hbound : Bound u t p.vars p.pars ms) (hstates : t.states = u.states)
    (program : Program α) :
    Valid t { p with models := p.models ++ ms, program := program } := by
  have hall : ∀ {P : Model α → Prop}, (∀ m ∈ p.models, P m) → (∀ m ∈ ms, P m) →
      ∀ m ∈ p.models ++ ms, P m := fun h h' m hm => (List.mem_append.mp hm).elim (h m) (h' m)
  refine ⟨ht.bounded, hu.kinds, hall ht.models fun m hm => ?_,
    hall hu.outside hms.heads_outside, ?_, ?_, hall ht.vars hbound.under.1,
    hall ht.pars hbound.under.2⟩
  · have hval := hms.valid m hm
    refine ⟨hbound.linked m hm, fun d hd => ?_, hval.covered.of_names (hbound.names m hm)⟩
    rw [hstates]
    exact hval.states d hd
  · refine List.pairwise_append.mpr ⟨hu.separate, hms.separate, fun m hm m' hm' r hr hr' => ?_⟩
    exact hms.outside m' hm' r hr' (models_subset hm hr)
  · show ((p.models ++ ms).flatMap (·.states)).Nodup
    rw [List.flatMap_append, List.nodup_append]
    refine ⟨hu.distinct, hms.distinct, fun d hd e he heq => ?_⟩
    obtain ⟨m, hm, hd⟩ := List.mem_flatMap.mp hd
    obtain ⟨m', hm', he⟩ := List.mem_flatMap.mp he
    exact hms.apart m' hm' e he m hm (heq ▸ hd)

/-- **Joined models share one cell per name with the composite.** -/
theorem appendModels_spec {b u : Store α} {p : Composite α} {ms : List (Model α)}
    (program : Program α) (hb : b.Apart u) (hp : p.Built b u) (hms : Joinable b u p ms) :
    ∃ t, (p.appendModels ms program).outcome u =
        (.ok { p with models := p.models ++ ms, program := p.program ++ program }, t) ∧
      b.Apart t ∧
      Built b t { p with models := p.models ++ ms, program := p.program ++ program } ∧
      Bound u t p.vars p.pars ms ∧ t.cells = u.cells ∧ t.states = u.states ∧
      ∀ m ∈ p.models, ∀ r ∈ m.registries, t.registry r = u.registry r := by
  have hv := hp.valid
  have hbound := bound_links hv.kinds (fun m hm => (hms.valid m hm).linked) hms.heads_outside
    hms.separate hv.bounded.1 hv.bounded.2
  set t := u.linkAll (links p.vars p.pars ms)
  have hsize : t.registries.size = u.registries.size := Store.size_linkAll _ _
  have hstates : t.states = u.states := Store.states_linkAll _ _
  have hkept : ∀ m ∈ p.models, ∀ r ∈ m.registries, t.registry r = u.registry r := by
    intro m hm r hr
    refine hbound.others r (fun m' hm' hr' => ?_) (fun he => ?_) fun he => ?_
    · exact hms.outside m' hm' r hr' (models_subset hm hr)
    · exact (hv.outside m hm).1 (he ▸ hr)
    · exact (hv.outside m hm).2 (he ▸ hr)
  have hwide : p.Valid t :=
    hv.widen hsize.ge (by rw [hstates]) hkept hbound.varsUnder hbound.parsUnder
  refine ⟨t, ?_, ?_, ⟨hv.joined hwide hms hbound hstates _, fun r hr => ?_, fun m hm => ?_⟩,
    hbound, Store.cells_linkAll _ _, hstates, hkept⟩
  · unfold appendModels
    rw [Run.outcome_bind_ok _ (outcome_bindModels p.vars p.pars ms u)]
    rfl
  · refine hb.linkAll fun e he => ?_
    obtain ⟨m, hm, he⟩ := List.mem_flatMap.mp he
    obtain ⟨hown, hshared | hshared | hshared⟩ := Model.links_subset he
    · exact ⟨hms.registries m hm _ hown, hms.registries m hm _ hshared⟩
    · exact ⟨hms.registries m hm _ hown, hshared ▸ hp.registries _ p.vars_mem⟩
    · exact ⟨hms.registries m hm _ hown, hshared ▸ hp.registries _ p.pars_mem⟩
  · rcases mem_registries.mp hr with rfl | rfl | ⟨m, hm, hr⟩
    · exact hp.registries _ p.vars_mem
    · exact hp.registries _ p.pars_mem
    · rcases List.mem_append.mp hm with hm | hm
      · exact hp.registries _ (models_subset hm hr)
      · exact hms.registries m hm r hr
  · rcases List.mem_append.mp hm with hm | hm
    · exact hp.states m hm
    · exact hms.states m hm

/-- Copies are ready to be joined to a composite that was there before. -/
theorem joinable_of_copies {b s t : Store α} {p : Composite α} {f : RegistryId → RegistryId}
    {g : CellId → CellId} {rs : List RegistryId} {ms ms' : List (Model α)}
    (hbr : b.registries.size ≤ s.registries.size) (hbs : b.states.size ≤ s.states.size)
    (hp : p.Valid s) (hms : ∀ m ∈ ms, m.Valid s) (hrs : ∀ m ∈ ms, m.registries ⊆ rs)
    (hsep : ms.Pairwise fun a b => a.registries.Disjoint b.registries)
    (hf : s.Copied t rs f g) (hc : Model.Copies f s t ms ms') : Joinable b t p ms' := by
  have hnew : ∀ m' ∈ ms', ∀ r ∈ m'.registries, s.registries.size ≤ r.index := by
    intro m' hm' r hr
    obtain ⟨m, hm, hcopy⟩ := hc.mem hm'
    obtain ⟨q, hq, rfl⟩ := hcopy.mem_registries.mp hr
    exact (hf.fresh q (hrs m hm hq)).1
  have hstates : ∀ m' ∈ ms', ∀ d ∈ m'.states, s.states.size ≤ d.index := fun m' hm' d hd =>
    (hc.fresh d (List.mem_flatMap.mpr ⟨m', hm', hd⟩)).1
  refine ⟨Model.Valid.copies hms hrs hf hc, fun m' hm' r hr => hbr.trans (hnew m' hm' r hr),
    fun m' hm' d hd => hbs.trans (hstates m' hm' d hd), fun m' hm' r hr hr' => ?_,
    hc.pairwise hf hrs hsep, hc.distinct, fun m' hm' d hd m hm hd' => ?_⟩
  · have h1 := hnew m' hm' r hr
    have h2 := hp.bounded_registries r hr'
    omega
  · have h1 := hstates m' hm' d hd
    have h2 := hp.bounded_states m hm d hd'
    omega

omit [Scalar α] in
/-- Where the models are under a registry all of whose names are shared or theirs, the shared
registry takes from it what it lacks. -/
theorem Bound.find?_shared {u t : Store α} {p : Composite α} {ms : List (Model α)}
    (h : Bound u t p.vars p.pars ms) (kind : CellKind) {cover : Registry}
    (hunder : ∀ m ∈ ms, (u.registry ((Density.model m).registryOf kind)).Under cover)
    (hnamed : ∀ n ∈ cover.names,
      n ∈ (u.registry ((Density.composite p).registryOf kind)).names ∨
        ∃ m ∈ ms, n ∈ (u.registry ((Density.model m).registryOf kind)).names) (n : String) :
    (t.registry ((Density.composite p).registryOf kind)).find? n =
      ((u.registry ((Density.composite p).registryOf kind)).find? n).or (cover.find? n) := by
  cases kind with
  | «variable» =>
    exact find?_bound h.varsUnder h.varsOrigin (fun m hm => h.varCells m hm _ m.head_vars_mem)
      (fun m hm => h.names m hm _ (m.varRegistries_subset m.head_vars_mem)) hunder hnamed n
  | parameter =>
    exact find?_bound h.parsUnder h.parsOrigin (fun m hm => h.parCells m hm _ m.head_pars_mem)
      (fun m hm => h.names m hm _ (m.parRegistries_subset m.head_pars_mem)) hunder hnamed n

end Composite

/-! ### Operands -/

/-- The models of a density. -/
def Density.models : Density α → List (Model α)
  | .model m => [m]
  | .composite p => p.models

/-- The density that an operand is. -/
def Operand.density? : Operand α → Option (Density α)
  | .model m => some (.model m)
  | .composite p => some (.composite p)
  | _ => none

omit [Scalar α] in
theorem Operand.isDensity_of_density? {x : Operand α} (h : x.density? = none) :
    x.isDensity = false := by
  cases x <;> first | rfl | cases h

/-- The models of an operand. -/
def Operand.models (x : Operand α) : List (Model α) := x.density?.elim [] Density.models

omit [Scalar α] in
theorem Operand.models_eq (x : Operand α) :
    x.models = x.density?.toList.flatMap Density.models := by
  unfold Operand.models
  cases x.density? with
  | none => rfl
  | some d => exact (List.append_nil _).symm

omit [Scalar α] in
/-- The models of a valid density are valid. -/
theorem Density.Valid.models {s : Store α} {d : Density α} (h : d.Valid s) :
    ∀ m ∈ d.models, m.Valid s := by
  intro m hm
  cases d with
  | model n =>
    rw [List.mem_singleton.mp hm]
    exact h
  | composite p => exact Composite.Valid.models h m hm

omit [Scalar α] in
/-- The parameters of the models of a valid density are its own. -/
theorem Density.Valid.pars_under {s : Store α} {d : Density α} (h : d.Valid s) :
    ∀ m ∈ d.models, ∀ r ∈ m.parRegistries, (s.registry r).Under (s.registry d.pars) := by
  intro m hm
  cases d with
  | model k =>
    rw [List.mem_singleton.mp hm]
    exact (Model.Valid.linked h).pars
  | composite p => exact Composite.Valid.pars h m hm

omit [Scalar α] in
theorem Density.Valid.vars_bounded {s : Store α} {d : Density α} (h : d.Valid s) :
    d.vars.index < s.registries.size := by
  cases d with
  | model m =>
    have hl : m.Linked s := Model.Valid.linked h
    exact hl.bounded _ (m.varRegistries_subset m.head_vars_mem)
  | composite p => exact (Composite.Valid.bounded h).1

omit [Scalar α] in
theorem Density.Valid.pars_bounded {s : Store α} {d : Density α} (h : d.Valid s) :
    d.pars.index < s.registries.size := by
  cases d with
  | model m =>
    have hl : m.Linked s := Model.Valid.linked h
    exact hl.bounded _ (m.parRegistries_subset m.head_pars_mem)
  | composite p => exact (Composite.Valid.bounded h).2

/-- The density that a valid operand is. -/
theorem Operand.Valid.density {s : Store α} {x : Operand α} (h : x.Valid s) :
    ∀ d ∈ x.density?.toList, d.Valid s := by
  intro d hd
  cases x with
  | model m =>
    rw [List.mem_singleton.mp hd]
    exact h
  | composite p =>
    rw [List.mem_singleton.mp hd]
    exact h
  | _ => simp [Operand.density?] at hd

namespace Composite

/-- What appending an operand to a composite comes to. -/
structure Joined (b s t : Store α) (p : Composite α) (x : Operand α) (q : Composite α) : Prop where
  apart : b.Apart t
  built : q.Built b t
  vars : q.vars = p.vars
  pars : q.pars = p.pars
  cells : ∀ c : CellId, c.index < s.cells.size → t.cell c = s.cell c
  states : ∀ d : StateId, d.index < s.states.size → t.state d = s.state d
  registries : ∀ m ∈ p.models, ∀ r ∈ m.registries, t.registry r = s.registry r
  models : ∃ ms, q.models = p.models ++ ms ∧
    List.Forall₂ (Model.Carried (s.value? p.pars) s t) x.models ms
  parValues : ∀ d, x.density? = some d → ∀ n,
    t.value? p.pars n = (s.value? p.pars n).or (s.value? d.pars n)

theorem Built.grows {b s t : Store α} {p : Composite α} (h : p.Built b s) (hst : s.Grows t) :
    p.Built b t := ⟨h.valid.grows hst, h.registries, h.states⟩

/-- The shared registry has its own values and those that came in. -/
theorem value?_joined {s t₁ t : Store α} {pars cover pars' : RegistryId} (hs : s.Sound)
    (hst : Store.Within ∅ ∅ s t₁) (hcells : t.cells = t₁.cells)
    (hpars : ∀ n, (t.registry pars).find? n =
      ((s.registry pars).find? n).or ((t₁.registry cover).find? n))
    (hcover : ∀ n, t₁.value? cover n = s.value? pars' n) (n : String) :
    t.value? pars n = (s.value? pars n).or (s.value? pars' n) := by
  have hcell : ∀ c, t.cell c = t₁.cell c := Store.cell_congr hcells
  rw [← hcover]
  unfold Store.value?
  rw [hpars]
  cases hp : (s.registry pars).find? n with
  | none =>
    simp only [Option.none_or, Option.map_none]
    refine congrArg (fun h => ((t₁.registry cover).find? n).map h) (funext fun c => ?_)
    rw [hcell]
  | some c =>
    simp only [Option.some_or, Option.map_some]
    rw [hcell, hst.cells c ((hs pars).find?_bounded hp) (Set.notMem_empty _)]

/-- Models that come in from an operand: copied from the store `s`, so that they read in
`t` as the operand's, and brought under one registry of parameters. In `u`, the
composite is ready to take them. -/
structure Incoming (b s t u : Store α) (p : Composite α) (x : Operand α)
    (f : RegistryId → RegistryId) (cover : RegistryId) (ms : List (Model α)) : Prop where
  copied : Store.Within ∅ ∅ s t
  apart : b.Apart u
  built : p.Built b u
  joinable : Joinable b u p ms
  carried : List.Forall₂ (Model.CarriedBy f Store.noValues s t) x.models ms
  cells : u.cells = t.cells
  states : u.states = t.states
  incoming : ∀ m ∈ ms, ∀ r ∈ m.registries, u.registry r = t.registry r
  kept : ∀ m ∈ p.models, ∀ r ∈ m.registries, u.registry r = s.registry r
  under : ∀ m ∈ ms, ∀ r ∈ m.parRegistries, (t.registry r).Under (t.registry cover)
  shared : ∀ n, ((u.registry p.pars).find? n).or ((t.registry cover).find? n) =
    ((s.registry p.pars).find? n).or ((t.registry cover).find? n)
  named : ∀ n ∈ (t.registry cover).names, n ∈ (u.registry p.pars).names ∨
    ∃ m ∈ ms, n ∈ (u.registry m.head.pars).names
  values : ∀ d, x.density? = some d → ∀ n, t.value? cover n = s.value? d.pars n

/-- Incoming models are joined. -/
theorem Incoming.joined {b s t₁ u : Store α} {p : Composite α} {x : Operand α}
    {f : RegistryId → RegistryId} {cover : RegistryId} {ms : List (Model α)} (hs : s.Sound)
    (h : Incoming b s t₁ u p x f cover ms) (program : Program α) :
    (p.appendModels ms program).Ends u (fun q t => Joined b s t p x q) b.Apart := by
  obtain ⟨t, ht, hbt, hbuilt, hbound, hcells, hstates, hkept⟩ :=
    appendModels_spec program h.apart h.built h.joinable
  have hheads : ∀ m ∈ ms, (u.registry m.head.pars).Under (t₁.registry cover) := by
    intro m hm
    rw [h.incoming m hm _ (m.parRegistries_subset m.head_pars_mem)]
    exact h.under m hm _ m.head_pars_mem
  have hpars : ∀ n, (t.registry p.pars).find? n =
      ((s.registry p.pars).find? n).or ((t₁.registry cover).find? n) := fun n =>
    (hbound.find?_shared .parameter hheads h.named n).trans (h.shared n)
  have hcells' : t.cells = t₁.cells := hcells.trans h.cells
  have hstates' : t.states = t₁.states := hstates.trans h.states
  refine Run.ends_of_ok ht ⟨hbt, hbuilt, rfl, rfl, fun c hc => ?_, fun d hd => ?_,
    fun m hm r hr => ?_, ⟨ms, rfl, ?_⟩, fun d hd => ?_⟩
  · rw [Store.cell_congr hcells']
    exact h.copied.cells c hc (Set.notMem_empty _)
  · rw [Store.state_congr hstates']
    exact h.copied.states d hd (Set.notMem_empty _)
  · rw [hkept m hm r hr, h.kept m hm r hr]
  · refine forall₂_of_mem h.carried fun m _ m' hm' hc => ?_
    refine ⟨f, hc.of_bound hs (fun r hr n => ?_) (fun r hr => ?_) hpars (h.under m' hm')
      h.copied hcells' hstates'⟩
    · rw [hbound.parCells m' hm' r hr, h.incoming m' hm' r (m'.parRegistries_subset hr)]
    · rw [hbound.names m' hm' r hr, h.incoming m' hm' r hr]
  · exact value?_joined hs h.copied hcells' hpars (h.values d hd)

/-- The copy of a model comes in. -/
theorem incoming_of_model {b s t : Store α} {p : Composite α} {m m' : Model α}
    {f : RegistryId → RegistryId} {g : CellId → CellId} (hb : b.Apart s) (hp : p.Built b s)
    (hm : m.Valid s) (hap : s.Apart t) (hf : s.Copied t m.registries f g)
    (hcs : Model.Copies f s t [m] [m']) :
    Incoming b s t t p (.model m) f m'.head.pars [m'] := by
  have hm' : m' ∈ [m'] := List.mem_singleton_self m'
  have hj : Joinable b t p [m'] := joinable_of_copies hb.moreRegistries hb.moreStates hp.valid
    (by simpa using hm) (by simp) (List.pairwise_singleton _ _) hf hcs
  have hcarried : List.Forall₂ (Model.CarriedBy f Store.noValues s t) [m] [m'] :=
    Model.Carried.of_copies hf (by simp) hcs
  obtain ⟨hc, -⟩ := List.forall₂_cons.mp hcarried
  have hold : ∀ r ∈ p.registries, t.registry r = s.registry r := fun r hr =>
    hap.registries r (hp.valid.bounded_registries r hr)
  exact
    { copied := hap.toWithin
      apart := hb.trans hap
      built := hp.grows hap.toGrows
      joinable := hj
      carried := hcarried
      cells := rfl
      states := rfl
      incoming := fun _ _ _ _ => rfl
      kept := fun n hn r hr => hold r (models_subset hn hr)
      under := by
        intro n hn
        rw [List.mem_singleton.mp hn]
        exact (hj.valid m' hm').linked.pars
      shared := fun n => by rw [hold _ p.pars_mem]
      named := fun n hn => .inr ⟨m', hm', hn⟩
      values := by
        intro d hd n
        obtain rfl := Option.some.inj hd
        rw [hc.shape.head]
        show t.value? (f m.head.pars) n = s.value? m.head.pars n
        rw [hc.values _ m.head_pars_mem]
        exact Option.map_getD_none _ }

/-- A model is copied and joined. -/
theorem append_model {b s : Store α} {p : Composite α} {m : Model α} (hb : b.Apart s)
    (hp : p.Built b s) (hm : m.Valid s) :
    (p.append (.model m)).Ends s (fun q t => Joined b s t p (.model m) q) b.Apart := by
  obtain ⟨m', t, f, g, ht, hap, hf, hcs⟩ := Model.copy_spec hb.sound m hm.states
  have hin := incoming_of_model hb hp hm hap hf hcs
  exact Run.ends_ok_bind ht (hin.joined hb.sound _)

omit [Scalar α] in
/-- Pointing other registries to those of a composite only adds names to it. -/
theorem Built.pointed {b t u : Store α} {p : Composite α} {ownVars ownPars : RegistryId}
    (hp : p.Built b t) (hu : t.Pointed u ownVars ownPars p.vars p.pars)
    (hsize : t.registries.size ≤ u.registries.size) (hstates : t.states.size ≤ u.states.size)
    (hkept : ∀ m ∈ p.models, ∀ r ∈ m.registries, u.registry r = t.registry r) :
    p.Built b u := by
  refine ⟨hp.valid.widen hsize hstates hkept ?_ ?_, hp.registries, hp.states⟩
  · rw [hu.toVars]
    exact Registry.shared_under_rebind _ _
  · rw [hu.toPars]
    exact Registry.shared_under_rebind _ _

/-- The registries of a copy are not those of a composite that was there before. -/
theorem CopyOf.outside {s t : Store α} {p x y : Composite α}
    {f : RegistryId → RegistryId} {g : CellId → CellId} (h : x.CopyOf f s t y) (hp : p.Valid s)
    (hf : s.Copied t x.registries f g) : ∀ r ∈ p.registries, r ≠ y.vars ∧ r ≠ y.pars := by
  have hvars : s.registries.size ≤ y.vars.index := h.vars ▸ (hf.fresh _ x.vars_mem).1
  have hpars : s.registries.size ≤ y.pars.index := h.pars ▸ (hf.fresh _ x.pars_mem).1
  intro r hr
  have hlt := hp.bounded_registries r hr
  exact ⟨fun he => absurd hvars (he ▸ hlt).not_ge, fun he => absurd hpars (he ▸ hlt).not_ge⟩

/-- The registries of a copy are pointed to those of a composite. -/
theorem CopyOf.pointed {b s t : Store α} {p x y : Composite α} {f : RegistryId → RegistryId}
    {g : CellId → CellId} (h : x.CopyOf f s t y) (hp : p.Built b s) (hx : x.Valid s)
    (hap : s.Apart t) (hf : s.Copied t x.registries f g) :
    t.Pointed ((t.link y.vars p.vars).link y.pars p.pars) y.vars y.pars p.vars p.pars := by
  have hy : y.Valid t := hx.copied hf h
  have hpt : p.Valid t := hp.valid.grows hap.toGrows
  obtain ⟨hvv, hvp⟩ := h.outside hp.valid hf _ p.vars_mem
  obtain ⟨hpv, hpp⟩ := h.outside hp.valid hf _ p.pars_mem
  exact Store.pointed_links hy.kinds ⟨hvv.symm, hpv.symm⟩ ⟨hvp.symm, hpp.symm⟩ hpt.kinds
    hpt.bounded.1 hpt.bounded.2

/-- The models of a copy come in once its registries are pointed to the composite's. -/
theorem incoming_of_copy {b s t : Store α} {p x y : Composite α}
    {f : RegistryId → RegistryId} {g : CellId → CellId} (hb : b.Apart s) (hp : p.Built b s)
    (hx : x.Valid s) (hap : s.Apart t) (hf : s.Copied t x.registries f g)
    (hcopy : x.CopyOf f s t y) :
    Incoming b s t ((t.link y.vars p.vars).link y.pars p.pars) p (.composite x) f y.pars
      y.models := by
  have hy : y.Valid t := hx.copied hf hcopy
  have hms : ∀ m ∈ x.models, m.registries ⊆ x.registries := fun m hm => models_subset hm
  have hj : Joinable b t p y.models := joinable_of_copies hb.moreRegistries hb.moreStates
    hp.valid hx.models hms hx.separate hf hcopy.models
  have hpt : p.Built b t := hp.grows hap.toGrows
  have hnew := hcopy.outside hp.valid hf
  have hpoint := hcopy.pointed hp hx hap hf
  have hvars : s.registries.size ≤ y.vars.index := hcopy.vars ▸ (hf.fresh _ x.vars_mem).1
  have hpars : s.registries.size ≤ y.pars.index := hcopy.pars ▸ (hf.fresh _ x.pars_mem).1
  set u := (t.link y.vars p.vars).link y.pars p.pars with hu
  have hsize : u.registries.size = t.registries.size := by
    rw [hu, Store.size_link, Store.size_link]
  have hstates : u.states = t.states := by rw [hu, Store.states_link, Store.states_link]
  have hmore : t.states.size ≤ u.states.size := by rw [hstates]
  have hcells : u.cells = t.cells := by rw [hu, Store.cells_link, Store.cells_link]
  have hkept : ∀ m ∈ p.models, ∀ r ∈ m.registries, u.registry r = t.registry r := by
    intro m hm r hr
    obtain ⟨h1, h2⟩ := hnew r (models_subset hm hr)
    exact hpoint.others r h1 h2 (fun he => (hpt.valid.outside m hm).1 (he ▸ hr))
      fun he => (hpt.valid.outside m hm).2 (he ▸ hr)
  have hincoming : ∀ m ∈ y.models, ∀ r ∈ m.registries, u.registry r = t.registry r := by
    intro m hm r hr
    have hout := hj.outside m hm r hr
    exact hpoint.others r (fun he => (hy.outside m hm).1 (he ▸ hr))
      (fun he => (hy.outside m hm).2 (he ▸ hr)) (fun he => hout (he ▸ p.vars_mem))
      fun he => hout (he ▸ p.pars_mem)
  have hapart : b.Apart u :=
    ((hb.trans hap).link (hb.moreRegistries.trans hvars) (hp.registries _ p.vars_mem)).link
      (hb.moreRegistries.trans hpars) (hp.registries _ p.pars_mem)
  exact
    { copied := hap.toWithin
      apart := hapart
      built := hpt.pointed hpoint hsize.ge hmore hkept
      joinable := { hj with
        valid := fun m hm => (hj.valid m hm).of_registries hsize.ge hmore (hincoming m hm) }
      carried := Model.Carried.of_copies hf hms hcopy.models
      cells := hcells
      states := hstates
      incoming := hincoming
      kept := fun m hm r hr => by
        rw [hkept m hm r hr]
        exact hap.registries r (hp.valid.bounded_registries r (models_subset hm hr))
      under := hy.pars
      shared := fun n => by
        rw [hpoint.toPars, Registry.find?_rebind_shared, hap.registries _ hp.valid.bounded.2,
          Option.or_assoc, Option.or_self]
      named := fun n hn => .inl <| by
        rw [hpoint.toPars]
        exact (Registry.under_rebind _ _).names_subset (by rwa [Registry.names_rebind])
      values := fun d hd n => by
        obtain rfl := Option.some.inj hd
        rw [hcopy.pars]
        exact hf.value? x.pars_mem n }

/-- **A composite is copied, its registries are joined, and then its models.** -/
theorem append_composite {b s : Store α} {p x : Composite α} (hb : b.Apart s)
    (hp : p.Built b s) (hx : x.Valid s) :
    (p.append (.composite x)).Ends s (fun q t => Joined b s t p (.composite x) q) b.Apart := by
  obtain ⟨y, t, f, g, ht, hap, hf, hcopy⟩ := Composite.copy_spec hb.sound x hx.bounded_states
  have hin := incoming_of_copy hb hp hx hap hf hcopy
  refine Run.ends_ok_bind ht (Run.ends_ok_bind (Run.outcome_rebind _ _ _) ?_)
  exact Run.ends_ok_bind (Run.outcome_rebind _ _ _) (hin.joined hb.sound _)

omit [Scalar α] in
/-- The program of a composite has no part in whether it is valid. -/
theorem Built.withProgram {b s : Store α} {p : Composite α} (h : p.Built b s)
    (program : Program α) : Built b s { p with program := program } :=
  ⟨⟨h.valid.bounded, h.valid.kinds, h.valid.models, h.valid.outside, h.valid.separate,
    h.valid.distinct, h.valid.vars, h.valid.pars⟩, h.registries, h.states⟩

omit [Scalar α] in
/-- A registry that adopts entries has them under the names that it lacked. -/
theorem outcome_adopt (r : RegistryId) : ∀ (es : List (String × CellId)) {s : Store α},
    r.index < s.registries.size →
    ∃ t, (adopt r es).outcome s = (.ok (), t) ∧ t.cells = s.cells ∧
      (∀ q, q ≠ r → t.registry q = s.registry q) ∧
      ∀ n, (t.registry r).find? n = ((s.registry r).find? n).or (Registry.find? ⟨es⟩ n)
  | [], s, _ => ⟨s, rfl, rfl, fun _ _ => rfl, fun n => (Option.or_none).symm⟩
  | (m, c) :: rest, s, hr => by
    set s₁ := s.putRegistry r ((s.registry r).setDefault m c).2 with hs₁
    have hsize : r.index < s₁.registries.size := by rwa [hs₁, Store.size_putRegistry]
    obtain ⟨t, ht, hcells, hothers, hfind⟩ := outcome_adopt r rest hsize
    refine ⟨t, (Run.outcome_bind_ok _ (Run.outcome_modify _ s)).trans ht, hcells,
      fun q hq => ?_, fun n => ?_⟩
    · rw [hothers q hq, hs₁, Store.registry_putRegistry, if_neg fun h => hq h.1]
    · rw [hfind, hs₁, Store.registry_putRegistry, if_pos ⟨rfl, hr⟩, Registry.find?_setDefault,
        Registry.find?_cons, Option.or_assoc]
      congr 1
      split_ifs <;> rfl

/-- New cells under their names are adopted. -/
theorem adopt_spec {b : Store α} {p : Composite α} : ∀ (es : List (String × CellId))
    {s : Store α}, b.Apart s → p.Built b s →
    (∀ e ∈ es, b.cells.size ≤ e.2.index ∧ e.2.index < s.cells.size ∧ (s.cell e.2).name = e.1) →
    ∃ t, (adopt p.pars es).outcome s = (.ok (), t) ∧ b.Apart t ∧ p.Built b t ∧
      t.cells = s.cells ∧ t.states = s.states ∧ ∀ r, r ≠ p.pars → t.registry r = s.registry r
  | [], s, hb, hp, _ => ⟨s, rfl, hb, hp, rfl, rfl, fun _ _ => rfl⟩
  | (n, c) :: rest, s, hb, hp, he => by
    rw [List.forall_mem_cons] at he
    obtain ⟨hnew, hlt, hname⟩ := he.1
    set r := s.registry p.pars with hr
    set s₁ := s.putRegistry p.pars (r.setDefault n c).2 with hs₁
    have hold := hb.sound p.pars
    have hentry : ∀ e ∈ (r.setDefault n c).2.entries, e ∈ r.entries ∨ e = (n, c) := fun e he =>
      Registry.mem_setDefault he
    have hholds : s.Holds (r.setDefault n c).2 := hold.setDefault hlt hname
    have hpars : b.registries.size ≤ p.pars.index := hp.registries _ p.pars_mem
    have hb₁ : b.Apart s₁ := by
      refine hb.putRegistry hpars hholds fun e he => ?_
      rcases hentry e he with he | rfl
      · exact hb.detached _ hpars e he
      · exact hnew
    have hne : ∀ q, q ≠ p.pars → s₁.registry q = s.registry q := fun q hq => by
      rw [hs₁, Store.registry_putRegistry, if_neg fun h => hq h.1]
    have hself : s₁.registry p.pars = (r.setDefault n c).2 := by
      rw [hs₁, Store.registry_putRegistry, if_pos ⟨rfl, hp.valid.bounded.2⟩]
    have hsize : s₁.registries.size = s.registries.size := Store.size_putRegistry _ _ _
    have hp₁ : p.Built b s₁ :=
      { valid := by
          refine hp.valid.widen hsize.ge le_rfl (fun m hm q hq => hne q ?_) ?_ ?_
          · rintro rfl
            exact (hp.valid.outside m hm).2 hq
          · rw [hne _ hp.valid.kinds]
            exact Registry.Under.refl _
          · intro m d hd
            rw [hself, Registry.find?_setDefault, hd]
            rfl
        registries := hp.registries
        states := hp.states }
    obtain ⟨t, ht, hbt, hpt, hcells, hstates, hregs⟩ := adopt_spec rest hb₁ hp₁ he.2
    refine ⟨t, ?_, hbt, hpt, hcells, hstates, fun q hq => (hregs q hq).trans (hne q hq)⟩
    show (modify _ >>= fun _ => adopt p.pars rest).outcome s = _
    rw [Run.outcome_bind_ok _ (Run.outcome_modify _ s)]
    exact ht

/-- An operand without models only adds to the registry of parameters. -/
theorem joined_of_adopted {b s t₁ t : Store α} {p : Composite α} {x : Operand α}
    (hx : x.density? = none) (hp : p.Built b s) (hst : Store.Within ∅ ∅ s t₁) (hb : b.Apart t)
    (hpt : p.Built b t) (hcells : t.cells = t₁.cells) (hstates : t.states = t₁.states)
    (hregs : ∀ r, r ≠ p.pars → t.registry r = t₁.registry r) (program : Program α) :
    Joined b s t p x { p with program := program } where
  apart := hb
  built := hpt.withProgram program
  vars := rfl
  pars := rfl
  cells c hc := by
    rw [Store.cell_congr hcells]
    exact hst.cells c hc (Set.notMem_empty _)
  states d hd := by
    rw [Store.state_congr hstates]
    exact hst.states d hd (Set.notMem_empty _)
  registries m hm r hr := by
    have hne : r ≠ p.pars := fun h => (hp.valid.outside m hm).2 (h ▸ hr)
    rw [hregs r hne]
    exact hst.registries r ((hp.valid.models m hm).linked.bounded r hr)
  models := by
    refine ⟨[], (List.append_nil _).symm, ?_⟩
    unfold Operand.models
    rw [hx]
    exact .nil
  parValues d hd := by
    rw [hx] at hd
    simp at hd

/-- A number is appended as a constant. -/
theorem append_number (p : Composite α) {d : Datum α} {y : α} (h : d.number? = some y) :
    p.append (.plain d) = pure { p with program := p.program ++ [.leaf (.constant y)] } := by
  simp only [append, h]

/-- Nothing else that is plain is accepted; a number out of reach overflows. -/
theorem append_plain (p : Composite α) {d : Datum α} (h : d.number? = none) :
    p.append (.plain d) = throw (if d.isReal then .overflow else .cannotAppend d.kindName) := by
  simp only [append, h]

/-- **What is appended joins what was there**, or nothing of what was there changes. -/
theorem append_spec {b s : Store α} {p : Composite α} {x : Operand α} (hb : b.Apart s)
    (hp : p.Built b s) (hx : x.Valid s) :
    (p.append x).Ends s (fun q t => Joined b s t p x q) b.Apart := by
  have hself := Store.Apart.refl hb.sound
  cases x with
  | model m => exact append_model hb hp hx
  | composite x => exact append_composite hb hp hx
  | parameter c =>
    have hb₁ := hb.addCell (s.cell c)
    have hst : s.Apart (s.addCell (s.cell c)) := hself.addCell (s.cell c)
    obtain ⟨t, ht, hbt, hpt, hcells, hstates, hregs⟩ := adopt_spec
      [((s.cell c).name, ⟨s.cells.size⟩)] hb₁ (hp.grows hst.toGrows) (by
        rw [List.forall_mem_cons]
        refine ⟨⟨hb.moreCells, ?_, ?_⟩, by simp⟩
        · rw [Store.size_addCell]
          exact Nat.lt_succ_self _
        · rw [Store.cell_addCell, if_pos rfl])
    refine Run.ends_get_bind (Run.ends_ok_bind (Run.outcome_newCell _ s) (Run.ends_ok_bind ht ?_))
    exact Run.ends_pure
      (joined_of_adopted rfl hp hst.toWithin hbt hpt hcells hstates hregs _)
  | expression e =>
    obtain ⟨t₁, g, ht₁, hap, hg⟩ := Expression.copy_spec hb.sound e
    have hh : t₁.Holds (e.pars.rename g) := Store.Holds.copied hx hg
    obtain ⟨t, ht, hbt, hpt, hcells, hstates, hregs⟩ := adopt_spec (e.pars.rename g).entries
      (hb.trans hap) (hp.grows hap.toGrows) (by
        rintro ⟨n, c⟩ he
        refine ⟨?_, hh.bounded n c he, hh.named n c he⟩
        have hmem : c ∈ (e.pars.rename g).cells := Registry.mem_cells_iff.mpr ⟨n, he⟩
        rw [Registry.cells_rename] at hmem
        obtain ⟨d, hd, rfl⟩ := List.mem_map.mp hmem
        exact hb.moreCells.trans (hg.fresh d hd).1)
    refine Run.ends_ok_bind ht₁ (Run.ends_ok_bind ht ?_)
    exact Run.ends_pure
      (joined_of_adopted rfl hp hap.toWithin hbt hpt hcells hstates hregs _)
  | plain d =>
    cases hn : d.number? with
    | none =>
      rw [append_plain p hn]
      exact Run.ends_throw hb
    | some y =>
      rw [append_number p hn]
      refine Run.ends_pure ?_
      exact joined_of_adopted rfl hp hself.toWithin hb hp rfl rfl (fun _ _ => rfl) _
  | operation op =>
    refine Run.ends_of_ok rfl ?_
    exact joined_of_adopted rfl hp hself.toWithin hb hp rfl rfl (fun _ _ => rfl) _
  | weight w => exact Run.ends_throw hb
  | other k => exact Run.ends_throw hb

end Composite

end DensityAlgebra
