/-
# What an object can reach

What a valid object can reach, its cells and what is stored of its decay densities, is
settled when the object is made: a growing store adds nothing to it. An object reads
nothing else, so what happens elsewhere does not change its value. What is new has
nothing in common with what was there.

Key definitions: `Object.Separate`, `Object.SameValue`.
Key theorems: `Object.cells_grows`, `Object.Valid.cells_bounded`, `Object.New.separate`,
`Object.Valid.sameValue`.
-/
import DensityAlgebra.Proofs.Makings

namespace DensityAlgebra

variable {α : Type}

/-! ### Bounds -/

/-- The objects have no cell and no stored normalization in common. -/
structure Object.Separate (s : Store α) (o x : Object α) : Prop where
  cells : ∀ c ∈ o.cells s, c ∉ x.cells s
  states : ∀ d ∈ o.states, d ∉ x.states

theorem Object.Separate.symm {s : Store α} {o x : Object α} (h : o.Separate s x) :
    x.Separate s o where
  cells c hc hc' := h.cells c hc' hc
  states d hd hd' := h.states d hd' hd

theorem Density.heads_mem (d : Density α) : d.vars ∈ d.registries ∧ d.pars ∈ d.registries := by
  cases d with
  | model m =>
    exact ⟨m.varRegistries_subset m.head_vars_mem, m.parRegistries_subset m.head_pars_mem⟩
  | composite p => exact ⟨p.vars_mem, p.pars_mem⟩

theorem Density.registries_of_model {d : Density α} {m : Model α} (hm : m ∈ d.models) :
    m.registries ⊆ d.registries := by
  intro r hr
  cases d with
  | model k =>
    rw [List.mem_singleton.mp hm] at hr
    exact hr
  | composite p => exact Composite.models_subset hm hr

theorem Density.Valid.registries_bounded {s : Store α} {d : Density α} (h : d.Valid s) :
    ∀ r ∈ d.registries, r.index < s.registries.size := by
  cases d with
  | model m =>
    have hl : m.Linked s := Model.Valid.linked h
    exact hl.bounded
  | composite p => exact Composite.Valid.bounded_registries h

theorem Density.Valid.states_bounded {s : Store α} {d : Density α} (h : d.Valid s) :
    ∀ e ∈ d.states, e.index < s.states.size := by
  intro e he
  obtain ⟨m, hm, he⟩ := List.mem_flatMap.mp he
  exact (h.models m hm).states e he

variable [Scalar α]

theorem Object.Valid.registries_bounded {s : Store α} {o : Object α} (h : o.Valid s) :
    ∀ r ∈ o.registries, r.index < s.registries.size := by
  cases o with
  | density d => exact Density.Valid.registries_bounded h
  | weight w => exact Weight.Valid.bounded h
  | amplitude a => exact Amplitude.Valid.bounded h
  | _ => exact fun _ hr => absurd hr List.not_mem_nil

theorem Object.Valid.states_bounded {s : Store α} {o : Object α} (h : o.Valid s) :
    ∀ d ∈ o.states, d.index < s.states.size := by
  cases o with
  | density d => exact Density.Valid.states_bounded h
  | _ => exact fun _ hd => absurd hd List.not_mem_nil

/-- **What an object can reach stays the same** in a growing store. -/
theorem Object.cells_grows {s t : Store α} {o : Object α} (h : o.Valid s) (hst : s.Grows t) :
    o.cells t = o.cells s := by
  have hreg : {c | ∃ r ∈ o.registries, c ∈ (t.registry r).cells} =
      {c | ∃ r ∈ o.registries, c ∈ (s.registry r).cells} := by
    ext c
    constructor <;> rintro ⟨r, hr, hc⟩ <;> refine ⟨r, hr, ?_⟩
    · rwa [hst.registries r (h.registries_bounded r hr)] at hc
    · rwa [hst.registries r (h.registries_bounded r hr)]
  cases o with
  | cell c => rfl
  | expression k e => rfl
  | _ => exact hreg

theorem Object.Valid.cells_bounded {s : Store α} (hs : s.Sound) {o : Object α}
    (h : o.Valid s) : ∀ c ∈ o.cells s, c.index < s.cells.size := by
  have hreg : ∀ c ∈ {c | ∃ r ∈ o.registries, c ∈ (s.registry r).cells},
      c.index < s.cells.size := by
    rintro c ⟨r, -, hc⟩
    obtain ⟨n, hn⟩ := Registry.mem_cells_iff.mp hc
    exact (hs r).bounded n c hn
  cases o with
  | cell c =>
    rintro c' rfl
    exact h
  | expression k e =>
    intro c hc
    obtain ⟨n, hn⟩ := Registry.mem_cells_iff.mp hc
    exact Store.Holds.bounded h n c hn
  | _ => exact hreg

/-- **What is new** has nothing in common with what was there. -/
theorem Object.New.separate {b t : Store α} {o x : Object α} (h : o.New b t) (hb : b.Sound)
    (hx : x.Valid b) (hbt : b.Grows t) : o.Separate t x where
  cells c hc hc' := by
    rw [Object.cells_grows hx hbt] at hc'
    have h₁ := h.cells c hc
    have h₂ := hx.cells_bounded hb c hc'
    omega
  states d hd hd' := by
    have h₁ := h.states d hd
    have h₂ := hx.states_bounded d hd'
    omega

/-- Valid objects stay apart. -/
theorem Object.Separate.grows {s t : Store α} {o x : Object α} (h : o.Separate s x)
    (ho : o.Valid s) (hx : x.Valid s) (hst : s.Grows t) : o.Separate t x where
  cells := by
    rw [Object.cells_grows ho hst, Object.cells_grows hx hst]
    exact h.cells
  states := h.states

/-! ### Reading -/

/-- The object has the same value in both stores: a density, a function or an amplitude
at every point. -/
def Object.SameValue (s t : Store α) : Object α → Prop
  | cell c => t.cell c = s.cell c
  | expression _ e => e.value t = e.value s
  | density d => ∀ input, d.evaluate t input = d.evaluate s input
  | weight w => ∀ input, w.evaluateInput t input = w.evaluateInput s input
  | amplitude a => ∀ m12 m13 m23, a.evaluate t m12 m13 m23 = a.evaluate s m12 m13 m23
  | _ => True

section

variable {s t : Store α} {C : Set CellId} {D : Set StateId}

theorem Store.Within.currentValues_eq (h : Within C D s t) (hs : s.Sound) {r : RegistryId}
    (hr : r.index < s.registries.size) (hc : ∀ c ∈ (s.registry r).cells, c ∉ C) :
    t.currentValues r = s.currentValues r := by
  unfold currentValues
  rw [h.registries r hr]
  refine List.map_congr_left fun e he => ?_
  have hmem : e.2 ∈ (s.registry r).cells := List.mem_map_of_mem he
  rw [h.cells e.2 (hs.bounded he) (hc e.2 hmem)]

/-- A value is as it was if no cell of the registry changes. -/
theorem Store.Within.value?_of_cells (h : Within C D s t) (hs : s.Sound) {r : RegistryId}
    (hr : r.index < s.registries.size) (hc : ∀ c ∈ (s.registry r).cells, c ∉ C) (n : String) :
    t.value? r n = s.value? r n :=
  h.value?_eq hs hr fun c hf => hc c (Registry.mem_cells_of_find? hf)

omit [Scalar α] in
/-- A density misses cells that no registry of it holds. -/
theorem Model.misses_of_registries {m : Model α}
    (hC : ∀ r ∈ m.registries, ∀ c ∈ (s.registry r).cells, c ∉ C) : m.Misses s C :=
  fun r hr _ c hc => hC r (m.parRegistries_subset hr) c (Registry.mem_cells_of_find? hc)

theorem Model.evaluate_of_within (h : Store.Within C D s t) (hs : s.Sound) {m : Model α}
    (hm : m.Valid s) (hC : ∀ r ∈ m.registries, ∀ c ∈ (s.registry r).cells, c ∉ C)
    (hD : ∀ d ∈ m.states, d ∉ D) (input : Input α) : m.evaluate t input = m.evaluate s input := by
  have hvars := m.varRegistries_subset m.head_vars_mem
  have halike := Alike.of_within h hs hm (misses_of_registries hC)
  refine (evaluate_congr halike hm (norms_within h hm hD).symm input fun _ => ?_).symm
  exact (h.currentValues_eq hs (hm.linked.bounded _ hvars) (hC _ hvars)).symm

theorem Composite.evaluate_of_within (h : Store.Within C D s t) (hs : s.Sound)
    {p : Composite α} (hp : p.Valid s)
    (hC : ∀ r ∈ p.registries, ∀ c ∈ (s.registry r).cells, c ∉ C)
    (hD : ∀ m ∈ p.models, ∀ d ∈ m.states, d ∉ D) (input : Input α) :
    p.evaluate t input = p.evaluate s input := by
  have hCm : ∀ m ∈ p.models, ∀ r ∈ m.registries, ∀ c ∈ (s.registry r).cells, c ∉ C :=
    fun m hm r hr => hC r (models_subset hm hr)
  have hmodel : ∀ m ∈ p.models, m.Alike s t m ∧ m.norms s = m.norms t := fun m hm =>
    ⟨.of_within h hs (hp.models m hm) (Model.misses_of_registries (hCm m hm)),
      (Model.norms_within h (hp.models m hm) (hD m hm)).symm⟩
  have halike : p.Alike s t p :=
    { program := rfl
      models := List.forall₂_same.mpr hmodel
      varNames := by rw [h.registries _ hp.bounded.1]
      pars := fun n =>
        (h.value?_of_cells hs hp.bounded.2 (hC _ p.pars_mem) n).symm }
  refine (evaluate_congr halike hp.models input fun _ => List.forall₂_same.mpr ?_).symm
  intro m hm
  have hvars := m.varRegistries_subset m.head_vars_mem
  exact (h.currentValues_eq hs ((hp.models m hm).linked.bounded _ hvars) (hCm m hm _ hvars)).symm

theorem Weight.evaluateInput_of_within (h : Store.Within C D s t) (hs : s.Sound) {w : Weight α}
    (hw : w.Valid s) (hC : ∀ r ∈ w.registries, ∀ c ∈ (s.registry r).cells, c ∉ C)
    (input : Input α) : w.evaluateInput t input = w.evaluateInput s input := by
  have hv := hw.bounded _ w.vars_mem
  have hargument : ∀ given, w.argument t given = w.argument s given := fun given =>
    funext fun n => (argument_congr (by rw [h.registries _ hv])
      (fun n _ _ => (h.value?_of_cells hs hv (hC _ w.vars_mem) n).symm)
      (fun n => (h.value?_of_cells hs (hw.bounded _ w.pars_mem) (hC _ w.pars_mem) n).symm) n).symm
  unfold evaluateInput evaluate
  rw [h.registries _ hv]
  simp only [hargument]

theorem Amplitude.evaluate_of_within (h : Store.Within C D s t) (hs : s.Sound)
    {a : Amplitude α} (ha : a.Valid s)
    (hC : ∀ r ∈ a.registries, ∀ c ∈ (s.registry r).cells, c ∉ C) (m12 m13 m23 : Given α) :
    a.evaluate t m12 m13 m23 = a.evaluate s m12 m13 m23 :=
  evaluate_of_values (fun r hr => h.value?_of_cells hs (ha.bounded r hr) (hC r hr)) m12 m13 m23

theorem Expression.value_of_within (h : Store.Within C D s t) {e : Expression α}
    (he : s.Holds e.pars) (hC : ∀ c ∈ e.pars.cells, c ∉ C) : e.value t = e.value s := by
  have hleaf : leafValue t e.pars = leafValue s e.pars := by
    funext l
    cases l with
    | parameter n =>
      cases hc : e.pars.find? n with
      | none => simp only [leafValue, hc]
      | some c =>
        have hmem := Registry.mem_entries_of_find? hc
        have hcell := hC c (Registry.mem_cells_iff.mpr ⟨n, hmem⟩)
        simp only [leafValue, hc]
        rw [h.cells c (he.bounded n c hmem) hcell]
    | _ => rfl
  unfold value
  rw [hleaf]

/-- **What changes elsewhere does not change the value of an object.** -/
theorem Object.Valid.sameValue (h : Store.Within C D s t) (hs : s.Sound) {o : Object α}
    (ho : o.Valid s) (hC : ∀ c ∈ o.cells s, c ∉ C) (hD : ∀ d ∈ o.states, d ∉ D) :
    o.SameValue s t := by
  have hreg : ∀ {rs : List RegistryId},
      (∀ c ∈ {c | ∃ r ∈ rs, c ∈ (s.registry r).cells}, c ∉ C) →
        ∀ r ∈ rs, ∀ c ∈ (s.registry r).cells, c ∉ C := fun hc r hr c hmem => hc c ⟨r, hr, hmem⟩
  cases o with
  | cell c => exact h.cells c ho (hC c rfl)
  | expression k e => exact Expression.value_of_within h ho hC
  | density d =>
    have hstates : ∀ m ∈ d.models, ∀ e ∈ m.states, e ∉ D := fun m hm e he =>
      hD e (List.mem_flatMap.mpr ⟨m, hm, he⟩)
    intro input
    cases d with
    | model m =>
      exact Model.evaluate_of_within h hs ho (hreg hC)
        (hstates m (List.mem_singleton_self m)) input
    | composite p => exact Composite.evaluate_of_within h hs ho (hreg hC) hstates input
  | weight w => exact fun input => Weight.evaluateInput_of_within h hs ho (hreg hC) input
  | amplitude a => exact Amplitude.evaluate_of_within h hs ho (hreg hC)
  | _ => trivial

end

end DensityAlgebra
