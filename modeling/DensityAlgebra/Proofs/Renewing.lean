/-
# When stored normalizations are right

A stored normalization is right if it is the integral at the current parameters. It
stays right while neither the parameters of its density nor the normalization itself
change. Renewing the models of a composite one after the other makes all of them
right: a later one changes nothing that an earlier one depends on, since no two have a
state in common.

Pointing a copied density to the cells of another one changes its parameters but not
what it stores. `Store.assume` is the store where the original had these parameters
all along: the copy is right if and only if the integral there is what it was.

Key definitions: `Store.assume`.
Key theorems: `Decay.intensity_of_values`, `Model.Alike.of_within`, `Model.Fresh.within`,
`Composite.cacheModels_fresh`, `Setter.perform_fresh`, `Model.Carried.fresh`,
`Decay.fresh_iff_of_carried`.
-/
import DensityAlgebra.Proofs.Setting
import Mathlib.Data.Set.Insert

namespace DensityAlgebra

variable {α : Type}

/-! ### Densities that are left alone -/

mutual

theorem Amplitude.rename_id : ∀ a : Amplitude α, a.rename id = a
  | .flat .. => rfl
  | .resonance .. => rfl
  | .sum r terms => by
    show Amplitude.sum r (terms.rename id) = _
    rw [Amplitude.Terms.rename_id terms]

theorem Amplitude.Terms.rename_id : ∀ ts : Amplitude.Terms α, ts.rename id = ts
  | .nil => rfl
  | .cons re im factor rest => by
    show Amplitude.Terms.cons re im (factor.rename id) (rest.rename id) = _
    rw [Amplitude.rename_id factor, Amplitude.Terms.rename_id rest]

end

/-- A density is a copy of itself. -/
theorem Model.IsCopy.refl (m : Model α) : IsCopy id m m := by
  cases m with
  | formula h body c => exact ⟨c, rfl⟩
  | decay d =>
    refine ⟨d.state, d.source, ?_⟩
    unfold Decay.moved
    rw [Amplitude.rename_id, show d.weights.map (Weight.rename id) = d.weights from
      List.map_id _]
    rfl
  | _ => rfl

/-- No parameter of the density has its cell in `C`. -/
def Model.Misses (s : Store α) (C : Set CellId) (m : Model α) : Prop :=
  ∀ r ∈ m.parRegistries, ∀ n c, (s.registry r).find? n = some c → c ∉ C

variable [Scalar α]

/-- An amplitude reads the same in a store where its parameters have the same values. -/
theorem Amplitude.evaluate_of_values {s t : Store α} {a : Amplitude α}
    (h : ∀ r ∈ a.registries, ∀ n, t.value? r n = s.value? r n) (m12 m13 m23 : Given α) :
    a.evaluate t m12 m13 m23 = a.evaluate s m12 m13 m23 := by
  have hcongr := evaluate_congr (f := id) (g := id) m12 m13 m23 a h
  rwa [rename_id] at hcongr

/-- A density reads the same in a store where the names of registries and the values of
parameters are the same. -/
theorem Decay.intensity_of_values {s t : Store α} {d : Decay α}
    (hnames : ∀ r, (t.registry r).names = (s.registry r).names)
    (hamplitude : ∀ r ∈ d.amplitude.registries, ∀ n, t.value? r n = s.value? r n)
    (hweights : ∀ w ∈ d.weights, ∀ n, t.value? w.pars n = s.value? w.pars n)
    (hcovered : ∀ w ∈ d.weights, (s.registry w.vars).names ⊆ d.roles) (m12 m13 m23 : Given α) :
    d.intensity t m12 m13 m23 = d.intensity s m12 m13 m23 := by
  refine intensity_of_parts rfl (Amplitude.evaluate_of_values hamplitude) ?_ (fun w hw => ?_)
    m12 m13 m23
  · exact List.forall₂_same.mpr fun w hw => ⟨rfl, hnames w.vars, hweights w hw⟩
  · rw [hnames]
    exact hcovered w hw

section

variable {s t : Store α} {C : Set CellId} {D : Set StateId} {m : Model α}

/-- A density reads alike where its parameters have the same values. -/
theorem Model.Alike.of_values (h : Store.Within C D s t) (hm : m.Valid s)
    (hvalues : ∀ r ∈ m.parRegistries, ∀ n, t.value? r n = s.value? r n) : Alike s t m m := by
  refine ⟨m, id, id, IsCopy.refl m, IsCopy.refl m, fun r hr n => (hvalues r hr n).symm,
    fun r hr => ?_, ?_⟩
  · show (s.registry r).names = (t.registry r).names
    rw [h.registries r (hm.linked.bounded r (m.varRegistries_subset hr))]
  · exact List.map_congr_left fun d hd => (h.resolutions d (hm.states d hd)).symm

/-- A density reads alike while its parameters keep their values. -/
theorem Model.Alike.of_within (h : Store.Within C D s t) (hs : s.Sound) (hm : m.Valid s)
    (hC : m.Misses s C) : Alike s t m m :=
  .of_values h hm fun r hr n =>
    h.value?_eq hs (hm.linked.bounded r (m.parRegistries_subset hr)) fun c hc => hC r hr n c hc

theorem Model.norms_within (h : Store.Within C D s t) (hm : m.Valid s)
    (hD : ∀ d ∈ m.states, d ∉ D) : m.norms t = m.norms s :=
  List.map_congr_left fun d hd => by rw [h.states d (hm.states d hd) (hD d hd)]

/-- **A stored normalization stays right** while parameters and normalization stay. -/
theorem Model.Fresh.within (hf : m.Fresh s) (h : Store.Within C D s t) (hs : s.Sound)
    (hm : m.Valid s) (hC : m.Misses s C) (hD : ∀ d ∈ m.states, d ∉ D) : m.Fresh t :=
  (Alike.of_within h hs hm hC).fresh hm (norms_within h hm hD).symm hf

omit [Scalar α] in
theorem Model.misses_empty (s : Store α) (m : Model α) : m.Misses s ∅ :=
  fun _ _ _ _ _ => Set.notMem_empty _

end

/-! ### Renewing -/

/-- A renewed decay density stores its integral. -/
theorem Decay.cache_fresh {s : Store α} {d : Decay α} (hs : s.Sound)
    (hd : (Model.decay d).Valid s) :
    d.cache.Ends s (fun _ t => s.Inside ∅ {d.state} t ∧ d.Fresh t) fun t => t = s := by
  refine (d.cache_spec s).mono (fun _ t ⟨x, hx, hsame⟩ => ?_) fun _ h => h
  have hput : s.Inside ∅ {d.state} (s.withNorm d.state x) :=
    (Store.within_withNorm (Set.mem_singleton _) x).inside hs fun _ => rfl
  have hin : s.Inside ∅ {d.state} t := hput.of_same hsame
  have halike : (Model.decay d).Alike s t (.decay d) :=
    .of_within hin.toWithin hs hd (Model.misses_empty s _)
  refine ⟨hin, ?_⟩
  have hnorm : (t.state d.state).norm = x := by
    rw [hsame.state, Store.state_withNorm (hd.states _ (List.mem_singleton_self _))]
  show d.integral t = .ok (t.state d.state).norm
  rw [← halike.integral hd, hx, hnorm]

/-- A renewed density stores its integral, and nothing else has changed. -/
theorem Model.cache_fresh {s : Store α} {m : Model α} (hs : s.Sound) (hm : m.Valid s) :
    m.cache.Ends s (fun _ t => s.Inside ∅ {d | d ∈ m.states} t ∧ m.Fresh t)
      fun _ => True := by
  have hself : s.Inside ∅ {d | d ∈ m.states} s := Store.Inside.refl hs
  cases m with
  | decay d =>
    refine (Decay.cache_fresh hs hm).mono (fun _ t h => ⟨?_, h.2⟩) fun _ _ => trivial
    have hset : ({d.state} : Set StateId) ⊆ {e | e ∈ (Model.decay d).states} := by
      rintro e rfl
      exact List.mem_singleton_self _
    exact h.1.mono (Set.Subset.refl _) hset
  | formula h body c =>
    exact Run.ends_modify ⟨hself.of_same ⟨rfl, rfl, rfl⟩, trivial⟩
  | _ => exact Run.ends_pure ⟨hself, trivial⟩

/-- **Renewed models all store their integrals.** -/
theorem Composite.cacheModels_fresh : ∀ {ms : List (Model α)} {s : Store α}, s.Sound →
    (∀ m ∈ ms, m.Valid s) → (ms.flatMap Model.states).Nodup →
    (cacheModels ms).Ends s
      (fun _ t => s.Inside ∅ {d | d ∈ ms.flatMap Model.states} t ∧ ∀ m ∈ ms, m.Fresh t)
      fun _ => True
  | [], s, hs, _, _ => Run.ends_pure ⟨Store.Inside.refl hs, by simp⟩
  | m :: rest, s, hs, hv, hd => by
    rw [List.forall_mem_cons] at hv
    rw [List.flatMap_cons, List.nodup_append] at hd
    refine (Model.cache_fresh hs hv.1).bind fun _ t ⟨hst, hm⟩ => ?_
    have hrest : ∀ k ∈ rest, k.Valid t := fun k hk => (hv.2 k hk).grows hst.toGrows
    refine (Composite.cacheModels_fresh hst.sound hrest hd.2.1).mono (fun _ u hu => ?_)
      fun _ _ => trivial
    obtain ⟨htu, hfresh⟩ := hu
    constructor
    · have h₁ : s.Inside ∅ {d | d ∈ (m :: rest).flatMap Model.states} t :=
        hst.mono (Set.Subset.refl _) fun d hd => List.mem_append_left _ hd
      have h₂ : t.Inside ∅ {d | d ∈ (m :: rest).flatMap Model.states} u :=
        htu.mono (Set.Subset.refl _) fun d hd => List.mem_append_right _ hd
      exact h₁.trans h₂
    · rw [List.forall_mem_cons]
      refine ⟨?_, hfresh⟩
      -- the models after this one have states of their own
      refine hm.within htu.toWithin hst.sound (hv.1.grows hst.toGrows) (Model.misses_empty t _) ?_
      intro d hdm hdr
      exact hd.2.2 d hdm d hdr rfl

/-- Renewing is what a density does last where it sets parameters. -/
theorem Density.cache_fresh {s : Store α} {d : Density α} (hs : s.Sound) (hd : d.Valid s) :
    d.cache.Ends s (fun _ t => ∀ m ∈ d.models, m.Fresh t) fun _ => True := by
  cases d with
  | model m =>
    refine (Model.cache_fresh hs hd).mono (fun _ t h k hk => ?_) fun _ _ => trivial
    rw [List.mem_singleton.mp hk]
    exact h.2
  | composite p =>
    have hv := Composite.Valid.models hd
    exact (Composite.cacheModels_fresh hs hv (Composite.Valid.distinct hd)).mono
      (fun _ t h => h.2) fun _ _ => trivial

omit [Scalar α] in
theorem Density.Valid.covers {s : Store α} {d : Density α} (h : d.Valid s) :
    s.Covers Set.univ d.vars ∧ s.Covers Set.univ d.pars :=
  ⟨⟨h.vars_bounded, fun _ _ _ => Set.mem_univ _⟩, ⟨h.pars_bounded, fun _ _ _ => Set.mem_univ _⟩⟩

omit [Scalar α] in
/-- The models of a density have different states. -/
theorem Density.Valid.distinct {s : Store α} {d : Density α} (h : d.Valid s) :
    (d.models.flatMap Model.states).Nodup := by
  cases d with
  | model m => cases m <;> simp [Density.models, Model.states]
  | composite p => exact Composite.Valid.distinct h

/-- The models of a density read alike while its parameters keep their values. -/
theorem Density.alike_of_values {s t : Store α} {C : Set CellId} {D : Set StateId}
    {d : Density α} (h : s.Within C D t) (hd : d.Valid s)
    (hvalues : ∀ n, t.value? d.pars n = s.value? d.pars n) : ∀ m ∈ d.models, m.Alike s t m := by
  intro m hm
  have hhead := h.registries _ hd.pars_bounded
  refine Model.Alike.of_values h (hd.models m hm) fun r hr n => ?_
  have hr' := h.registries r ((hd.models m hm).linked.bounded r (m.parRegistries_subset hr))
  have hunder := hd.pars_under m hm r hr
  by_cases hn : n ∈ (s.registry r).names
  · calc t.value? r n = t.value? d.pars n := by
          refine Store.value?_eq_of_under ?_ (hr' ▸ hn)
          rwa [hr', hhead]
      _ = s.value? d.pars n := hvalues n
      _ = s.value? r n := (Store.value?_eq_of_under hunder hn).symm
  · rw [Store.value?_of_not_mem (hr' ▸ hn), Store.value?_of_not_mem hn]

/-- **A density has the same value at given values** while its parameters and its
normalizations are the same. -/
theorem Density.evaluate_congr {s t : Store α} {C : Set CellId} {D : Set StateId}
    {d : Density α} (h : s.Within C D t) (hd : d.Valid s)
    (hvalues : ∀ n, t.value? d.pars n = s.value? d.pars n)
    (hnorms : ∀ m ∈ d.models, m.norms t = m.norms s) {input : Input α} (hinput : input ≠ .nothing) :
    d.evaluate t input = d.evaluate s input := by
  have halike := alike_of_values h hd hvalues
  symm
  cases d with
  | model m =>
    have hm := List.mem_singleton_self m
    exact Model.evaluate_congr (halike m hm) hd (hnorms m hm).symm input fun h => absurd h hinput
  | composite p =>
    refine Composite.evaluate_congr ⟨rfl, ?_, ?_, fun n => (hvalues n).symm⟩ hd.models input
      fun h => absurd h hinput
    · exact List.forall₂_same.mpr fun m hm => ⟨halike m hm, (hnorms m hm).symm⟩
    · rw [h.registries _ (Composite.Valid.bounded hd).1]

/-- **A call that sets parameters, or renews, leaves all stored normalizations right**, in
whatever state they were before. -/
theorem Setter.perform_fresh {s : Store α} {d : Density α} (hs : s.Sound) (hd : d.Valid s)
    {σ : Setter α} (hσ : σ.setsPars = true ∨ σ = .cache) :
    (σ.perform d).Ends s (fun _ t => ∀ m ∈ d.models, m.Fresh t) fun _ => True := by
  have hset : ∀ {x : Run α Unit}, Run.Keeps (s.Inside Set.univ Set.univ) x →
      (x >>= fun _ => d.cache).Ends s (fun _ t => ∀ m ∈ d.models, m.Fresh t)
        fun _ => True := fun hx =>
    ((hx s (Store.Inside.refl hs)).mono (fun _ _ h => h) fun _ _ => trivial).bind
      fun _ t ht => Density.cache_fresh ht.sound (hd.grows ht.toGrows)
  cases σ with
  | setPar name value error => exact hset (Density.setNamed_keeps hd.covers.2 _ _ _ _)
  | setPars input => exact hset (Run.assign_keeps hd.covers.2 _ _)
  | cache => exact Density.cache_fresh hs hd
  | setVar => simp [Setter.setsPars] at hσ
  | setVars => simp [Setter.setsPars] at hσ

/-! ### Normalizations that were carried over -/

/-- A copy that reads as its original has the original's normalization, and it is as
right. -/
theorem Model.Carried.fresh {s t : Store α} {m m' : Model α}
    (h : Carried Store.noValues s t m m') (hm : m.Valid s) : m.Fresh s → m'.Fresh t := by
  obtain ⟨f, hshape, hvalues, hnames, hstates⟩ := h
  refine Alike.fresh ⟨m, id, f, IsCopy.refl m, hshape, fun r hr n => ?_, fun r hr => ?_, ?_⟩ hm ?_
  · rw [hvalues r hr n]
    exact (Option.map_getD_none _).symm
  · exact (hnames r (m.varRegistries_subset hr)).symm
  · have := congrArg (List.map DecayState.resolution) hstates
    rw [List.map_map, List.map_map] at this
    exact this.symm
  · have := congrArg (List.map DecayState.norm) hstates
    rw [List.map_map, List.map_map] at this
    exact this.symm

namespace Store

/-- The store where the cells of a registry have the values that are given for their
names. -/
def assume (s : Store α) (r : RegistryId) (given : String → Option (Content α)) : Store α :=
  { s with cells := s.cells.mapIdx fun i x =>
      if ⟨i⟩ ∈ (s.registry r).cells then { x with value := (given x.name).getD x.value } else x }

theorem cell_assume (s : Store α) (r : RegistryId) (given : String → Option (Content α))
    {c : CellId} (hc : c.index < s.cells.size) : (s.assume r given).cell c =
      if c ∈ (s.registry r).cells then
        { s.cell c with value := (given (s.cell c).name).getD (s.cell c).value }
      else s.cell c := by
  have hget : s.cell c = s.cells[c.index] := by
    unfold cell
    rw [Array.getD_eq_getD_getElem?, Array.getElem?_eq_getElem hc, Option.getD_some]
  have hget' : (s.assume r given).cell c =
      if c ∈ (s.registry r).cells then
        { s.cells[c.index] with
          value := (given s.cells[c.index].name).getD s.cells[c.index].value }
      else s.cells[c.index] := by
    show Array.getD (Array.mapIdx _ s.cells) c.index _ = _
    rw [Array.getD_eq_getD_getElem?, Array.getElem?_mapIdx, Array.getElem?_eq_getElem hc,
      Option.map_some, Option.getD_some]
  rw [hget', hget]

/-- A registry under the one whose values are assumed has the assumed values. -/
theorem value?_assume {s : Store α} (hs : s.Sound) {r q : RegistryId}
    (given : String → Option (Content α)) (hq : (s.registry q).Under (s.registry r)) (n : String) :
    (s.assume r given).value? q n = (s.value? q n).map fun v => (given n).getD v := by
  show Option.map _ ((s.registry q).find? n) = _
  unfold value?
  cases hc : (s.registry q).find? n with
  | none => rfl
  | some c =>
    have hmem : c ∈ (s.registry r).cells := Registry.mem_cells_of_find? (hq n c hc)
    simp only [Option.map_some]
    rw [cell_assume s r given ((hs q).find?_bounded hc), if_pos hmem, (hs q).find?_named hc]

end Store

/-- **When a carried-over normalization is right**: exactly if the given values leave the
integral of the original as it was. -/
theorem Decay.fresh_iff_of_carried {given : String → Option (Content α)} {s t : Store α}
    {d d' : Decay α} (h : Model.Carried given s t (.decay d) (.decay d')) (hs : s.Sound)
    (hv : (Model.decay d).Valid s) (hv' : (Model.decay d').Valid t) (hd : d.Fresh s) :
    d'.Fresh t ↔ d.integral (s.assume d.head.pars given) = d.integral s := by
  obtain ⟨f, hshape, hvalues, hnames, hstates⟩ := h
  have hstate : t.state d'.state = s.state d.state := (List.cons.inj hstates).1
  have halike : (Model.decay d').Alike t (s.assume d.head.pars given) (.decay d) := by
    refine ⟨.decay d, f, id, hshape, Model.IsCopy.refl _, fun r hr n => ?_, fun r hr => ?_, ?_⟩
    · rw [hvalues r hr n]
      exact (Store.value?_assume hs given (hv.linked.pars r hr) n).symm
    · exact hnames r ((Model.decay d).varRegistries_subset hr)
    · show [(t.state d'.state).resolution] = [(s.state d.state).resolution]
      rw [hstate]
  have hfresh : d.integral s = .ok (s.state d.state).norm := hd
  show d'.integral t = .ok (t.state d'.state).norm ↔ _
  rw [halike.integral hv', hstate, hfresh]

end DensityAlgebra
