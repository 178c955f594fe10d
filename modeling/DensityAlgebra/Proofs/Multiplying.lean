/-
# What a function brings into a decay density

A decay density times a function has one parameter of each name: that of the function if the
function has the name, and that of the density otherwise. All parts hold these cells: every
node of the amplitude, the earlier functions, and the new one.

`Store.merged` is the store where the density has had these values all along. The product
reads in its own store as the density and the function read there. So what it stores is the
integral of the numerator there, and its value at a point is the numerator there over that
integral.

Key definitions: `Store.merged`, `Decay.Reaches`.
Key theorems: `Decay.Copying.value?_density`, `Decay.Copying.reaches`,
`Decay.withWeight_stores`, `Decay.withWeight_merges`, `Session.withWeight_reaches`.
-/
import DensityAlgebra.Proofs.Sharing

namespace DensityAlgebra

variable {α : Type} [Scalar α]

/-! ### Merged values -/

namespace Store

/-- The store where the parameters of a density have the values of those of a function, as
far as the function has their names. -/
def merged (s : Store α) (d : Decay α) (w : Weight α) : Store α :=
  s.assume d.head.pars (s.value? w.pars)

variable {s : Store α} {d : Decay α}

theorem value?_merged_density (hs : s.Sound) (hd : (Model.decay d).Valid s) (w : Weight α)
    {r : RegistryId} (hr : r ∈ (Model.decay d).parRegistries) (n : String) :
    (s.merged d w).value? r n = (s.value? r n).map fun v => (s.value? w.pars n).getD v :=
  value?_assume hs _ (hd.linked.pars r hr) n

/-- The function itself has the values that it has. -/
theorem value?_merged_weight (hs : s.Sound) (d : Decay α) (w : Weight α) (n : String) :
    (s.merged d w).value? w.pars n = s.value? w.pars n := by
  have hfind : ∀ c, (s.registry w.pars).find? n = some c →
      ((s.merged d w).cell c).value = (s.cell c).value := by
    intro c hc
    unfold merged
    rw [cell_assume s d.head.pars _ ((hs w.pars).find?_bounded hc), (hs w.pars).find?_named hc,
      value?_of_find? hc]
    split_ifs <;> rfl
  show ((s.registry w.pars).find? n).map _ = ((s.registry w.pars).find? n).map _
  cases hc : (s.registry w.pars).find? n with
  | none => rfl
  | some c => exact congrArg some (hfind c hc)

end Store

namespace Decay

/-! ### The store where all parts are joined -/

section

variable {s : Store α} {d : Decay α} {w : Weight α}

theorem cell_rejoined (s : Store α) (d : Decay α) (w : Weight α) (c : CellId) :
    (rejoined s d w).cell c = s.cell c := Store.cell_congr (Store.cells_linkAll _ _) c

theorem state_rejoined (s : Store α) (d : Decay α) (w : Weight α) (e : StateId) :
    (rejoined s d w).state e = s.state e := Store.state_congr (Store.states_linkAll _ _) e

omit [Scalar α] in
/-- Only the parameters of the head have got names. -/
theorem names_rejoined (h : Ready s d w) {r : RegistryId} (hr : r ≠ d.head.pars) :
    ((rejoined s d w).registry r).names = (s.registry r).names :=
  (Store.names_linkAll (weighted_arranged h).plan r).trans (names_entered h hr)

omit [Scalar α] in
/-- The head has the cells of the function, and its own where the function has none. -/
theorem registry_rejoined_pars (h : Ready s d w) : (rejoined s d w).registry d.head.pars =
    (s.registry d.head.pars).update (s.registry w.pars) := by
  have harr := weighted_arranged h
  have hkept : (rejoined s d w).registry d.head.pars = (entered s d w).registry d.head.pars :=
    harr.head_stays (fun hm => harr.kinds _ ((Model.decay (d.weighted w)).partVars_subset hm)
      (Model.decay (d.weighted w)).head_pars_mem) harr.parHead
  rw [hkept, registry_entered_pars h]

end

omit [Scalar α] in
theorem head_pars_mem (d : Decay α) : d.head.pars ∈ (Model.decay d).registries :=
  (Model.decay d).parRegistries_subset (Model.decay d).head_pars_mem

/-! ### The product -/

/-- What the product `out` of a density and a function consists of: copies of their parts,
and one cell for each name of a parameter, with the content that it has in the function or
else in the density. -/
structure Reaches (s t : Store α) (d : Decay α) (w : Weight α) (f f' : RegistryId → RegistryId)
    (out : Decay α) : Prop where
  amplitude : out.amplitude = d.amplitude.rename f
  weights : out.weights = d.weights.map (·.rename f) ++ [w.rename f']
  kinematics : out.roles = d.roles ∧ out.space = d.space ∧
    (t.state out.state).resolution = (s.state d.state).resolution
  names : ∀ r ∈ (Model.decay d).partPars, (t.registry (f r)).names = (s.registry r).names
  weightNames : (t.registry (f' w.pars)).names = (s.registry w.pars).names
  ofWeight : ∀ n c, (s.registry w.pars).find? n = some c →
    ∃ c', (t.registry out.head.pars).find? n = some c' ∧ t.cell c' = s.cell c
  ofDensity : ∀ n c, n ∉ (s.registry w.pars).names → (s.registry d.head.pars).find? n = some c →
    ∃ c', (t.registry out.head.pars).find? n = some c' ∧ t.cell c' = s.cell c
  noOther : ∀ n ∈ (t.registry out.head.pars).names,
    n ∈ (s.registry w.pars).names ∨ n ∈ (s.registry d.head.pars).names
  distinct : (t.registry out.head.pars).names.Nodup
  nodes : ∀ r ∈ out.amplitude.registries,
    (t.registry r).SharedWith (t.registry out.head.pars)
  weightPars : ∀ v ∈ out.weights, (t.registry v.pars).SharedWith (t.registry out.head.pars)
  weightVars : ∀ v ∈ out.weights, (t.registry v.vars).SharedWith (t.registry out.head.vars)

namespace Copying

variable {s s₁ s₂ : Store α} {d : Decay α} {w : Weight α} {f f' : RegistryId → RegistryId}
  {g g' : CellId → CellId} {state : StateId} (h : Copying s s₁ s₂ d w f f' g g' state)

include h

theorem copied_density : s.Copied s₂ (Model.decay d).registries f g :=
  h.density.after h.second.toWithin

theorem copied_weight : s.Copied s₂ w.registries f' g' :=
  h.weight.before h.first.toWithin h.sound h.weightValid.bounded

/-- A cell of the density has its content in the copy. -/
theorem cell_density {r : RegistryId} (hr : r ∈ (Model.decay d).registries) {n : String}
    {c : CellId} (hc : (s.registry r).find? n = some c) : s₂.cell (g c) = s.cell c :=
  h.copied_density.cells.cell c (List.mem_flatMap.mpr ⟨r, hr, Registry.mem_cells_of_find? hc⟩)

/-- So has a cell of the function. -/
theorem cell_weight {n : String} {c : CellId} (hc : (s.registry w.pars).find? n = some c) :
    s₂.cell (g' c) = s.cell c :=
  h.copied_weight.cells.cell c
    (List.mem_flatMap.mpr ⟨w.pars, w.pars_mem, Registry.mem_cells_of_find? hc⟩)

variable (source : SourceId)

/-- All parts of the product are linked to its head. -/
theorem linked : (Model.decay ((d.moved f state source).weighted (w.rename f'))).Linked
    (rejoined s₂ (d.moved f state source) (w.rename f')) :=
  (weighted_valid (h.ready source)).linked

/-- The head of the product has copies of the function's cells, and else of the density's. -/
theorem find?_head (n : String) :
    ((rejoined s₂ (d.moved f state source) (w.rename f')).registry (f d.head.pars)).find? n =
      (((s.registry w.pars).find? n).map g').or (((s.registry d.head.pars).find? n).map g) := by
  rw [← Registry.find?_rename, ← Registry.find?_rename, ← h.copied_weight.registry _ w.pars_mem,
    ← h.copied_density.registry _ d.head_pars_mem]
  have hpars := registry_rejoined_pars (h.ready source)
  have hdistinct := (h.second.sound (w.rename f').pars).distinct
  exact (congrArg (Registry.find? · n) hpars).trans (Registry.find?_update _ n hdistinct)

/-- The product has the values of the function under its names, and else of the density. -/
theorem value?_head (n : String) :
    (rejoined s₂ (d.moved f state source) (w.rename f')).value? (f d.head.pars) n =
      (s.value? w.pars n).or (s.value? d.head.pars n) := by
  unfold Store.value?
  rw [h.find?_head source n]
  cases hcw : (s.registry w.pars).find? n with
  | some c => simp [cell_rejoined, h.cell_weight hcw]
  | none =>
    cases hcd : (s.registry d.head.pars).find? n with
    | some c => simp [cell_rejoined, h.cell_density d.head_pars_mem hcd]
    | none => rfl

/-- A part of the density keeps its names in the product. -/
theorem names_part {r : RegistryId} (hr : r ∈ (Model.decay d).registries)
    (hne : r ≠ d.head.pars) :
    ((rejoined s₂ (d.moved f state source) (w.rename f')).registry (f r)).names =
      (s.registry r).names := by
  have hmoved : f r ≠ (d.moved f state source).head.pars := fun he =>
    hne (h.density.injective r hr _ d.head_pars_mem he)
  rw [names_rejoined (h.ready source) hmoved, h.copied_density.names hr]

/-- The function keeps its names in the product. -/
theorem names_weight {r : RegistryId} (hr : r ∈ w.registries) :
    ((rejoined s₂ (d.moved f state source) (w.rename f')).registry (f' r)).names =
      (s.registry r).names := by
  have hmoved : f' r ≠ (d.moved f state source).head.pars := by
    intro he
    have hold := (h.density.fresh _ d.head_pars_mem).2
    have hnew := (h.weight.fresh r hr).1
    have hsame : (f' r).index = (f d.head.pars).index := congrArg RegistryId.index he
    omega
  rw [names_rejoined (h.ready source) hmoved, h.copied_weight.names hr]

/-- **A part of the density reads merged values in the product.** -/
theorem value?_density {r : RegistryId} (hr : r ∈ (Model.decay d).partPars) (n : String) :
    (rejoined s₂ (d.moved f state source) (w.rename f')).value? (f r) n =
      (s.merged d w).value? r n := by
  have hpars := (Model.decay d).partPars_subset hr
  have hne : r ≠ d.head.pars := fun he => h.valid.linked.parHead (he ▸ hr)
  have hnames := h.names_part source ((Model.decay d).parRegistries_subset hpars) hne
  rw [Store.value?_merged_density h.sound h.valid w hpars]
  by_cases hn : n ∈ (s.registry r).names
  · obtain ⟨c, hc⟩ := Registry.find?_eq_some_of_mem hn
    have hvalue := Store.value?_of_find? hc
    have hheadValue : s.value? d.head.pars n = some (s.cell c).value :=
      Store.value?_of_under (h.valid.linked.pars r hpars) hvalue
    have hmem : f r ∈ (Model.decay ((d.moved f state source).weighted
        (w.rename f'))).parRegistries :=
      mem_parRegistries_weighted.mpr (.inl ((Model.IsCopy.parRegistries
        (m := .decay d) ⟨state, source, rfl⟩).symm ▸ List.mem_map_of_mem hpars))
    rw [Store.value?_eq_of_under ((h.linked source).pars _ hmem) (hnames.symm ▸ hn)]
    refine (h.value?_head source n).trans ?_
    rw [hheadValue, hvalue]
    cases s.value? w.pars n <;> rfl
  · rw [Store.value?_of_not_mem (hnames.symm ▸ hn), Store.value?_of_not_mem hn]
    rfl

/-- So does the function. -/
theorem value?_weight (n : String) :
    (rejoined s₂ (d.moved f state source) (w.rename f')).value? (f' w.pars) n =
      (s.merged d w).value? w.pars n := by
  have hnames := h.names_weight source w.pars_mem
  rw [Store.value?_merged_weight h.sound]
  by_cases hn : n ∈ (s.registry w.pars).names
  · obtain ⟨c, hc⟩ := Registry.find?_eq_some_of_mem hn
    have hmem : f' w.pars ∈ (Model.decay ((d.moved f state source).weighted
        (w.rename f'))).parRegistries := mem_parRegistries_weighted.mpr (.inr rfl)
    rw [Store.value?_eq_of_under ((h.linked source).pars _ hmem) (hnames.symm ▸ hn)]
    refine (h.value?_head source n).trans ?_
    rw [Store.value?_of_find? hc]
    rfl
  · rw [Store.value?_of_not_mem (hnames.symm ▸ hn), Store.value?_of_not_mem hn]

variable {t : Store α}
  (hcells : t.cells = (rejoined s₂ (d.moved f state source) (w.rename f')).cells)
  (hregistries : t.registries = (rejoined s₂ (d.moved f state source) (w.rename f')).registries)

include hcells hregistries

/-- **The numerator of the product** is that of density and function at the merged values. -/
theorem intensity_eq (m12 m13 m23 : Given α) :
    ((d.moved f state source).weighted (w.rename f')).intensity t m12 m13 m23 =
      (d.weighted w).intensity (s.merged d w) m12 m13 m23 := by
  set out := (d.moved f state source).weighted (w.rename f')
  set u := rejoined s₂ (d.moved f state source) (w.rename f') with hu
  have hregistry : ∀ r, t.registry r = u.registry r := Store.registry_congr hregistries
  have hvalue : ∀ r n, t.value? r n = u.value? r n := fun r n => by
    unfold Store.value?
    simp only [hregistry, Store.cell_congr hcells]
  have hroles : out.roles = (d.weighted w).roles := rfl
  refine intensity_of_parts hroles (fun a b c => ?_) ?_ (fun v hv => ?_) m12 m13 m23
  · have hcongr := Amplitude.evaluate_congr (s := t) (t := s.merged d w) (g := id) a b c d.amplitude
      fun r hr n => (hvalue _ n).trans (h.value?_density source (List.mem_append_left _ hr) n)
    rwa [Amplitude.rename_id] at hcongr
  · refine List.rel_append ?_ (.cons ⟨rfl, ?_, fun n => ?_⟩ .nil)
    · refine List.forall₂_map_left_iff.mpr (List.forall₂_same.mpr fun v hv => ?_)
      refine ⟨rfl, ?_, fun n => ?_⟩
      · have hvars := (Model.decay d).partVars_subset (List.mem_map_of_mem hv)
        have hne : v.vars ≠ d.head.pars := fun he =>
          h.valid.linked.kinds _ hvars (he ▸ (Model.decay d).head_pars_mem)
        exact (congrArg Registry.names (hregistry _)).trans
          (h.names_part source ((Model.decay d).varRegistries_subset hvars) hne)
      · exact (hvalue _ n).trans
          (h.value?_density source (List.mem_append_right _ (List.mem_map_of_mem hv)) n)
    · exact (congrArg Registry.names (hregistry _)).trans (h.names_weight source w.vars_mem)
    · exact (hvalue _ n).trans (h.value?_weight source n)
  · rw [hregistry]
    exact (weighted_valid (h.ready source)).weight_names_subset hv

/-- **The product consists of what it should.** -/
theorem reaches (hresolution : (t.state state).resolution = (s.state d.state).resolution) :
    Reaches s t d w f f' ((d.moved f state source).weighted (w.rename f')) := by
  set out := (d.moved f state source).weighted (w.rename f')
  set u := rejoined s₂ (d.moved f state source) (w.rename f') with hu
  have hregistry : ∀ r, t.registry r = u.registry r := Store.registry_congr hregistries
  have hcell : ∀ c, t.cell c = s₂.cell c := fun c =>
    (Store.cell_congr hcells c).trans (cell_rejoined s₂ (d.moved f state source) (w.rename f') c)
  have hfind : ∀ n, (t.registry out.head.pars).find? n =
      (((s.registry w.pars).find? n).map g').or (((s.registry d.head.pars).find? n).map g) :=
    fun n => (congrArg (Registry.find? · n) (hregistry _)).trans (h.find?_head source n)
  have hshared : ∀ r ∈ (Model.decay out).parRegistries,
      (t.registry r).SharedWith (t.registry out.head.pars) := by
    intro r hr
    rw [hregistry, hregistry]
    exact ((h.linked source).pars r hr).sharedWith
  have hsharedVars : ∀ r ∈ (Model.decay out).varRegistries,
      (t.registry r).SharedWith (t.registry out.head.vars) := by
    intro r hr
    rw [hregistry, hregistry]
    exact ((h.linked source).vars r hr).sharedWith
  refine
    { amplitude := rfl
      weights := rfl
      kinematics := ⟨rfl, rfl, hresolution⟩
      names := fun r hr => ?_
      weightNames := ?_
      ofWeight := fun n c hc => ⟨g' c, ?_, ?_⟩
      ofDensity := fun n c hn hc => ⟨g c, ?_, ?_⟩
      noOther := fun n hn => ?_
      distinct := ?_
      nodes := fun r hr => hshared r ?_
      weightPars := fun v hv => hshared v.pars ?_
      weightVars := fun v hv => hsharedVars v.vars ?_ }
  · have hne : r ≠ d.head.pars := fun he => h.valid.linked.parHead (he ▸ hr)
    rw [hregistry]
    exact h.names_part source ((Model.decay d).parRegistries_subset
      ((Model.decay d).partPars_subset hr)) hne
  · rw [hregistry]
    exact h.names_weight source w.pars_mem
  · rw [hfind, hc]
    rfl
  · rw [hcell, h.cell_weight hc]
  · rw [hfind, Registry.find?_eq_none.mpr hn, hc]
    rfl
  · rw [hcell, h.cell_density d.head_pars_mem hc]
  · rw [← Registry.isSome_find?, hfind, Option.isSome_or, Option.isSome_map, Option.isSome_map,
      Bool.or_eq_true, Registry.isSome_find?, Registry.isSome_find?] at hn
    exact hn
  · have hpars := registry_rejoined_pars (h.ready source)
    have hdistinct := (h.second.sound (d.moved f state source).head.pars).distinct
    rw [hregistry]
    exact hpars ▸ Registry.nodup_update _ hdistinct
  · exact (Model.decay out).partPars_subset (List.mem_append_left _ hr)
  · exact (Model.decay out).partPars_subset (List.mem_append_right _ (List.mem_map_of_mem hv))
  · exact (Model.decay out).partVars_subset (List.mem_map_of_mem hv)

end Copying

/-- **A density times a function is there if its integral is**, which is taken once all parts are
joined; what it stores is that integral, and nothing else is changed any more. -/
theorem withWeight_stores {s : Store α} {d : Decay α} {w : Weight α} (hs : s.Sound)
    (hd : (Model.decay d).Valid s) (hw : w.Valid s)
    (hvars : ∀ n ∈ (s.registry w.vars).names, n ∈ (s.registry d.head.vars).names) :
    ∃ s₁ s₂ f f' g g' state source, Copying s s₁ s₂ d w f f' g g' state ∧
      let out := (d.moved f state source).weighted (w.rename f')
      let u := rejoined s₂ (d.moved f state source) (w.rename f')
      u.state state = s.state d.state ∧
      (∀ e, out.integral u = .error e → (d.withWeight w).outcome s = (.error e, u)) ∧
      ∀ norm, out.integral u = .ok norm → ∃ t, (d.withWeight w).outcome s = (.ok out, t) ∧
        t.cells = u.cells ∧ t.registries = u.registries ∧ u.states.size ≤ t.states.size ∧
        t.state state = { s.state d.state with norm := norm } := by
  have hcheck := checkDeclares_of_names w.name fun n hn =>
    hvars n (Registry.mem_sortNames.mp hn)
  obtain ⟨s₁, s₂, f, f', g, g', state, source, h, hrun⟩ := withWeight_outcome hs hd hw hcheck
  refine ⟨s₁, s₂, f, f', g, g', state, source, h, ?_⟩
  intro out u
  have hstate : u.state state = s.state d.state := by
    rw [state_rejoined, h.second.states _ h.placed (Set.notMem_empty _), h.kept]
  refine ⟨hstate, fun e he => ?_, fun norm hnorm => ?_⟩
  · rw [hrun]
    exact Run.outcome_bind_error _ (cache_error he)
  · obtain ⟨t, ht, hsame⟩ := cache_ok hnorm
    have hplaced : state.index < u.states.size :=
      (weighted_valid (h.ready source)).states _ (List.mem_singleton_self _)
    refine ⟨t, hrun.trans (Run.outcome_bind_ok _ ht), hsame.1, hsame.2.1, ?_, ?_⟩
    · rw [hsame.2.2]
      exact (Store.grows_putState u state _).moreStates
    · have hwith : t.state state = (u.withNorm state norm).state state := hsame.state state
      rw [hwith, Store.state_withNorm hplaced, hstate]

/-- **The integral of the product is taken at the merged values**, and so is its numerator. -/
theorem withWeight_merges {s : Store α} {d : Decay α} {w : Weight α} (hs : s.Sound)
    (hd : (Model.decay d).Valid s) (hw : w.Valid s)
    (hvars : ∀ n ∈ (s.registry w.vars).names, n ∈ (s.registry d.head.vars).names) :
    (∀ e, (d.weighted w).integral (s.merged d w) = .error e →
      ∃ t, (d.withWeight w).outcome s = (.error e, t)) ∧
    ∀ norm, (d.weighted w).integral (s.merged d w) = .ok norm →
      ∃ out t f f', (d.withWeight w).outcome s = (.ok out, t) ∧ Reaches s t d w f f' out ∧
        (t.state out.state).norm = norm ∧
        ∀ m12 m13 m23, out.intensity t m12 m13 m23 =
          (d.weighted w).intensity (s.merged d w) m12 m13 m23 := by
  obtain ⟨s₁, s₂, f, f', g, g', state, source, h, hstate, hfails, hmakes⟩ :=
    withWeight_stores hs hd hw hvars
  have hintegral : ((d.moved f state source).weighted (w.rename f')).integral
      (rejoined s₂ (d.moved f state source) (w.rename f')) =
        (d.weighted w).integral (s.merged d w) :=
    integral_of_intensity rfl (congrArg DecayState.resolution hstate)
      (h.intensity_eq source rfl rfl)
  refine ⟨fun e he => ⟨_, hfails e (hintegral.trans he)⟩, fun norm hnorm => ?_⟩
  obtain ⟨t, hrun, hcells, hregistries, -, hstored⟩ := hmakes norm (hintegral.trans hnorm)
  refine ⟨_, t, f, f', hrun, h.reaches source hcells hregistries (by rw [hstored]), ?_,
    h.intensity_eq source hcells hregistries⟩
  show (t.state state).norm = norm
  rw [hstored]

end Decay

/-- **A function reaches every component of a decay density.** In every session, a density
times a function of its variables has one cell for each name of a parameter, with the content
that the function gives it or else the density, and all parts hold these cells. What it stores
is its integral at these values, and its value at every point is the squared magnitude of the
amplitude there, times the product of all functions there, or zero if that is negative, over
this norm. There is no such product only if the integral at these values fails. -/
theorem Session.withWeight_reaches (calls : List (Call α)) (d : Decay α) (w : Weight α)
    (hd : .density (.model (.decay d)) ∈ (Session.after calls).objects)
    (hw : .weight w ∈ (Session.after calls).objects)
    (hvars : ∀ n ∈ ((Session.after calls).store.registry w.vars).names,
      n ∈ ((Session.after calls).store.registry d.head.vars).names) :
    let s := (Session.after calls).store
    (∀ e, (d.weighted w).integral (s.merged d w) = .error e →
      ∃ t, (d.withWeight w).outcome s = (.error e, t)) ∧
    ∀ norm, (d.weighted w).integral (s.merged d w) = .ok norm →
      ∃ out t f f', (d.withWeight w).outcome s = (.ok out, t) ∧
        Decay.Reaches s t d w f f' out ∧
        (t.state out.state).norm = norm ∧ out.integral t = .ok norm ∧
        ∀ m12 m13 m23, out.evaluateAt t m12 m13 m23 = do
          let c ← m23.elim (d.third m12 m13) .ok
          let a ← d.amplitude.evaluate (s.merged d w) (.value m12) (.value m13) (.value c)
          let product ← Decay.weightProduct (s.merged d w)
            [(d.role12, .value m12), (d.role13, .value m13), (d.role23, .value c)]
            (d.weights ++ [w]) (.scalar 1.0)
          let v ← Value.combine (fun z x => z * x) (a.map (·.magnitude)).square
            (product.map (Scalar.max · 0.0))
          return v.map (· / norm) := by
  intro s
  have hvalid := Session.after_valid calls
  obtain ⟨hfails, hmakes⟩ :=
    Decay.withWeight_merges hvalid.sound (hvalid.objects _ hd) (hvalid.objects _ hw) hvars
  refine ⟨hfails, fun norm hnorm => ?_⟩
  obtain ⟨out, t, f, f', hrun, hreaches, hstored, hintensity⟩ := hmakes norm hnorm
  obtain ⟨hroles, hspace, hresolution⟩ := hreaches.kinematics
  refine ⟨out, t, f, f', hrun, hreaches, hstored, ?_, fun m12 m13 m23 => ?_⟩
  · rw [← hnorm]
    exact Decay.integral_of_intensity hspace hresolution hintensity
  · have hdensity : ∀ c, out.densityAt t (.value m12) (.value m13) (.value c) = do
        let a ← d.amplitude.evaluate (s.merged d w) (.value m12) (.value m13) (.value c)
        let product ← Decay.weightProduct (s.merged d w)
          [(d.role12, .value m12), (d.role13, .value m13), (d.role23, .value c)]
          (d.weights ++ [w]) (.scalar 1.0)
        let v ← Value.combine (fun z x => z * x) (a.map (·.magnitude)).square
          (product.map (Scalar.max · 0.0))
        return v.map (· / norm) := by
      intro c
      unfold Decay.densityAt
      rw [hintensity, hstored]
      simp only [Decay.intensity, Decay.weight, Decay.weighted, bind_assoc, pure_bind]
      rfl
    have hthird : out.third m12 m13 = d.third m12 m13 := by
      unfold Decay.third
      rw [hspace]
    unfold Decay.evaluateAt
    simp only [hdensity, hthird]
    cases m23 <;> rfl

namespace Sample

/-- A decay density times a function of a parameter called a of value 2, and another function
of a parameter of that name, of value 1. -/
def weighing : List (Call ℚ) :=
  operands ++ [.weight "acceptance" [⟨"a", .positionalOrNamed⟩] (.argument "a") [] [4]]

end Sample

/-- The second function turns the parameter of the first one from 2 to 1, and the norm with it:
what is left is the area of the one bin. -/
theorem Session.withWeight_reaches_weighing : ∃ d w,
    .density (.model (.decay d)) ∈ (Session.after Sample.weighing).objects ∧
    .weight w ∈ (Session.after Sample.weighing).objects ∧
    ((Session.after Sample.weighing).store.state d.state).norm = 3456 ∧
    ∃ out t f f', (d.withWeight w).outcome (Session.after Sample.weighing).store = (.ok out, t) ∧
      Decay.Reaches (Session.after Sample.weighing).store t d w f f' out ∧
      (t.state out.state).norm = 1728 := by
  have hevaluated : (do
      let d ← Held.decay (Session.after Sample.weighing).objects 10
      let w ← Held.weight (Session.after Sample.weighing).objects 13
      let x ← (d.weighted w).integral ((Session.after Sample.weighing).store.merged d w)
      return (((Session.after Sample.weighing).store.registry w.vars).names,
        ((Session.after Sample.weighing).store.state d.state).norm, x) :
      Except (Fault ℚ) (List String × ℚ × ℚ)).toOption = some ([], 3456, 1728) := by
    decide +kernel
  have hok := Sample.eq_ok_of_toOption hevaluated
  obtain ⟨d, hd, hok⟩ := bind_eq_ok_iff.mp hok
  obtain ⟨w, hw, hok⟩ := bind_eq_ok_iff.mp hok
  obtain ⟨x, hx, hok⟩ := bind_eq_ok_iff.mp hok
  obtain ⟨hnames, hnorm, rfl⟩ : ((Session.after Sample.weighing).store.registry w.vars).names = [] ∧
      ((Session.after Sample.weighing).store.state d.state).norm = 3456 ∧ x = 1728 := by
    simpa using Except.ok.inj hok
  have hmemd := List.mem_of_getElem? (Held.decay_eq_ok hd)
  have hmemw := List.mem_of_getElem? (Held.weight_eq_ok hw)
  obtain ⟨-, hmakes⟩ := withWeight_reaches Sample.weighing d w hmemd hmemw
    (by rw [hnames]; exact fun _ h => absurd h List.not_mem_nil)
  obtain ⟨out, t, f, f', hrun, hreaches, hstored, -⟩ := hmakes _ hx
  exact ⟨d, w, hmemd, hmemw, hnorm, out, t, f, f', hrun, hreaches, hstored⟩

end DensityAlgebra
