/-
# Decay densities times functions

Multiplying a decay density by a weight function copies both, lets the function's
parameters replace those of the same name in the copy, points the function to the
variables of the copy, and shares the cells again with all parts. The copy declares
all variables of the function, so no name is added where the function's variables
are pointed, and after the sharing the copy is linked as the density was.

Key definitions: `Decay.weighted`, `Decay.Ready`, `Decay.Copying`, `Decay.rejoined`,
`Model.Built`.
Key theorems: `Decay.weighted_arranged`, `Decay.withWeight_outcome`, `Decay.withWeight_spec`.
-/
import DensityAlgebra.Proofs.Joining
import Mathlib.Tactic.Tauto

namespace DensityAlgebra

variable {α : Type}

/-- A valid density all of whose parts are newer than `b`. -/
structure Model.Built (b s : Store α) (m : Model α) : Prop where
  valid : m.Valid s
  registries : ∀ r ∈ m.registries, b.registries.size ≤ r.index
  states : ∀ d ∈ m.states, b.states.size ≤ d.index

namespace Decay

/-- The density with one more weight function. -/
def weighted (d : Decay α) (w : Weight α) : Decay α := { d with weights := d.weights ++ [w] }

theorem mem_partVars_weighted {d : Decay α} {w : Weight α} {r : RegistryId} :
    r ∈ (Model.decay (d.weighted w)).partVars ↔ r ∈ (Model.decay d).partVars ∨ r = w.vars := by
  simp [Model.partVars, weighted]

theorem mem_partPars_weighted {d : Decay α} {w : Weight α} {r : RegistryId} :
    r ∈ (Model.decay (d.weighted w)).partPars ↔ r ∈ (Model.decay d).partPars ∨ r = w.pars := by
  simp [Model.partPars, weighted, or_assoc]

theorem mem_varRegistries_weighted {d : Decay α} {w : Weight α} {r : RegistryId} :
    r ∈ (Model.decay (d.weighted w)).varRegistries ↔
      r ∈ (Model.decay d).varRegistries ∨ r = w.vars := by
  show r ∈ _ :: _ ↔ r ∈ _ :: _ ∨ _
  rw [List.mem_cons, List.mem_cons, mem_partVars_weighted, or_assoc]
  rfl

theorem mem_parRegistries_weighted {d : Decay α} {w : Weight α} {r : RegistryId} :
    r ∈ (Model.decay (d.weighted w)).parRegistries ↔
      r ∈ (Model.decay d).parRegistries ∨ r = w.pars := by
  show r ∈ _ :: _ ↔ r ∈ _ :: _ ∨ _
  rw [List.mem_cons, List.mem_cons, mem_partPars_weighted, or_assoc]
  rfl

theorem mem_registries_weighted {d : Decay α} {w : Weight α} {r : RegistryId} :
    r ∈ (Model.decay (d.weighted w)).registries ↔
      r ∈ (Model.decay d).registries ∨ r = w.vars ∨ r = w.pars := by
  rw [Model.mem_registries, mem_varRegistries_weighted, mem_parRegistries_weighted,
    Model.mem_registries]
  tauto

/-- A density that passes the check has all names of the factor. -/
theorem names_of_checkDeclares {s : Store α} {d : Decay α} {factor : String}
    {names : List String} (h : d.checkDeclares s factor names = .ok ()) :
    ∀ n ∈ names, n ∈ (s.registry d.head.vars).names := by
  intro n hn
  unfold checkDeclares at h
  simp only at h
  split_ifs at h with hempty
  by_contra hmem
  have hforeign : n ∈ names.filter fun n => !(s.registry d.head.vars).contains n := by
    rw [List.mem_filter]
    refine ⟨hn, ?_⟩
    rw [Registry.contains_eq_decide]
    simpa using hmem
  rw [List.isEmpty_iff.mp hempty] at hforeign
  simp at hforeign

/-- A density that has all names of the factor passes the check. -/
theorem checkDeclares_of_names {s : Store α} {d : Decay α} (factor : String)
    {names : List String} (h : ∀ n ∈ names, n ∈ (s.registry d.head.vars).names) :
    d.checkDeclares s factor names = .ok () := by
  have hnone : (names.filter fun n => !(s.registry d.head.vars).contains n) = [] := by
    rw [List.filter_eq_nil_iff]
    intro n hn
    rw [Registry.contains_eq_decide]
    simpa using h n hn
  unfold checkDeclares
  simp [hnone]

/-- A density and a function that has no registry and no foreign variable of it. -/
structure Ready (s : Store α) (d : Decay α) (w : Weight α) : Prop where
  valid : (Model.decay d).Valid s
  weight : w.Valid s
  vars : w.vars ∉ (Model.decay d).registries
  pars : w.pars ∉ (Model.decay d).registries
  names : (s.registry w.vars).names ⊆ (s.registry d.head.vars).names

/-- The store where a function's parameters have entered the head of a density, and the
function holds its variables. -/
def entered (s : Store α) (d : Decay α) (w : Weight α) : Store α :=
  (s.putRegistry d.head.pars
    ((s.registry d.head.pars).update (s.registry w.pars))).link w.vars d.head.vars

section

variable {s : Store α} {d : Decay α} {w : Weight α}

/-- The four registries are different ones. -/
theorem Ready.ne (h : Ready s d w) :
    w.vars ≠ d.head.vars ∧ w.vars ≠ d.head.pars ∧ d.head.vars ≠ d.head.pars :=
  ⟨fun he => h.vars (he ▸ (Model.decay d).varRegistries_subset (Model.decay d).head_vars_mem),
    fun he => h.vars (he ▸ (Model.decay d).parRegistries_subset (Model.decay d).head_pars_mem),
    fun he => h.valid.linked.kinds _ (Model.decay d).head_vars_mem
      (he ▸ (Model.decay d).head_pars_mem)⟩

theorem registry_entered_pars (h : Ready s d w) :
    (entered s d w).registry d.head.pars =
      (s.registry d.head.pars).update (s.registry w.pars) := by
  have hbounded : d.head.pars.index < s.registries.size :=
    h.valid.linked.bounded _
      ((Model.decay d).parRegistries_subset (Model.decay d).head_pars_mem)
  unfold entered
  rw [Store.registry_link_ne _ h.ne.2.1.symm h.ne.2.2.symm, Store.registry_putRegistry,
    if_pos ⟨rfl, hbounded⟩]

/-- Only the parameters of the head get names. -/
theorem names_entered (h : Ready s d w) {r : RegistryId} (hr : r ≠ d.head.pars) :
    ((entered s d w).registry r).names = (s.registry r).names := by
  obtain ⟨hwv, hwp, hheads⟩ := h.ne
  have hput : ∀ q, q ≠ d.head.pars → (s.putRegistry d.head.pars
      ((s.registry d.head.pars).update (s.registry w.pars))).registry q = s.registry q :=
    fun q hq => by rw [Store.registry_putRegistry, if_neg fun hpars => hq hpars.1]
  unfold entered
  by_cases hweight : r = w.vars
  · rw [hweight, Store.names_link_own, hput _ hwp]
  by_cases hhead : r = d.head.vars
  · rw [hhead, Store.registry_link_shared_eq hwv, hput _ hheads]
    rw [hput _ hwp, hput _ hheads]
    exact h.names
  · rw [Store.registry_link_ne _ hweight hhead, hput r hr]

theorem size_entered (s : Store α) (d : Decay α) (w : Weight α) :
    (entered s d w).registries.size = s.registries.size := by
  unfold entered
  rw [Store.size_link, Store.size_putRegistry]

/-- **The head has all names of the parts again**, so they can be pointed to it. -/
theorem weighted_arranged (h : Ready s d w) :
    (Model.decay (d.weighted w)).Arranged (entered s d w) := by
  have hd := h.valid.linked
  obtain ⟨hwv, hwp, hheads⟩ := h.ne
  have hhp := (Model.decay d).parRegistries_subset (Model.decay d).head_pars_mem
  refine ⟨fun r hr => ?_, fun r hr hr' => ?_, fun hmem => ?_, fun hmem => ?_, fun r hr => ?_,
    fun r hr => ?_⟩
  · rw [size_entered]
    rcases mem_registries_weighted.mp hr with hr | rfl | rfl
    · exact hd.bounded r hr
    · exact h.weight.bounded _ w.vars_mem
    · exact h.weight.bounded _ w.pars_mem
  · rcases mem_varRegistries_weighted.mp hr with hr | rfl <;>
      rcases mem_parRegistries_weighted.mp hr' with hr' | hr'
    · exact hd.kinds r hr hr'
    · exact h.pars (hr' ▸ (Model.decay d).varRegistries_subset hr)
    · exact h.vars ((Model.decay d).parRegistries_subset hr')
    · exact h.weight.kinds hr'
  · rcases mem_partVars_weighted.mp hmem with hmem | he
    · exact hd.varHead hmem
    · exact hwv he.symm
  · rcases mem_partPars_weighted.mp hmem with hmem | he
    · exact hd.parHead hmem
    · exact h.pars (he ▸ hhp)
  · show _ ⊆ ((entered s d w).registry d.head.vars).names
    rw [names_entered h hheads]
    rcases mem_varRegistries_weighted.mp hr with hr | rfl
    · have hne : r ≠ d.head.pars := fun he =>
        hd.kinds r hr (he ▸ (Model.decay d).head_pars_mem)
      rw [names_entered h hne]
      exact (hd.vars r hr).names_subset
    · rw [names_entered h hwp]
      exact h.names
  · show _ ⊆ ((entered s d w).registry d.head.pars).names
    intro n hn
    rw [registry_entered_pars h]
    refine (Registry.mem_names_update _ _ n).mpr ?_
    by_cases he : r = d.head.pars
    · rw [he, registry_entered_pars h] at hn
      exact (Registry.mem_names_update _ _ n).mp hn
    · rw [names_entered h he] at hn
      rcases mem_parRegistries_weighted.mp hr with hr | rfl
      · exact .inl ((hd.pars r hr).names_subset hn)
      · exact .inr hn

end

variable [Scalar α]

section

variable {b s : Store α} {d : Decay α} {w : Weight α}

/-- What enters the head and where the function is pointed is new if both are. -/
theorem apart_entered (hb : b.Apart s)
    (hd : ∀ r ∈ (Model.decay d).registries, b.registries.size ≤ r.index)
    (hv : b.registries.size ≤ w.vars.index) (hp : b.registries.size ≤ w.pars.index) :
    b.Apart (entered s d w) := by
  have hpars : b.registries.size ≤ d.head.pars.index :=
    hd _ ((Model.decay d).parRegistries_subset (Model.decay d).head_pars_mem)
  have hvars : b.registries.size ≤ d.head.vars.index :=
    hd _ ((Model.decay d).varRegistries_subset (Model.decay d).head_vars_mem)
  refine Store.Apart.link (hb.putRegistry hpars ?_ fun e he => ?_) hv hvars
  · exact (hb.sound _).of_entries (hb.sound _) (Registry.nodup_update _ (hb.sound _).distinct)
      fun e he => Registry.mem_update he
  · rcases Registry.mem_update he with he | he
    · exact hb.detached _ hpars e he
    · exact hb.detached _ hp e he

omit [Scalar α] in
/-- **With its parts pointed to the head** the density is valid: names have entered the
parameters of the head only, and these are neither roles nor names of the amplitude. -/
theorem weighted_valid (h : Ready s d w) :
    (Model.decay (d.weighted w)).Valid
      ((entered s d w).linkAll (Model.decay (d.weighted w)).partLinks) := by
  have hd := h.valid
  have harr := weighted_arranged h
  set t := (entered s d w).linkAll (Model.decay (d.weighted w)).partLinks
  have hkept : ∀ r, r ≠ d.head.pars → (t.registry r).names = (s.registry r).names :=
    fun r hr => (Store.names_linkAll harr.plan r).trans (names_entered h hr)
  have hnodes : ∀ r ∈ d.amplitude.registries, r ≠ d.head.pars := fun r hr he =>
    hd.linked.parHead (List.mem_append_left _ (he ▸ hr))
  refine ⟨harr.linked, fun e he => ?_, ?_, fun r hr => ?_⟩
  · have hstates : t.states = s.states := Store.states_linkAll _ _
    rw [hstates]
    exact hd.states e he
  · show (t.registry d.head.vars).names = d.roles
    rw [hkept _ h.ne.2.2]
    exact hd.covered.1
  · show _ ⊆ (t.registry d.amplitude.pars).names
    rw [hkept r (hnodes r hr), hkept _ (hnodes _ d.amplitude.pars_mem)]
    exact hd.covered.2 r hr

/-- A density and then a function of its variables have been copied, each with its registries
to new ones. -/
structure Copying (s s₁ s₂ : Store α) (d : Decay α) (w : Weight α) (f f' : RegistryId → RegistryId)
    (g g' : CellId → CellId) (state : StateId) : Prop where
  sound : s.Sound
  valid : (Model.decay d).Valid s
  weightValid : w.Valid s
  declares : d.checkDeclares s w.name (s.registry w.vars).sortedNames = .ok ()
  first : s.Apart s₁
  density : s.Copied s₁ (Model.decay d).registries f g
  kept : s₁.state state = s.state d.state
  newer : s.states.size ≤ state.index
  placed : state.index < s₁.states.size
  second : s₁.Apart s₂
  weight : s₁.Copied s₂ w.registries f' g'

/-- A density that passes the check and a function are ready once both are copied: the
registries of the second copy are newer than those of the first one. -/
theorem Copying.ready {s₁ s₂ : Store α} {f f' : RegistryId → RegistryId}
    {g g' : CellId → CellId} {state : StateId} (h : Copying s s₁ s₂ d w f f' g g' state)
    (source : SourceId) : Ready s₂ (d.moved f state source) (w.rename f') := by
  have hd := h.valid
  have hw := h.weightValid
  set out := d.moved f state source
  have hcopy : Model.IsCopy f (.decay d) (.decay out) := ⟨state, source, rfl⟩
  have hout : (Model.decay out).Valid s₁ :=
    ⟨hd.linked.copied h.density hcopy, fun e he => (List.mem_singleton.mp he).symm ▸ h.placed,
      hcopy.covered hd.covered fun r hr => h.density.names hr⟩
  have hold : ∀ r ∈ (Model.decay out).registries, r.index < s₁.registries.size :=
    hout.linked.bounded
  refine ⟨hout.grows h.second.toGrows, (hw.grows h.first.toGrows).copied h.weight, fun hmem => ?_,
    fun hmem => ?_, ?_⟩
  · exact absurd (hold _ hmem) (h.weight.fresh _ w.vars_mem).1.not_gt
  · exact absurd (hold _ hmem) (h.weight.fresh _ w.pars_mem).1.not_gt
  · have hmem := (Model.decay d).varRegistries_subset (Model.decay d).head_vars_mem
    have hweight : (s₂.registry (w.rename f').vars).names = (s.registry w.vars).names := by
      rw [← h.first.registries _ (hw.bounded _ w.vars_mem)]
      exact h.weight.names w.vars_mem
    have hhead : (s₂.registry out.head.vars).names = (s.registry d.head.vars).names := by
      have hplace : out.head.vars.index < s₁.registries.size :=
        hold _ (hcopy.mem_registries.mpr ⟨_, hmem, rfl⟩)
      rw [h.second.registries _ hplace]
      exact h.density.names hmem
    rw [hweight, hhead]
    exact fun n hn => names_of_checkDeclares h.declares n (Registry.mem_sortNames.mpr hn)

end

/-- The store where a function has entered a density, and all parts hold the cells of the
head again. -/
def rejoined (s : Store α) (d : Decay α) (w : Weight α) : Store α :=
  (entered s d w).linkAll (Model.decay (d.weighted w)).partLinks

/-- **Multiplying copies, joins and renews**: what is left after the check, the copies and
the sharing is to normalize the product. -/
theorem withWeight_outcome {s : Store α} {d : Decay α} {w : Weight α} (hs : s.Sound)
    (hd : (Model.decay d).Valid s) (hw : w.Valid s)
    (hcheck : d.checkDeclares s w.name (s.registry w.vars).sortedNames = .ok ()) :
    ∃ s₁ s₂ f f' g g' state source, Copying s s₁ s₂ d w f f' g g' state ∧
      (d.withWeight w).outcome s = (do
        ((d.moved f state source).weighted (w.rename f')).cache
        return (d.moved f state source).weighted (w.rename f')).outcome
          (rejoined s₂ (d.moved f state source) (w.rename f')) := by
  have hold : d.state.index < s.states.size := hd.states _ (List.mem_singleton_self _)
  obtain ⟨state, source, s₁, f, g, hs₁, hap₁, hf, hkept, hfresh, hlt⟩ :=
    Decay.copy_spec hs d hold
  obtain ⟨s₂, f', g', hs₂, hap₂, hf'⟩ := Weight.copy_spec hap₁.sound w
  refine ⟨s₁, s₂, f, f', g, g', state, source,
    ⟨hs, hd, hw, hcheck, hap₁, hf, hkept, hfresh, hlt, hap₂, hf'⟩, ?_⟩
  have hread : (Run.reading fun s => d.checkDeclares s w.name (s.registry w.vars).sortedNames
      ).outcome s = (.ok (), s) := by
    rw [Run.outcome_reading, hcheck]
  set out := d.moved f state source
  set added := w.rename f'
  have hpointed : (Run.rebind added.vars out.head.vars).outcome (s₂.putRegistry out.head.pars
      ((s₂.registry out.head.pars).update (s₂.registry added.pars))) =
      (.ok ⟨⟩, entered s₂ out added) := rfl
  unfold withWeight
  rw [Run.outcome_bind_ok _ hread, Run.outcome_bind_ok _ hs₁, Run.outcome_bind_ok _ hs₂,
    Run.outcome_bind_ok _ (Run.outcome_modify _ s₂), Run.outcome_bind_ok _ hpointed]
  exact Run.outcome_bind_ok _ (outcome_shareCells (out.weighted added) _)

/-- **A decay density times a function** is a valid density of its own. -/
theorem withWeight_spec {b s : Store α} {d : Decay α} {w : Weight α} (hb : b.Apart s)
    (hd : (Model.decay d).Valid s) (hw : w.Valid s) :
    (d.withWeight w).Ends s (fun e t => b.Apart t ∧ (Model.decay e).Built b t) b.Apart := by
  cases hcheck : d.checkDeclares s w.name (s.registry w.vars).sortedNames with
  | error e =>
    unfold withWeight
    exact Run.ends_reading_bind hb fun _ hok => by rw [hcheck] at hok; cases hok
  | ok _ =>
    obtain ⟨s₁, s₂, f, f', g, g', state, source, hcopying, hrun⟩ :=
      withWeight_outcome hb.sound hd hw hcheck
    have hvalid := weighted_valid (hcopying.ready source)
    set out := d.moved f state source
    set added := w.rename f'
    set out' := out.weighted added
    set s₃ := entered s₂ out added
    set s₄ := rejoined s₂ out added
    refine Run.Ends.congr ?_ hrun
    -- all that was put and pointed is new
    have hfirst : b.registries.size ≤ s.registries.size := hb.moreRegistries
    have hplaceOut : ∀ r ∈ (Model.decay out).registries, b.registries.size ≤ r.index := by
      intro r hr
      have hcopy : Model.IsCopy f (.decay d) (.decay out) := ⟨state, source, rfl⟩
      obtain ⟨q, hq, rfl⟩ := hcopy.mem_registries.mp hr
      exact hfirst.trans (hcopying.density.fresh q hq).1
    have hsecond : b.registries.size ≤ s₁.registries.size :=
      hfirst.trans hcopying.first.moreRegistries
    have hvars : b.registries.size ≤ added.vars.index :=
      hsecond.trans (hcopying.weight.fresh _ w.vars_mem).1
    have hpars : b.registries.size ≤ added.pars.index :=
      hsecond.trans (hcopying.weight.fresh _ w.pars_mem).1
    have hplace : ∀ r ∈ (Model.decay out').registries, b.registries.size ≤ r.index := by
      intro r hr
      rcases mem_registries_weighted.mp hr with hr | rfl | rfl
      · exact hplaceOut r hr
      · exact hvars
      · exact hpars
    have hb₃ : b.Apart s₃ :=
      apart_entered ((hb.trans hcopying.first).trans hcopying.second) hplaceOut hvars hpars
    have hb₄ : b.Apart s₄ := hb₃.linkAll fun e he =>
      ⟨hplace _ (Model.partLinks_subset he).1, hplace _ (Model.partLinks_subset he).2⟩
    have hstate : b.states.size ≤ out'.state.index := hb.moreStates.trans hcopying.newer
    -- and what is cached at last is a state of its own
    refine ((Decay.cache_spec out' s₄).mono (fun _ _ h => h) fun v hv => hv ▸ hb₄).bind ?_
    intro _ t hcached
    obtain ⟨x, -, hsame⟩ := hcached
    have hb₅ : b.Apart (s₄.withNorm out'.state x) := hb₄.putState _ hstate
    have hgrows : s₄.Grows t :=
      (Store.grows_putState s₄ _ _).trans (hsame.within (C := ∅) (D := ∅)).toGrows
    refine Run.ends_pure ⟨hb₅.of_same hsame, hvalid.grows hgrows, hplace, fun e he => ?_⟩
    rw [List.mem_singleton.mp he]
    exact hstate

end Decay

end DensityAlgebra
