/-
# Copies of densities

A copied density is the same density over renamed registries; a decay density
gets a state and a random source of its own, and the state has the content of the
old one. Models are copied one after the other, each with a state that no other
one has. Since the renaming is one-to-one, the copy of a linked density is linked.

Key definitions: `Model.states`, `Decay.moved`, `Model.IsCopy`, `Model.Copies`,
`Composite.CopyOf`.
Key theorems: `Model.Linked.copied`, `Model.detachAll_spec`, `Composite.copy_spec`,
`Model.copy_spec`, `Amplitude.copy_spec`, `Weight.copy_spec`, `Expression.copy_spec`.
-/
import DensityAlgebra.Proofs.Copying
import DensityAlgebra.Proofs.Traversals

namespace DensityAlgebra

variable {α : Type}

/-! ### Renamed parts -/

mutual

theorem Amplitude.registries_rename (f : RegistryId → RegistryId) : ∀ a : Amplitude α,
    (a.rename f).registries = a.registries.map f
  | .flat .. => rfl
  | .resonance .. => rfl
  | .sum r terms => by
    show f r :: (terms.rename f).registries = f r :: terms.registries.map f
    rw [Amplitude.Terms.registries_rename f terms]

theorem Amplitude.Terms.registries_rename (f : RegistryId → RegistryId) :
    ∀ ts : Amplitude.Terms α, (ts.rename f).registries = ts.registries.map f
  | .nil => rfl
  | .cons _ _ factor rest => by
    show (factor.rename f).registries ++ (rest.rename f).registries =
      (factor.registries ++ rest.registries).map f
    rw [Amplitude.registries_rename f factor, Amplitude.Terms.registries_rename f rest,
      List.map_append]

end

theorem Amplitude.pars_rename (f : RegistryId → RegistryId) (a : Amplitude α) :
    (a.rename f).pars = f a.pars := by
  cases a <;> rfl

theorem Amplitude.pars_mem (a : Amplitude α) : a.pars ∈ a.registries := by
  cases a <;> exact List.mem_cons_self

/-- The decay density over renamed registries, with another state and source. -/
def Decay.moved (f : RegistryId → RegistryId) (state : StateId) (source : SourceId)
    (d : Decay α) : Decay α :=
  { d with
    head := d.head.rename f
    amplitude := d.amplitude.rename f
    weights := d.weights.map (·.rename f)
    state := state
    source := source }

@[simp] theorem Decay.moved_space (f : RegistryId → RegistryId) (state : StateId)
    (source : SourceId) (d : Decay α) : (d.moved f state source).space = d.space := rfl

@[simp] theorem Decay.moved_state (f : RegistryId → RegistryId) (state : StateId)
    (source : SourceId) (d : Decay α) : (d.moved f state source).state = state := rfl

@[simp] theorem Decay.moved_role12 (f : RegistryId → RegistryId) (state : StateId)
    (source : SourceId) (d : Decay α) : (d.moved f state source).role12 = d.role12 := rfl

@[simp] theorem Decay.moved_role13 (f : RegistryId → RegistryId) (state : StateId)
    (source : SourceId) (d : Decay α) : (d.moved f state source).role13 = d.role13 := rfl

@[simp] theorem Decay.moved_role23 (f : RegistryId → RegistryId) (state : StateId)
    (source : SourceId) (d : Decay α) : (d.moved f state source).role23 = d.role23 := rfl

namespace Model

/-- The changing parts of a density. -/
def states : Model α → List StateId
  | decay d => [d.state]
  | _ => []

/-- The other density is this one over renamed registries, with changing parts of
its own. -/
def IsCopy (f : RegistryId → RegistryId) : Model α → Model α → Prop
  | gaussian h x mu sigma, m => m = gaussian (h.rename f) x mu sigma
  | uniform h x lo hi, m => m = uniform (h.rename f) x lo hi
  | formula h body _, m => ∃ c, m = formula (h.rename f) body c
  | decay d, m => ∃ state source, m = decay (d.moved f state source)

variable {f : RegistryId → RegistryId} {m m' : Model α}

theorem IsCopy.head (h : IsCopy f m m') : m'.head = m.head.rename f := by
  cases m with
  | formula => obtain ⟨_, rfl⟩ := h; rfl
  | decay d => obtain ⟨_, _, rfl⟩ := h; rfl
  | _ => subst h; rfl

theorem IsCopy.partVars (h : IsCopy f m m') : m'.partVars = m.partVars.map f := by
  cases m with
  | formula => obtain ⟨_, rfl⟩ := h; rfl
  | decay d =>
    obtain ⟨_, _, rfl⟩ := h
    show (d.weights.map (·.rename f)).map (·.vars) = (d.weights.map (·.vars)).map f
    rw [List.map_map, List.map_map]
    rfl
  | _ => subst h; rfl

theorem IsCopy.partPars (h : IsCopy f m m') : m'.partPars = m.partPars.map f := by
  cases m with
  | formula => obtain ⟨_, rfl⟩ := h; rfl
  | decay d =>
    obtain ⟨_, _, rfl⟩ := h
    show (d.amplitude.rename f).registries ++ (d.weights.map (·.rename f)).map (·.pars) =
      (d.amplitude.registries ++ d.weights.map (·.pars)).map f
    rw [List.map_append, List.map_map, List.map_map, Amplitude.registries_rename]
    rfl
  | _ => subst h; rfl

theorem IsCopy.varRegistries (h : IsCopy f m m') : m'.varRegistries = m.varRegistries.map f := by
  unfold Model.varRegistries
  rw [h.partVars, h.head]
  rfl

theorem IsCopy.parRegistries (h : IsCopy f m m') : m'.parRegistries = m.parRegistries.map f := by
  unfold Model.parRegistries
  rw [h.partPars, h.head]
  rfl

theorem IsCopy.mem_registries (h : IsCopy f m m') {r : RegistryId} :
    r ∈ m'.registries ↔ ∃ q ∈ m.registries, f q = r := by
  rw [Model.mem_registries, h.varRegistries, h.parRegistries, List.mem_map, List.mem_map]
  constructor
  · rintro (⟨q, hq, rfl⟩ | ⟨q, hq, rfl⟩)
    · exact ⟨q, m.varRegistries_subset hq, rfl⟩
    · exact ⟨q, m.parRegistries_subset hq, rfl⟩
  · rintro ⟨q, hq, rfl⟩
    rcases Model.mem_registries.mp hq with hq | hq
    · exact .inl ⟨q, hq, rfl⟩
    · exact .inr ⟨q, hq, rfl⟩

/-- **A copy of a linked density is linked.** -/
theorem Linked.copied [Scalar α] {s t : Store α} {g : CellId → CellId} (h : m.Linked s)
    (hf : s.Copied t m.registries f g) (hm : IsCopy f m m') : m'.Linked t := by
  have hv := m.varRegistries_subset
  have hp := m.parRegistries_subset
  have hvar : m'.head.vars = f m.head.vars := by rw [hm.head]; rfl
  have hpar : m'.head.pars = f m.head.pars := by rw [hm.head]; rfl
  refine ⟨fun r hr => ?_, fun r hr hr' => ?_, ?_, ?_, fun r hr => ?_, fun r hr => ?_⟩
  · obtain ⟨q, hq, rfl⟩ := hm.mem_registries.mp hr
    exact (hf.fresh q hq).2
  · rw [hm.varRegistries] at hr
    rw [hm.parRegistries] at hr'
    obtain ⟨q, hq, rfl⟩ := List.mem_map.mp hr
    obtain ⟨q', hq', heq⟩ := List.mem_map.mp hr'
    exact h.kinds q hq (hf.injective q' (hp hq') q (hv hq) heq ▸ hq')
  · rw [hvar, hm.partVars]
    intro hmem
    obtain ⟨q, hq, heq⟩ := List.mem_map.mp hmem
    have := hf.injective q (hv (m.partVars_subset hq)) _ (hv m.head_vars_mem) heq
    exact h.varHead (this ▸ hq)
  · rw [hpar, hm.partPars]
    intro hmem
    obtain ⟨q, hq, heq⟩ := List.mem_map.mp hmem
    have := hf.injective q (hp (m.partPars_subset hq)) _ (hp m.head_pars_mem) heq
    exact h.parHead (this ▸ hq)
  · rw [hm.varRegistries] at hr
    obtain ⟨q, hq, rfl⟩ := List.mem_map.mp hr
    rw [hvar]
    exact hf.under (hv hq) (hv m.head_vars_mem) (h.vars q hq)
  · rw [hm.parRegistries] at hr
    obtain ⟨q, hq, rfl⟩ := List.mem_map.mp hr
    rw [hpar]
    exact hf.under (hp hq) (hp m.head_pars_mem) (h.pars q hq)

end Model

/-! ### Detaching -/

theorem Run.outcome_spawn [Scalar α] (r : SourceId) (s : Store α) :
    ∃ c t, (Run.spawn r).outcome s = (.ok c, t) ∧ s.Same t :=
  ⟨_, _, rfl, rfl, rfl, rfl⟩

variable [Scalar α]

theorem Decay.outcome_detach (f : RegistryId → RegistryId) (d : Decay α) (s : Store α) :
    ∃ source t, (d.detach f).outcome s = (.ok (d.moved f ⟨s.states.size⟩ source), t) ∧
      (s.addState (s.state d.state)).Same t := by
  obtain ⟨c, t, ht, hsame⟩ := Run.outcome_spawn d.source (s.addState (s.state d.state))
  refine ⟨c, t, ?_, hsame⟩
  show (get >>= _ : Run α _).outcome s = _
  rw [Run.outcome_bind_ok _ (Run.outcome_get s), Run.outcome_bind_ok _ (Run.outcome_newState _ s),
    Run.outcome_bind_ok _ ht]
  rfl

namespace Model

/-- Copies of models in order: each has states that no other one has, with the content
of the old ones. -/
structure Copies (f : RegistryId → RegistryId) (s t : Store α) (ms ms' : List (Model α)) :
    Prop where
  shapes : List.Forall₂ (IsCopy f) ms ms'
  contents : List.Forall₂ (fun m m' => m'.states.map t.state = m.states.map s.state) ms ms'
  distinct : (ms'.flatMap states).Nodup
  fresh : ∀ d ∈ ms'.flatMap states, s.states.size ≤ d.index ∧ d.index < t.states.size

theorem Copies.mem {f : RegistryId → RegistryId} {s t : Store α} {ms ms' : List (Model α)}
    (h : Copies f s t ms ms') {m' : Model α} (hm : m' ∈ ms') : ∃ m ∈ ms, IsCopy f m m' :=
  exists_left_of_forall₂ h.shapes hm

/-- Detaching a model adds a state to a store at most. -/
theorem detach_spec (f : RegistryId → RegistryId) (m : Model α) {s : Store α} (hs : s.Sound) :
    ∃ m' t, (m.detach f).outcome s = (.ok m', t) ∧ s.Apart t ∧ t.registries = s.registries ∧
      t.cells = s.cells ∧ IsCopy f m m' ∧ m'.states.map t.state = m.states.map s.state ∧
      m'.states.Nodup ∧ ∀ d ∈ m'.states, d.index = s.states.size ∧ d.index < t.states.size := by
  have hself := Store.Apart.refl hs
  cases m with
  | gaussian h x mu sigma =>
    exact ⟨_, s, rfl, hself, rfl, rfl, rfl, rfl, List.nodup_nil, by simp [states]⟩
  | uniform h x lo hi =>
    exact ⟨_, s, rfl, hself, rfl, rfl, rfl, rfl, List.nodup_nil, by simp [states]⟩
  | formula h body c =>
    exact ⟨_, _, rfl, hself.of_same ⟨rfl, rfl, rfl⟩, rfl, rfl, ⟨_, rfl⟩, rfl, List.nodup_nil,
      by simp [states]⟩
  | decay d =>
    obtain ⟨source, t, ht, hsame⟩ := d.outcome_detach f s
    refine ⟨.decay (d.moved f ⟨s.states.size⟩ source), t, ?_,
      (hself.addState (s.state d.state)).of_same hsame, hsame.2.1, hsame.1, ⟨_, _, rfl⟩, ?_,
      List.nodup_singleton _, ?_⟩
    · show (d.detach f >>= _).outcome s = _
      rw [Run.outcome_bind_ok _ ht]
      rfl
    · show [t.state ⟨s.states.size⟩] = [s.state d.state]
      rw [hsame.state, Store.state_addState, if_pos rfl]
    · intro e he
      rw [List.mem_singleton.mp he]
      refine ⟨rfl, ?_⟩
      show s.states.size < t.states.size
      rw [hsame.2.2, Store.size_addState]
      omega

/-- **Models are detached one after the other.** -/
theorem detachAll_spec (f : RegistryId → RegistryId) : ∀ (ms : List (Model α)) {s : Store α},
    s.Sound → (∀ m ∈ ms, ∀ d ∈ m.states, d.index < s.states.size) →
    ∃ ms' t, (ms.mapM (Model.detach f)).outcome s = (.ok ms', t) ∧ s.Apart t ∧
      t.registries = s.registries ∧ t.cells = s.cells ∧ Copies f s t ms ms'
  | [], s, hs, _ =>
    ⟨[], s, by rw [List.mapM_nil]; rfl, Store.Apart.refl hs, rfl, rfl, .nil, .nil, List.nodup_nil,
      by simp⟩
  | m :: rest, s, hs, hst => by
    rw [List.forall_mem_cons] at hst
    obtain ⟨m', t, ht, hap, hr, hc, hm, hcont, hnd, hfresh⟩ := detach_spec f m hs
    have hmore : ∀ m ∈ rest, ∀ d ∈ m.states, d.index < t.states.size := fun m hm d hd =>
      (hst.2 m hm d hd).trans_le hap.moreStates
    obtain ⟨ms', u, hu, hap', hr', hc', hms⟩ := detachAll_spec f rest hap.sound hmore
    have hlater : ∀ d ∈ ms'.flatMap states, s.states.size < d.index ∨ m'.states = [] := by
      intro d hd
      by_cases hnil : m'.states = []
      · exact .inr hnil
      · obtain ⟨e, he⟩ := List.exists_mem_of_ne_nil _ hnil
        have h1 := (hms.fresh d hd).1
        have h2 := hfresh e he
        exact .inl (by omega)
    refine ⟨m' :: ms', u, ?_, hap.trans hap', hr'.trans hr, hc'.trans hc, ?_⟩
    · rw [List.mapM_cons, Run.outcome_bind_ok _ ht, Run.outcome_bind_ok _ hu]
      rfl
    · refine ⟨.cons hm hms.shapes, .cons ?_ ?_, ?_, ?_⟩
      · rw [← hcont]
        refine List.map_congr_left fun d hd => ?_
        exact hap'.states d (hfresh d hd).2 (Set.notMem_empty _)
      · refine forall₂_of_mem hms.contents fun n hn n' _ hc => hc.trans ?_
        refine List.map_congr_left fun d hd => ?_
        exact hap.states d (hst.2 n hn d hd) (Set.notMem_empty _)
      · rw [List.flatMap_cons, List.nodup_append]
        refine ⟨hnd, hms.distinct, fun d hd e he heq => ?_⟩
        rcases hlater e he with h | h
        · have := (hfresh d hd).1
          rw [heq] at this
          omega
        · rw [h] at hd
          simp at hd
      · intro d hd
        rw [List.flatMap_cons, List.mem_append] at hd
        rcases hd with hd | hd
        · have h1 := hfresh d hd
          have h2 := hap'.moreStates
          omega
        · have h1 := hms.fresh d hd
          have h2 := hap.moreStates
          omega

/-- A store that goes on to have the same states sees the same copies. -/
theorem Copies.of_states {f : RegistryId → RegistryId} {s t u v : Store α} {ms ms' : List (Model α)}
    (h : Copies f t u ms ms') (hst : ∀ m ∈ ms, ∀ d ∈ m.states, t.state d = s.state d)
    (hs : s.states.size ≤ t.states.size) (huv : Store.Within ∅ ∅ u v) : Copies f s v ms ms' where
  shapes := h.shapes
  contents := by
    have hnew : ∀ m' ∈ ms', ∀ d ∈ m'.states, v.state d = u.state d := fun m' hm d hd =>
      huv.states d (h.fresh d (List.mem_flatMap.mpr ⟨m', hm, hd⟩)).2 (Set.notMem_empty _)
    refine forall₂_of_mem h.contents fun m hm m' hm' hc => ?_
    calc m'.states.map v.state = m'.states.map u.state :=
          List.map_congr_left fun d hd => hnew m' hm' d hd
      _ = m.states.map t.state := hc
      _ = m.states.map s.state := List.map_congr_left fun d hd => hst m hm d hd
  distinct := h.distinct
  fresh d hd := ⟨hs.trans (h.fresh d hd).1, (h.fresh d hd).2.trans_le huv.moreStates⟩

/-- **A copied density is a copy over new registries.** -/
theorem copy_spec {s : Store α} (hs : s.Sound) (m : Model α)
    (hst : ∀ d ∈ m.states, d.index < s.states.size) :
    ∃ m' t f g, m.copy.outcome s = (.ok m', t) ∧ s.Apart t ∧ s.Copied t m.registries f g ∧
      Copies f s t [m] [m'] := by
  obtain ⟨f, g, t, ht, hap, hf⟩ := Run.copyRegistries_spec hs m.registries
  have hold : ∀ d ∈ m.states, t.state d = s.state d := fun d hd =>
    hap.states d (hst d hd) (Set.notMem_empty _)
  obtain ⟨m', u, hu, hap', -, -, hm, hcont, hnd, hfresh⟩ := detach_spec f m hap.sound
  refine ⟨m', u, f, g, ?_, hap.trans hap', hf.after hap'.toWithin, ?_⟩
  · show (Run.copyRegistries m.registries >>= _).outcome s = _
    rw [Run.outcome_bind_ok _ ht, hu]
  · refine ⟨.cons hm .nil, .cons ?_ .nil, ?_, fun d hd => ?_⟩
    · rw [hcont]
      exact List.map_congr_left hold
    · rw [List.flatMap_singleton]
      exact hnd
    · rw [List.flatMap_singleton] at hd
      have h1 := hfresh d hd
      have h2 := hap.moreStates
      omega

end Model

theorem Decay.copy_spec {s : Store α} (hs : s.Sound) (d : Decay α)
    (hst : d.state.index < s.states.size) :
    ∃ state source t f g, d.copy.outcome s = (.ok (d.moved f state source), t) ∧ s.Apart t ∧
      s.Copied t d.registries f g ∧ t.state state = s.state d.state ∧
      s.states.size ≤ state.index ∧ state.index < t.states.size := by
  obtain ⟨f, g, t, ht, hap, hf⟩ := Run.copyRegistries_spec hs d.registries
  obtain ⟨source, u, hu, hsame⟩ := d.outcome_detach f t
  have hap' : t.Apart u :=
    ((Store.Apart.refl hap.sound).addState (t.state d.state)).of_same hsame
  refine ⟨⟨t.states.size⟩, source, u, f, g, ?_, hap.trans hap', hf.after hap'.toWithin, ?_,
    hap.moreStates, ?_⟩
  · show (Run.copyRegistries d.registries >>= _).outcome s = _
    rw [Run.outcome_bind_ok _ ht, hu]
  · rw [hsame.state, Store.state_addState, if_pos rfl]
    exact hap.states d.state hst (Set.notMem_empty _)
  · rw [hsame.2.2, Store.size_addState]
    exact Nat.lt_succ_self _

/-! ### Other copies -/

/-- The composite is a copy of the other one, over renamed registries. -/
structure Composite.CopyOf (f : RegistryId → RegistryId) (s t : Store α) (p q : Composite α) :
    Prop where
  program : q.program = p.program
  vars : q.vars = f p.vars
  pars : q.pars = f p.pars
  models : Model.Copies f s t p.models q.models

/-- **A copied composite is a copy over new registries.** -/
theorem Composite.copy_spec {s : Store α} (hs : s.Sound) (p : Composite α)
    (hst : ∀ m ∈ p.models, ∀ d ∈ m.states, d.index < s.states.size) :
    ∃ q t f g, p.copy.outcome s = (.ok q, t) ∧ s.Apart t ∧ s.Copied t p.registries f g ∧
      p.CopyOf f s t q := by
  obtain ⟨f, g, t, ht, hap, hf⟩ := Run.copyRegistries_spec hs p.registries
  have hmore : ∀ m ∈ p.models, ∀ d ∈ m.states, d.index < t.states.size := fun m hm d hd =>
    (hst m hm d hd).trans_le hap.moreStates
  obtain ⟨ms', u, hu, hap', -, -, hms⟩ := Model.detachAll_spec f p.models hap.sound hmore
  refine ⟨⟨p.program, ms', f p.vars, f p.pars⟩, u, f, g, ?_, hap.trans hap',
    hf.after hap'.toWithin, rfl, rfl, rfl, ?_⟩
  · show (Run.copyRegistries p.registries >>= _).outcome s = _
    rw [Run.outcome_bind_ok _ ht, Run.outcome_bind_ok _ hu]
    rfl
  · exact hms.of_states (fun m hm d hd => hap.states d (hst m hm d hd) (Set.notMem_empty _))
      hap.moreStates (Store.Within.refl u)

/-- A copy of an amplitude is made in every store. -/
theorem Amplitude.copy_copied (s : Store α) (a : Amplitude α) :
    ∃ t f g, a.copy.outcome s = (.ok (a.rename f), t) ∧ s.Within ∅ ∅ t ∧
      s.Copied t a.registries f g := by
  obtain ⟨f, g, t, ht, hwithin, hf, -⟩ := Run.copyRegistries_copied s a.registries
  refine ⟨t, f, g, ?_, hwithin, hf⟩
  show (Run.copyRegistries a.registries >>= _).outcome s = _
  rw [Run.outcome_bind_ok _ ht]
  rfl

theorem Amplitude.copy_spec {s : Store α} (hs : s.Sound) (a : Amplitude α) :
    ∃ t f g, a.copy.outcome s = (.ok (a.rename f), t) ∧ s.Apart t ∧
      s.Copied t a.registries f g := by
  obtain ⟨f, g, t, ht, hap, hf⟩ := Run.copyRegistries_spec hs a.registries
  refine ⟨t, f, g, ?_, hap, hf⟩
  show (Run.copyRegistries a.registries >>= _).outcome s = _
  rw [Run.outcome_bind_ok _ ht]
  rfl

theorem Weight.copy_spec {s : Store α} (hs : s.Sound) (w : Weight α) :
    ∃ t f g, w.copy.outcome s = (.ok (w.rename f), t) ∧ s.Apart t ∧
      s.Copied t w.registries f g := by
  obtain ⟨f, g, t, ht, hap, hf⟩ := Run.copyRegistries_spec hs w.registries
  refine ⟨t, f, g, ?_, hap, hf⟩
  show (Run.copyRegistries w.registries >>= _).outcome s = _
  rw [Run.outcome_bind_ok _ ht]
  rfl

theorem Expression.copy_spec {s : Store α} (hs : s.Sound) (e : Expression α) :
    ∃ t g, e.copy.outcome s = (.ok { e with pars := e.pars.rename g }, t) ∧ s.Apart t ∧
      s.CopiedCells t e.pars.cells g := by
  obtain ⟨g, t, ht, hap, hg, -⟩ := Run.copyCells_spec hs e.pars.cells
  refine ⟨t, g, ?_, hap, hg⟩
  show (Run.copyCells e.pars.cells >>= _).outcome s = _
  rw [Run.outcome_bind_ok _ ht]
  rfl

end DensityAlgebra
