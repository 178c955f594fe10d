/-
# Valid objects

What holds of every object at all times. A density is linked, has states of its
own, and the variables of a decay density are those of its roles. The models of a
composite share no registries and no states with each other, and each of their
registries is under the one of the composite: there is one cell per name. Objects
refer only to what the store has.

Validity speaks of registries and of the size of the store, not of values, so it
outlives every action that only adds to the store or changes values. A copy of a
valid object is valid.

Key definitions: `Model.Valid`, `Composite.Valid`, `Amplitude.Valid`,
`Weight.Valid`, `Operand.Valid`, `Object.Valid`.
Key theorems: `Model.Valid.copies`, `Composite.Valid.copied`, `Object.Valid.grows`.
-/
import DensityAlgebra.Object
import DensityAlgebra.Proofs.Copies

namespace DensityAlgebra

variable {α : Type}

/-! ### Valid densities -/

namespace Model

/-- The names that the density asks for are there: the variables of a decay density are
those of its roles, and the topmost node of its amplitude has the names of all nodes. -/
def Covered (s : Store α) : Model α → Prop
  | gaussian h x mu sigma => x ∈ (s.registry h.vars).names ∧
      mu ∈ (s.registry h.pars).names ∧ sigma ∈ (s.registry h.pars).names
  | uniform h x _ _ => x ∈ (s.registry h.vars).names
  | decay d => (s.registry d.head.vars).names = d.roles ∧
      ∀ r ∈ d.amplitude.registries, (s.registry r).names ⊆ (s.registry d.amplitude.pars).names
  | formula .. => True

/-- A linked density whose states exist and whose names are there. -/
structure Valid (s : Store α) (m : Model α) : Prop where
  linked : m.Linked s
  states : ∀ d ∈ m.states, d.index < s.states.size
  covered : m.Covered s

theorem amplitude_subset (d : Decay α) : d.amplitude.registries ⊆ (decay d).registries :=
  fun _ h => (decay d).parRegistries_subset
    ((decay d).partPars_subset (List.mem_append_left _ h))

theorem Covered.of_names {s t : Store α} {m : Model α} (h : m.Covered s)
    (hn : ∀ r ∈ m.registries, (t.registry r).names = (s.registry r).names) : m.Covered t := by
  have hv := hn _ (m.varRegistries_subset m.head_vars_mem)
  have hp := hn _ (m.parRegistries_subset m.head_pars_mem)
  cases m with
  | decay d =>
    refine ⟨hv.trans h.1, fun r hr => ?_⟩
    rw [hn r (amplitude_subset d hr), hn _ (amplitude_subset d d.amplitude.pars_mem)]
    exact h.2 r hr
  | gaussian head x mu sigma => exact ⟨hv ▸ h.1, hp ▸ h.2.1, hp ▸ h.2.2⟩
  | uniform head x lo hi =>
    show x ∈ (t.registry head.vars).names
    exact hv ▸ h
  | formula => trivial

/-- The variables of a decay density are its roles. -/
theorem Valid.names_eq_roles {s : Store α} {d : Decay α} (h : (decay d).Valid s) :
    (s.registry d.head.vars).names = d.roles :=
  h.covered.1

/-- The variables of its weight functions are among its roles. -/
theorem Valid.weight_names_subset {s : Store α} {d : Decay α} (h : (decay d).Valid s)
    {w : Weight α} (hw : w ∈ d.weights) : (s.registry w.vars).names ⊆ d.roles := by
  have hmem : w.vars ∈ (decay d).varRegistries :=
    (decay d).partVars_subset (List.mem_map_of_mem hw)
  exact h.names_eq_roles ▸ (h.linked.vars _ hmem).names_subset

theorem Valid.of_registries {s t : Store α} {m : Model α} (h : m.Valid s)
    (hr : s.registries.size ≤ t.registries.size) (hs : s.states.size ≤ t.states.size)
    (heq : ∀ r ∈ m.registries, t.registry r = s.registry r) : m.Valid t where
  linked := h.linked.of_registries hr heq
  states d hd := (h.states d hd).trans_le hs
  covered := h.covered.of_names fun r hr => by rw [heq r hr]

theorem Valid.grows [Scalar α] {s t : Store α} {m : Model α} (h : m.Valid s)
    (hst : s.Grows t) : m.Valid t :=
  h.of_registries hst.moreRegistries hst.moreStates fun r hr =>
    hst.registries r (h.linked.bounded r hr)

theorem IsCopy.covered {f : RegistryId → RegistryId} {s t : Store α} {m m' : Model α}
    (h : IsCopy f m m') (hm : m.Covered s)
    (hn : ∀ r ∈ m.registries, (t.registry (f r)).names = (s.registry r).names) :
    m'.Covered t := by
  have hv := hn _ (m.varRegistries_subset m.head_vars_mem)
  have hp := hn _ (m.parRegistries_subset m.head_pars_mem)
  cases m with
  | decay d =>
    obtain ⟨_, _, rfl⟩ := h
    refine ⟨hv.trans hm.1, fun r hr => ?_⟩
    have hr' : r ∈ (d.amplitude.rename f).registries := hr
    rw [Amplitude.registries_rename] at hr'
    obtain ⟨q, hq, rfl⟩ := List.mem_map.mp hr'
    show _ ⊆ (t.registry (d.amplitude.rename f).pars).names
    rw [Amplitude.pars_rename, hn q (amplitude_subset d hq),
      hn _ (amplitude_subset d d.amplitude.pars_mem)]
    exact hm.2 q hq
  | gaussian head x mu sigma =>
    subst h
    exact ⟨hv ▸ hm.1, hp ▸ hm.2.1, hp ▸ hm.2.2⟩
  | uniform head x lo hi =>
    subst h
    show x ∈ (t.registry (f head.vars)).names
    exact hv ▸ hm
  | formula =>
    obtain ⟨_, rfl⟩ := h
    trivial

/-- Copies of valid densities are valid. -/
theorem Valid.copies [Scalar α] {f : RegistryId → RegistryId} {g : CellId → CellId} {s t : Store α}
    {ms ms' : List (Model α)} (h : ∀ m ∈ ms, m.Valid s) {rs : List RegistryId}
    (hrs : ∀ m ∈ ms, m.registries ⊆ rs) (hf : s.Copied t rs f g) (hms : Copies f s t ms ms') :
    ∀ m' ∈ ms', m'.Valid t := by
  intro m' hm'
  obtain ⟨m, hm, hc⟩ := hms.mem hm'
  have hfm := hf.mono (hrs m hm)
  refine ⟨(h m hm).linked.copied hfm hc, fun d hd => ?_, hc.covered (h m hm).covered ?_⟩
  · exact (hms.fresh d (List.mem_flatMap.mpr ⟨m', hm', hd⟩)).2
  · exact fun r hr => hfm.names hr

/-- Copies of densities that share no registries share none. -/
theorem Copies.pairwise [Scalar α] {f : RegistryId → RegistryId} {g : CellId → CellId}
    {s t u v : Store α} {rs : List RegistryId} (hf : u.Copied v rs f g) : ∀ {ms ms' : List (Model α)},
    Copies f s t ms ms' → (∀ m ∈ ms, m.registries ⊆ rs) →
    ms.Pairwise (fun a b => a.registries.Disjoint b.registries) →
    ms'.Pairwise (fun a b => a.registries.Disjoint b.registries) := by
  intro ms ms' hms hrs hd
  have hshapes := hms.shapes
  clear hms
  induction hshapes with
  | nil => exact List.Pairwise.nil
  | @cons m m' ms ms' hc hcs ih =>
    rw [List.pairwise_cons] at hd ⊢
    rw [List.forall_mem_cons] at hrs
    refine ⟨fun n' hn' r hr hr' => ?_, ih hrs.2 hd.2⟩
    obtain ⟨n, hn, hcn⟩ : ∃ n ∈ ms, IsCopy f n n' := by
      clear ih hrs hd hc
      induction hcs with
      | nil => simp at hn'
      | cons h _ ih =>
        rcases List.mem_cons.mp hn' with rfl | hn'
        · exact ⟨_, List.mem_cons_self, h⟩
        · obtain ⟨n, hn, hcn⟩ := ih hn'
          exact ⟨n, List.mem_cons_of_mem _ hn, hcn⟩
    obtain ⟨q, hq, rfl⟩ := hc.mem_registries.mp hr
    obtain ⟨q', hq', heq⟩ := hcn.mem_registries.mp hr'
    have := hf.injective q' (hrs.2 n hn hq') q (hrs.1 hq) heq
    exact hd.1 n hn hq (this ▸ hq')

end Model

namespace Composite

/-- A composite over valid models, with one cell per name. -/
structure Valid (s : Store α) (p : Composite α) : Prop where
  bounded : p.vars.index < s.registries.size ∧ p.pars.index < s.registries.size
  kinds : p.vars ≠ p.pars
  models : ∀ m ∈ p.models, m.Valid s
  outside : ∀ m ∈ p.models, p.vars ∉ m.registries ∧ p.pars ∉ m.registries
  separate : p.models.Pairwise fun a b => a.registries.Disjoint b.registries
  distinct : (p.models.flatMap (·.states)).Nodup
  vars : ∀ m ∈ p.models, ∀ r ∈ m.varRegistries, (s.registry r).Under (s.registry p.vars)
  pars : ∀ m ∈ p.models, ∀ r ∈ m.parRegistries, (s.registry r).Under (s.registry p.pars)

theorem mem_registries {p : Composite α} {r : RegistryId} :
    r ∈ p.registries ↔ r = p.vars ∨ r = p.pars ∨ ∃ m ∈ p.models, r ∈ m.registries := by
  simp [registries]

theorem models_subset {p : Composite α} {m : Model α} (hm : m ∈ p.models) :
    m.registries ⊆ p.registries := fun _ hr => mem_registries.mpr (.inr (.inr ⟨m, hm, hr⟩))

theorem vars_mem (p : Composite α) : p.vars ∈ p.registries := mem_registries.mpr (.inl rfl)

theorem pars_mem (p : Composite α) : p.pars ∈ p.registries := mem_registries.mpr (.inr (.inl rfl))

theorem Valid.bounded_registries {s : Store α} {p : Composite α} (h : p.Valid s) :
    ∀ r ∈ p.registries, r.index < s.registries.size := by
  intro r hr
  rcases mem_registries.mp hr with rfl | rfl | ⟨m, hm, hr⟩
  · exact h.bounded.1
  · exact h.bounded.2
  · exact (h.models m hm).linked.bounded r hr

theorem Valid.bounded_states {s : Store α} {p : Composite α} (h : p.Valid s) :
    ∀ m ∈ p.models, ∀ d ∈ m.states, d.index < s.states.size := fun m hm => (h.models m hm).states

/-- The registries of the composite may grow while those of its models stay. -/
theorem Valid.widen {s t : Store α} {p : Composite α} (h : p.Valid s)
    (hr : s.registries.size ≤ t.registries.size) (hs : s.states.size ≤ t.states.size)
    (hm : ∀ m ∈ p.models, ∀ r ∈ m.registries, t.registry r = s.registry r)
    (hv : (s.registry p.vars).Under (t.registry p.vars))
    (hp : (s.registry p.pars).Under (t.registry p.pars)) : p.Valid t where
  bounded := ⟨h.bounded.1.trans_le hr, h.bounded.2.trans_le hr⟩
  kinds := h.kinds
  models m hmem := (h.models m hmem).of_registries hr hs (hm m hmem)
  outside := h.outside
  separate := h.separate
  distinct := h.distinct
  vars m hmem r hrm := by
    rw [hm m hmem r (m.varRegistries_subset hrm)]
    exact (h.vars m hmem r hrm).trans hv
  pars m hmem r hrm := by
    rw [hm m hmem r (m.parRegistries_subset hrm)]
    exact (h.pars m hmem r hrm).trans hp

theorem Valid.grows [Scalar α] {s t : Store α} {p : Composite α} (h : p.Valid s) (hst : s.Grows t) :
    p.Valid t := by
  have heq : ∀ r ∈ p.registries, t.registry r = s.registry r := fun r hr =>
    hst.registries r (h.bounded_registries r hr)
  refine h.widen hst.moreRegistries hst.moreStates (fun m hm r hr => heq r (models_subset hm hr))
    ?_ ?_
  · rw [heq _ p.vars_mem]
    exact Registry.Under.refl _
  · rw [heq _ p.pars_mem]
    exact Registry.Under.refl _

/-- **A copy of a valid composite is valid.** -/
theorem Valid.copied [Scalar α] {f : RegistryId → RegistryId} {g : CellId → CellId} {s t : Store α}
    {p q : Composite α} (h : p.Valid s) (hf : s.Copied t p.registries f g)
    (hq : p.CopyOf f s t q) : q.Valid t where
  bounded := by
    rw [hq.vars, hq.pars]
    exact ⟨(hf.fresh _ p.vars_mem).2, (hf.fresh _ p.pars_mem).2⟩
  kinds := by
    rw [hq.vars, hq.pars]
    exact fun he => h.kinds (hf.injective _ p.vars_mem _ p.pars_mem he)
  models := Model.Valid.copies h.models (fun _ hm => models_subset hm) hf hq.models
  outside m' hm' := by
    obtain ⟨m, hm, hc⟩ := hq.models.mem hm'
    rw [hq.vars, hq.pars]
    constructor
    · intro hmem
      obtain ⟨r, hr, heq⟩ := hc.mem_registries.mp hmem
      have := hf.injective r (models_subset hm hr) _ p.vars_mem heq
      exact (h.outside m hm).1 (this ▸ hr)
    · intro hmem
      obtain ⟨r, hr, heq⟩ := hc.mem_registries.mp hmem
      have := hf.injective r (models_subset hm hr) _ p.pars_mem heq
      exact (h.outside m hm).2 (this ▸ hr)
  separate := hq.models.pairwise hf (fun _ hm => models_subset hm) h.separate
  distinct := hq.models.distinct
  vars m' hm' r hr := by
    obtain ⟨m, hm, hc⟩ := hq.models.mem hm'
    rw [hc.varRegistries] at hr
    obtain ⟨o, ho, rfl⟩ := List.mem_map.mp hr
    rw [hq.vars]
    exact hf.under (models_subset hm (m.varRegistries_subset ho)) p.vars_mem (h.vars m hm o ho)
  pars m' hm' r hr := by
    obtain ⟨m, hm, hc⟩ := hq.models.mem hm'
    rw [hc.parRegistries] at hr
    obtain ⟨o, ho, rfl⟩ := List.mem_map.mp hr
    rw [hq.pars]
    exact hf.under (models_subset hm (m.parRegistries_subset ho)) p.pars_mem (h.pars m hm o ho)

end Composite

/-! ### Valid parts and operands -/

/-- The topmost node of the amplitude holds the cells of all nodes. -/
structure Amplitude.Valid (s : Store α) (a : Amplitude α) : Prop where
  bounded : ∀ r ∈ a.registries, r.index < s.registries.size
  under : ∀ r ∈ a.registries, (s.registry r).Under (s.registry a.pars)

theorem Amplitude.Valid.grows [Scalar α] {s t : Store α} {a : Amplitude α} (h : a.Valid s)
    (hst : s.Grows t) : a.Valid t where
  bounded r hr := (h.bounded r hr).trans_le hst.moreRegistries
  under r hr := by
    rw [hst.registries r (h.bounded r hr), hst.registries _ (h.bounded _ a.pars_mem)]
    exact h.under r hr

theorem Amplitude.Valid.copied [Scalar α] {f : RegistryId → RegistryId} {g : CellId → CellId}
    {s t : Store α} {a : Amplitude α} (h : a.Valid s) (hf : s.Copied t a.registries f g) :
    (a.rename f).Valid t where
  bounded r hr := by
    rw [Amplitude.registries_rename] at hr
    obtain ⟨q, hq, rfl⟩ := List.mem_map.mp hr
    exact (hf.fresh q hq).2
  under r hr := by
    rw [Amplitude.registries_rename] at hr
    obtain ⟨q, hq, rfl⟩ := List.mem_map.mp hr
    rw [Amplitude.pars_rename]
    exact hf.under hq a.pars_mem (h.under q hq)

/-- The function has a registry of variables and another one of parameters. -/
structure Weight.Valid (s : Store α) (w : Weight α) : Prop where
  bounded : ∀ r ∈ w.registries, r.index < s.registries.size
  kinds : w.vars ≠ w.pars

theorem Weight.Valid.grows [Scalar α] {s t : Store α} {w : Weight α} (h : w.Valid s)
    (hst : s.Grows t) : w.Valid t :=
  ⟨fun r hr => (h.bounded r hr).trans_le hst.moreRegistries, h.kinds⟩

theorem Weight.vars_mem (w : Weight α) : w.vars ∈ w.registries := List.mem_cons_self

theorem Weight.pars_mem (w : Weight α) : w.pars ∈ w.registries :=
  List.mem_cons_of_mem _ List.mem_cons_self

theorem Weight.Valid.copied [Scalar α] {f : RegistryId → RegistryId} {g : CellId → CellId}
    {s t : Store α} {w : Weight α} (h : w.Valid s) (hf : s.Copied t w.registries f g) :
    (w.rename f).Valid t where
  bounded r hr := by
    have hr' : r = f w.vars ∨ r = f w.pars := by simpa [Weight.registries, Weight.rename] using hr
    rcases hr' with rfl | rfl
    · exact (hf.fresh _ w.vars_mem).2
    · exact (hf.fresh _ w.pars_mem).2
  kinds he := h.kinds (hf.injective _ w.vars_mem _ w.pars_mem he)

/-- What a density is valid as. -/
def Density.Valid (s : Store α) : Density α → Prop
  | .model m => m.Valid s
  | .composite p => p.Valid s

/-- The operand refers only to what the store has. -/
def Operand.Valid [Scalar α] (s : Store α) : Operand α → Prop
  | .parameter c => c.index < s.cells.size
  | .expression e => s.Holds e.pars
  | .model m => m.Valid s
  | .composite p => p.Valid s
  | .weight w => w.Valid s
  | .plain _ | .operation _ | .other _ => True

/-- The object refers only to what the store has. Registries as such are not counted
among the objects, since anything can be entered into them. -/
def Object.Valid [Scalar α] (s : Store α) : Object α → Prop
  | .cell c => c.index < s.cells.size
  | .registry _ => False
  | .expression _ e => s.Holds e.pars
  | .density d => d.Valid s
  | .weight w => w.Valid s
  | .amplitude a => a.Valid s
  | .space .. | .result .. | .sample .. | .source _ | .curve .. | .plain .. => True

theorem Density.Valid.grows [Scalar α] {s t : Store α} {d : Density α} (h : d.Valid s)
    (hst : s.Grows t) : d.Valid t := by
  cases d with
  | model m => exact Model.Valid.grows h hst
  | composite p => exact Composite.Valid.grows h hst

theorem Operand.Valid.grows [Scalar α] {s t : Store α} {x : Operand α} (h : x.Valid s)
    (hst : s.Grows t) : x.Valid t := by
  cases x with
  | parameter c => exact h.trans_le hst.moreCells
  | expression e => exact hst.holds h
  | model m => exact Model.Valid.grows h hst
  | composite p => exact Composite.Valid.grows h hst
  | weight w => exact Weight.Valid.grows h hst
  | _ => trivial

/-- **Objects stay valid in a growing store.** -/
theorem Object.Valid.grows [Scalar α] {s t : Store α} {o : Object α} (h : o.Valid s)
    (hst : s.Grows t) : o.Valid t := by
  cases o with
  | cell c => exact h.trans_le hst.moreCells
  | registry r => exact h
  | expression k e => exact hst.holds h
  | density d => exact Density.Valid.grows h hst
  | weight w => exact Weight.Valid.grows h hst
  | amplitude a => exact Amplitude.Valid.grows h hst
  | _ => trivial

/-- An object beside an operator is valid as an operand. -/
theorem Object.Valid.operand [Scalar α] {s : Store α} {o : Object α} (h : o.Valid s) :
    (o.operand s).Valid s := by
  cases o with
  | cell c =>
    simp only [Object.operand]
    cases (s.cell c).kind with
    | «variable» => trivial
    | parameter => exact h
  | density d =>
    cases d with
    | model m => exact h
    | composite p => exact h
  | expression k e => exact h
  | weight w => exact h
  | _ => trivial

end DensityAlgebra
