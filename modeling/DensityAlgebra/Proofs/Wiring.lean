/-
# Pointing a density to shared cells

Binding an amplitude, a weight function or a density comes down to a list of
links, each of which points one registry to another one. Links change no cell;
they change the registries they name and no others.

A density is linked if its head holds the cells of all its parts: the nodes of
its amplitude and the variables and parameters of its weight functions. Binding a
linked density to two other registries puts all its registries under these, and
leaves it linked; a name keeps the cell that it had unless the other registry has
one of its own.

Key definitions: `Store.link`, `Store.linkAll`, `Model.varRegistries`,
`Model.parRegistries`, `Model.Linked`, `Model.links`, `Composite.links`.
Key theorems: `Store.find?_linkAll`, `Model.outcome_bind`,
`Composite.outcome_bindModels`, `Model.Linked.bound`, `Composite.bound_links`.
-/
import DensityAlgebra.Composite
import DensityAlgebra.Proofs.Frames

namespace DensityAlgebra

/-! ### One link -/

namespace Store

variable {α : Type}

/-- The store after one registry was pointed to another. -/
def link (s : Store α) (own shared : RegistryId) : Store α :=
  let p := (s.registry own).rebind (s.registry shared)
  (s.putRegistry shared p.2).putRegistry own p.1

/-- The store after links in order. -/
def linkAll : List (RegistryId × RegistryId) → Store α → Store α
  | [], s => s
  | (own, shared) :: rest, s => linkAll rest (s.link own shared)

theorem linkAll_append : ∀ (l l' : List (RegistryId × RegistryId)) (s : Store α),
    linkAll (l ++ l') s = linkAll l' (linkAll l s)
  | [], _, _ => rfl
  | (own, shared) :: rest, l', s => linkAll_append rest l' (s.link own shared)

theorem registry_link_ne (s : Store α) {own shared r : RegistryId} (ho : r ≠ own)
    (hs : r ≠ shared) : (s.link own shared).registry r = s.registry r := by
  unfold link
  rw [registry_putRegistry, if_neg fun h => ho h.1, registry_putRegistry, if_neg fun h => hs h.1]

theorem size_putRegistry (s : Store α) (r : RegistryId) (x : Registry) :
    (s.putRegistry r x).registries.size = s.registries.size := Array.size_setIfInBounds

theorem registry_link_own (s : Store α) (own shared : RegistryId) :
    (s.link own shared).registry own = ((s.registry own).rebind (s.registry shared)).1 := by
  unfold link
  rw [registry_putRegistry, size_putRegistry]
  by_cases h : own.index < s.registries.size
  · rw [if_pos ⟨rfl, h⟩]
  · -- a registry that was never handed out is empty, and has nothing to be pointed elsewhere
    have hs : ∀ x : Registry, (s.putRegistry shared x).registry own = .empty := fun x =>
      registry_eq_empty (by rw [size_putRegistry]; omega)
    rw [if_neg fun hn => h hn.2, hs, registry_eq_empty (Nat.le_of_not_lt h)]
    rfl

theorem registry_link_shared {s : Store α} {own shared : RegistryId} (hne : own ≠ shared)
    (h : shared.index < s.registries.size) :
    (s.link own shared).registry shared = ((s.registry own).rebind (s.registry shared)).2 := by
  unfold link
  rw [registry_putRegistry, if_neg fun hn => hne hn.1.symm, registry_putRegistry,
    if_pos ⟨rfl, h⟩]

/-- A registry that has all the names of one that is pointed to it does not change. -/
theorem registry_link_shared_eq {s : Store α} {own shared : RegistryId} (hne : own ≠ shared)
    (h : (s.registry own).names ⊆ (s.registry shared).names) :
    (s.link own shared).registry shared = s.registry shared := by
  unfold link
  rw [registry_putRegistry, if_neg fun hn => hne hn.1.symm, registry_putRegistry,
    Registry.rebind_shared_eq h]
  split_ifs <;> rfl

theorem names_link_own (s : Store α) (own shared : RegistryId) :
    ((s.link own shared).registry own).names = (s.registry own).names := by
  rw [registry_link_own, Registry.names_rebind]

theorem size_link (s : Store α) (own shared : RegistryId) :
    (s.link own shared).registries.size = s.registries.size := by
  unfold link
  rw [size_putRegistry, size_putRegistry]

theorem cells_link (s : Store α) (own shared : RegistryId) :
    (s.link own shared).cells = s.cells := rfl

theorem states_link (s : Store α) (own shared : RegistryId) :
    (s.link own shared).states = s.states := rfl

theorem cells_linkAll : ∀ (l : List (RegistryId × RegistryId)) (s : Store α),
    (linkAll l s).cells = s.cells
  | [], _ => rfl
  | (own, shared) :: rest, s => cells_linkAll rest (s.link own shared)

theorem states_linkAll : ∀ (l : List (RegistryId × RegistryId)) (s : Store α),
    (linkAll l s).states = s.states
  | [], _ => rfl
  | (own, shared) :: rest, s => states_linkAll rest (s.link own shared)

theorem size_linkAll : ∀ (l : List (RegistryId × RegistryId)) (s : Store α),
    (linkAll l s).registries.size = s.registries.size
  | [], _ => rfl
  | (own, shared) :: rest, s => by
    show (linkAll rest (s.link own shared)).registries.size = _
    rw [size_linkAll rest, size_link]

/-- A registry of variables and one of parameters are pointed to two others. -/
structure Pointed (s t : Store α) (ownVars ownPars vars pars : RegistryId) : Prop where
  fromVars : t.registry ownVars = ((s.registry ownVars).rebind (s.registry vars)).1
  fromPars : t.registry ownPars = ((s.registry ownPars).rebind (s.registry pars)).1
  toVars : t.registry vars = ((s.registry ownVars).rebind (s.registry vars)).2
  toPars : t.registry pars = ((s.registry ownPars).rebind (s.registry pars)).2
  others : ∀ r, r ≠ ownVars → r ≠ ownPars → r ≠ vars → r ≠ pars → t.registry r = s.registry r

theorem pointed_links {s : Store α} {ownVars ownPars vars pars : RegistryId}
    (hown : ownVars ≠ ownPars) (hv : ownVars ≠ vars ∧ ownVars ≠ pars)
    (hp : ownPars ≠ vars ∧ ownPars ≠ pars) (hne : vars ≠ pars)
    (hbv : vars.index < s.registries.size) (hbp : pars.index < s.registries.size) :
    s.Pointed ((s.link ownVars vars).link ownPars pars) ownVars ownPars vars pars where
  fromVars := by rw [registry_link_ne _ hown hv.2, registry_link_own]
  fromPars := by
    rw [registry_link_own, registry_link_ne _ hown.symm hp.1,
      registry_link_ne _ hv.2.symm hne.symm]
  toVars := by rw [registry_link_ne _ hp.1.symm hne, registry_link_shared hv.1 hbv]
  toPars := by
    have hbp' : pars.index < (s.link ownVars vars).registries.size := by
      rw [size_link]
      exact hbp
    rw [registry_link_shared hp.2 hbp', registry_link_ne _ hown.symm hp.1,
      registry_link_ne _ hv.2.symm hne.symm]
  others r h1 h2 h3 h4 := by rw [registry_link_ne _ h2 h4, registry_link_ne _ h1 h3]

/-! ### A plan of links -/

/-- Every registry is pointed to at most one other, nothing is pointed to a registry
that is itself pointed elsewhere, and no names are added. -/
structure Plan (s : Store α) (l : List (RegistryId × RegistryId)) : Prop where
  single : ∀ e ∈ l, ∀ e' ∈ l, e.1 = e'.1 → e.2 = e'.2
  level : ∀ e ∈ l, ∀ e' ∈ l, e.1 ≠ e'.2
  named : ∀ e ∈ l, (s.registry e.1).names ⊆ (s.registry e.2).names

section

variable {s : Store α} {own shared : RegistryId} {l : List (RegistryId × RegistryId)}

/-- The first link of a plan changes no registry but the one that it points. -/
theorem Plan.registry_link (h : Plan s ((own, shared) :: l)) {r : RegistryId} (hr : r ≠ own) :
    (s.link own shared).registry r = s.registry r := by
  by_cases hs : r = shared
  · rw [hs]
    exact registry_link_shared_eq (h.level _ List.mem_cons_self _ List.mem_cons_self)
      (h.named _ List.mem_cons_self)
  · exact registry_link_ne s hr hs

theorem Plan.names_link (h : Plan s ((own, shared) :: l)) (r : RegistryId) :
    ((s.link own shared).registry r).names = (s.registry r).names := by
  by_cases hr : r = own
  · rw [hr, names_link_own]
  · rw [h.registry_link hr]

/-- The registry that the first link points holds the cells of the other one. -/
theorem Plan.find?_link (h : Plan s ((own, shared) :: l)) (n : String) :
    ((s.link own shared).registry own).find? n =
      ((s.registry own).find? n).bind fun _ => (s.registry shared).find? n := by
  rw [registry_link_own, Registry.find?_rebind,
    Registry.rebind_shared_eq (h.named _ List.mem_cons_self)]

theorem Plan.ne_of_mem (h : Plan s ((own, shared) :: l)) {e : RegistryId × RegistryId}
    (he : e ∈ l) : e.2 ≠ own :=
  (h.level _ List.mem_cons_self e (List.mem_cons_of_mem _ he)).symm

theorem Plan.tail (h : Plan s ((own, shared) :: l)) : Plan (s.link own shared) l where
  single e he e' he' := h.single e (List.mem_cons_of_mem _ he) e' (List.mem_cons_of_mem _ he')
  level e he e' he' := h.level e (List.mem_cons_of_mem _ he) e' (List.mem_cons_of_mem _ he')
  named e he := by
    rw [h.names_link, h.names_link]
    exact h.named e (List.mem_cons_of_mem _ he)

end

/-- A registry that is pointed nowhere stays as it is. -/
theorem registry_linkAll_of_plan : ∀ {l : List (RegistryId × RegistryId)} {s : Store α}
    {r : RegistryId}, Plan s l → (∀ e ∈ l, r ≠ e.1) → (linkAll l s).registry r = s.registry r
  | [], _, _, _, _ => rfl
  | (own, shared) :: rest, s, r, h, hr => by
    rw [List.forall_mem_cons] at hr
    calc (linkAll rest (s.link own shared)).registry r
        = (s.link own shared).registry r := registry_linkAll_of_plan h.tail hr.2
      _ = s.registry r := h.registry_link hr.1

/-- A plan leaves all registries the names that they have. -/
theorem names_linkAll : ∀ {l : List (RegistryId × RegistryId)} {s : Store α}, Plan s l →
    ∀ r, ((linkAll l s).registry r).names = (s.registry r).names
  | [], _, _, _ => rfl
  | (own, shared) :: rest, s, h, r => by
    calc ((linkAll rest (s.link own shared)).registry r).names
        = ((s.link own shared).registry r).names := names_linkAll h.tail r
      _ = (s.registry r).names := h.names_link r

/-- **A plan comes out as planned.** A registry that is pointed to another one holds the
cells of that one under the names that it had. -/
theorem find?_linkAll : ∀ {l : List (RegistryId × RegistryId)} {s : Store α}, Plan s l →
    ∀ e ∈ l, ∀ n, ((linkAll l s).registry e.1).find? n =
      ((s.registry e.1).find? n).bind fun _ => (s.registry e.2).find? n
  | [], _, _, _, he, _ => by simp at he
  | (own, shared) :: rest, s, h, e, he, n => by
    show ((linkAll rest (s.link own shared)).registry e.1).find? n = _
    by_cases hmem : ∃ e' ∈ rest, e'.1 = e.1
    · -- the registry is pointed again, to the same one
      obtain ⟨e', he', heq⟩ := hmem
      have htarget : e'.2 = e.2 := h.single e' (List.mem_cons_of_mem _ he') e he heq
      have hkept : (s.link own shared).registry e.2 = s.registry e.2 :=
        h.registry_link (htarget ▸ h.ne_of_mem he')
      rw [← heq, find?_linkAll h.tail e' he', htarget, hkept]
      by_cases ho : e'.1 = own
      · have hsame : e.2 = shared :=
          h.single e he _ List.mem_cons_self (heq.symm.trans ho)
        rw [ho, h.find?_link, hsame]
        cases (s.registry own).find? n with
        | none => rfl
        | some c => cases (s.registry shared).find? n <;> simp
      · rw [h.registry_link ho]
    · rcases List.mem_cons.mp he with rfl | he
      · have hlater : (linkAll rest (s.link own shared)).registry own =
            (s.link own shared).registry own :=
          registry_linkAll_of_plan h.tail fun e' he' ho => hmem ⟨e', he', ho.symm⟩
        rw [hlater]
        exact h.find?_link n
      · exact absurd ⟨e, he, rfl⟩ hmem

/-! ### Links beside what is there -/

variable [Scalar α]

theorem Sound.holds_link {s : Store α} (h : s.Sound) (own shared : RegistryId) :
    s.Holds ((s.registry own).rebind (s.registry shared)).1 ∧
      s.Holds ((s.registry own).rebind (s.registry shared)).2 := by
  constructor
  · refine Holds.of_entries (h own) (h shared) ?_ fun e he => Registry.mem_rebind (.inl he)
    rw [Registry.names_rebind]
    exact (h own).distinct
  · exact Holds.of_entries (h own) (h shared) (Registry.nodup_rebind_shared _ (h shared).distinct)
      fun e he => Registry.mem_rebind (.inr he)

/-- Linking new registries keeps them apart from what is old. -/
theorem Apart.link {b s : Store α} {own shared : RegistryId} (h : Apart b s)
    (ho : b.registries.size ≤ own.index) (hs : b.registries.size ≤ shared.index) :
    Apart b (s.link own shared) := by
  have hold : ∀ e : String × CellId,
      e ∈ (s.registry own).entries ∨ e ∈ (s.registry shared).entries → b.cells.size ≤ e.2.index := by
    rintro e (he | he)
    · exact h.detached own ho e he
    · exact h.detached shared hs e he
  have hl := h.sound.holds_link own shared
  have h1 := h.putRegistry hs hl.2 fun e he => hold e (Registry.mem_rebind (.inr he))
  exact h1.putRegistry ho ⟨hl.1.distinct, hl.1.bounded, hl.1.named⟩
    fun e he => hold e (Registry.mem_rebind (.inl he))

theorem Apart.linkAll : ∀ {l : List (RegistryId × RegistryId)} {b s : Store α}, Apart b s →
    (∀ e ∈ l, b.registries.size ≤ e.1.index ∧ b.registries.size ≤ e.2.index) →
    Apart b (linkAll l s)
  | [], _, _, h, _ => h
  | (own, shared) :: rest, b, s, h, hl => by
    rw [List.forall_mem_cons] at hl
    show Apart b (Store.linkAll rest (s.link own shared))
    exact Apart.linkAll (h.link hl.1.1 hl.1.2) hl.2

end Store

/-! ### Binding as links -/

variable {α : Type}

theorem Run.outcome_rebind (own shared : RegistryId) (s : Store α) :
    (Run.rebind own shared).outcome s = (.ok (), s.link own shared) := rfl

theorem Run.outcome_rebind_rebind (own shared own' shared' : RegistryId) (s : Store α) :
    (Run.rebind own shared >>= fun _ => Run.rebind own' shared' : Run α Unit).outcome s =
      (.ok (), (s.link own shared).link own' shared') := by
  rw [outcome_bind_ok _ (outcome_rebind own shared s), outcome_rebind]

mutual

theorem Amplitude.outcome_bind (shared : RegistryId) : ∀ (a : Amplitude α) (s : Store α),
    (a.bind shared).outcome s = (.ok (), s.linkAll (a.registries.map (·, shared)))
  | .flat .., _ => rfl
  | .resonance .., _ => rfl
  | .sum r terms, s => Amplitude.Terms.outcome_bind shared terms (s.link r shared)

theorem Amplitude.Terms.outcome_bind (shared : RegistryId) :
    ∀ (ts : Amplitude.Terms α) (s : Store α),
      (ts.bind shared).outcome s = (.ok (), s.linkAll (ts.registries.map (·, shared)))
  | .nil, _ => rfl
  | .cons _ _ factor rest, s => by
    show (factor.bind shared >>= fun _ => rest.bind shared).outcome s = _
    rw [Run.outcome_bind_ok _ (Amplitude.outcome_bind shared factor s),
      Amplitude.Terms.outcome_bind shared rest, ← Store.linkAll_append, ← List.map_append]
    rfl

end

/-- The links that bind weight functions. -/
def Weight.links (vars pars : RegistryId) (ws : List (Weight α)) : List (RegistryId × RegistryId) :=
  ws.flatMap fun w => [(w.vars, vars), (w.pars, pars)]

theorem Weight.outcome_bind (w : Weight α) (vars pars : RegistryId) (s : Store α) :
    (w.bind vars pars).outcome s = (.ok (), (s.link w.vars vars).link w.pars pars) :=
  Run.outcome_rebind_rebind _ _ _ _ s

theorem Decay.outcome_bindWeights (vars pars : RegistryId) : ∀ (ws : List (Weight α)) (s : Store α),
    (Decay.bindWeights vars pars ws).outcome s = (.ok (), s.linkAll (Weight.links vars pars ws))
  | [], _ => rfl
  | w :: rest, s => by
    show (w.bind vars pars >>= fun _ => Decay.bindWeights vars pars rest).outcome s = _
    rw [Run.outcome_bind_ok _ (w.outcome_bind vars pars s), outcome_bindWeights vars pars rest]
    rfl

namespace Decay

/-- The links that point the parts of a decay density to its head. -/
def partLinks (d : Decay α) : List (RegistryId × RegistryId) :=
  d.amplitude.registries.map (·, d.head.pars) ++ Weight.links d.head.vars d.head.pars d.weights

theorem outcome_shareCells (d : Decay α) (s : Store α) :
    d.shareCells.outcome s = (.ok (), s.linkAll d.partLinks) := by
  show (d.amplitude.bind d.head.pars >>= fun _ => bindWeights _ _ d.weights).outcome s = _
  rw [Run.outcome_bind_ok _ (Amplitude.outcome_bind _ _ _), outcome_bindWeights,
    ← Store.linkAll_append]
  rfl

end Decay

namespace Model

/-- The registries of the variables of the parts of a density. -/
def partVars : Model α → List RegistryId
  | decay d => d.weights.map (·.vars)
  | _ => []

/-- The registries of the parameters of the parts of a density. -/
def partPars : Model α → List RegistryId
  | decay d => d.amplitude.registries ++ d.weights.map (·.pars)
  | _ => []

/-- All registries of variables of a density. -/
def varRegistries (m : Model α) : List RegistryId := m.head.vars :: m.partVars

/-- All registries of parameters of a density. -/
def parRegistries (m : Model α) : List RegistryId := m.head.pars :: m.partPars

/-- The links that point the parts of a density to its head. -/
def partLinks : Model α → List (RegistryId × RegistryId)
  | decay d => d.partLinks
  | _ => []

/-- The links that bind a density. -/
def links (vars pars : RegistryId) (m : Model α) : List (RegistryId × RegistryId) :=
  (m.head.vars, vars) :: (m.head.pars, pars) :: m.partLinks

theorem outcome_bind (m : Model α) (vars pars : RegistryId) (s : Store α) :
    (m.bind vars pars).outcome s = (.ok (), s.linkAll (m.links vars pars)) := by
  have hheads := Run.outcome_rebind_rebind m.head.vars vars m.head.pars pars s
  cases m with
  | decay d =>
    show (Run.rebind d.head.vars vars >>= fun _ => Run.rebind d.head.pars pars >>= fun _ =>
      d.shareCells).outcome s = _
    rw [Run.outcome_bind_ok _ (Run.outcome_rebind _ _ _),
      Run.outcome_bind_ok _ (Run.outcome_rebind _ _ _), d.outcome_shareCells]
    rfl
  | _ => exact hheads

theorem mem_registries {m : Model α} {r : RegistryId} :
    r ∈ m.registries ↔ r ∈ m.varRegistries ∨ r ∈ m.parRegistries := by
  cases m with
  | decay d =>
    simp only [registries, Decay.registries, varRegistries, parRegistries, partVars, partPars,
      Weight.registries, head, List.mem_append, List.mem_cons, List.mem_flatMap, List.mem_map,
      List.not_mem_nil, or_false]
    constructor
    · rintro (((h | h) | h) | ⟨w, hw, h | h⟩)
      · exact .inl (.inl h)
      · exact .inr (.inl h)
      · exact .inr (.inr (.inl h))
      · exact .inl (.inr ⟨w, hw, h.symm⟩)
      · exact .inr (.inr (.inr ⟨w, hw, h.symm⟩))
    · rintro ((h | ⟨w, hw, h⟩) | h | h | ⟨w, hw, h⟩)
      · exact .inl (.inl (.inl h))
      · exact .inr ⟨w, hw, .inl h.symm⟩
      · exact .inl (.inl (.inr h))
      · exact .inl (.inr h)
      · exact .inr ⟨w, hw, .inr h.symm⟩
  | _ => simp [registries, varRegistries, parRegistries, partVars, partPars, head]

theorem mem_partLinks {m : Model α} {e : RegistryId × RegistryId} :
    e ∈ m.partLinks ↔
      e.1 ∈ m.partVars ∧ e.2 = m.head.vars ∨ e.1 ∈ m.partPars ∧ e.2 = m.head.pars := by
  obtain ⟨own, shared⟩ := e
  cases m with
  | decay d =>
    simp only [partLinks, Decay.partLinks, Weight.links, partVars, partPars, head, List.mem_append,
      List.mem_map, List.mem_flatMap, List.mem_cons, Prod.mk.injEq, List.not_mem_nil, or_false]
    constructor
    · rintro (⟨r, hr, rfl, rfl⟩ | ⟨w, hw, ⟨rfl, rfl⟩ | ⟨rfl, rfl⟩⟩)
      · exact .inr ⟨.inl hr, rfl⟩
      · exact .inl ⟨⟨w, hw, rfl⟩, rfl⟩
      · exact .inr ⟨.inr ⟨w, hw, rfl⟩, rfl⟩
    · rintro (⟨⟨w, hw, rfl⟩, rfl⟩ | ⟨hr | ⟨w, hw, rfl⟩, rfl⟩)
      · exact .inr ⟨w, hw, .inl ⟨rfl, rfl⟩⟩
      · exact .inl ⟨own, hr, rfl, rfl⟩
      · exact .inr ⟨w, hw, .inr ⟨rfl, rfl⟩⟩
  | _ => simp [partLinks, partVars, partPars]

/-- The head of the density holds the cells of all its parts, and the registries of
variables are none of parameters. -/
structure Linked (s : Store α) (m : Model α) : Prop where
  bounded : ∀ r ∈ m.registries, r.index < s.registries.size
  kinds : ∀ r ∈ m.varRegistries, r ∉ m.parRegistries
  varHead : m.head.vars ∉ m.partVars
  parHead : m.head.pars ∉ m.partPars
  vars : ∀ r ∈ m.varRegistries, (s.registry r).Under (s.registry m.head.vars)
  pars : ∀ r ∈ m.parRegistries, (s.registry r).Under (s.registry m.head.pars)

theorem head_vars_mem (m : Model α) : m.head.vars ∈ m.varRegistries := List.mem_cons_self

theorem head_pars_mem (m : Model α) : m.head.pars ∈ m.parRegistries := List.mem_cons_self

theorem partVars_subset (m : Model α) : m.partVars ⊆ m.varRegistries := List.subset_cons_self _ _

theorem partPars_subset (m : Model α) : m.partPars ⊆ m.parRegistries := List.subset_cons_self _ _

theorem varRegistries_subset (m : Model α) : m.varRegistries ⊆ m.registries :=
  fun _ h => mem_registries.mpr (.inl h)

theorem parRegistries_subset (m : Model α) : m.parRegistries ⊆ m.registries :=
  fun _ h => mem_registries.mpr (.inr h)

/-- Links within a density are between its registries. -/
theorem partLinks_subset {m : Model α} {e : RegistryId × RegistryId} (he : e ∈ m.partLinks) :
    e.1 ∈ m.registries ∧ e.2 ∈ m.registries := by
  rcases mem_partLinks.mp he with ⟨hpart, hhead⟩ | ⟨hpart, hhead⟩ <;> rw [hhead]
  · exact ⟨m.varRegistries_subset (m.partVars_subset hpart),
      m.varRegistries_subset m.head_vars_mem⟩
  · exact ⟨m.parRegistries_subset (m.partPars_subset hpart),
      m.parRegistries_subset m.head_pars_mem⟩

/-- Links that bind a density are between its registries and those it is bound to. -/
theorem links_subset {m : Model α} {vars pars : RegistryId} {e : RegistryId × RegistryId}
    (he : e ∈ m.links vars pars) :
    e.1 ∈ m.registries ∧ (e.2 ∈ m.registries ∨ e.2 = vars ∨ e.2 = pars) := by
  rcases List.mem_cons.mp he with rfl | he
  · exact ⟨m.varRegistries_subset m.head_vars_mem, .inr (.inl rfl)⟩
  rcases List.mem_cons.mp he with rfl | he
  · exact ⟨m.parRegistries_subset m.head_pars_mem, .inr (.inr rfl)⟩
  · exact ⟨(partLinks_subset he).1, .inl (partLinks_subset he).2⟩

theorem Linked.of_registries {s t : Store α} {m : Model α} (h : m.Linked s)
    (hsize : s.registries.size ≤ t.registries.size)
    (heq : ∀ r ∈ m.registries, t.registry r = s.registry r) : m.Linked t := by
  have hv := m.varRegistries_subset
  have hp := m.parRegistries_subset
  refine ⟨fun r hr => (h.bounded r hr).trans_le hsize, h.kinds, h.varHead, h.parHead,
    fun r hr => ?_, fun r hr => ?_⟩
  · rw [heq r (hv hr), heq _ (hv m.head_vars_mem)]
    exact h.vars r hr
  · rw [heq r (hp hr), heq _ (hp m.head_pars_mem)]
    exact h.pars r hr

theorem Linked.grows [Scalar α] {s t : Store α} {m : Model α} (h : m.Linked s)
    (hst : s.Grows t) : m.Linked t :=
  h.of_registries hst.moreRegistries fun r hr => hst.registries r (h.bounded r hr)

/-- What binding a density to two registries does to the store. -/
structure Bound (s t : Store α) (vars pars : RegistryId) (m : Model α) : Prop where
  sharedVars : ∀ n, (t.registry vars).find? n =
    ((s.registry vars).find? n).or ((s.registry m.head.vars).find? n)
  sharedPars : ∀ n, (t.registry pars).find? n =
    ((s.registry pars).find? n).or ((s.registry m.head.pars).find? n)
  varCells : ∀ r ∈ m.varRegistries, ∀ n, (t.registry r).find? n =
    ((s.registry r).find? n).bind fun _ => (t.registry vars).find? n
  parCells : ∀ r ∈ m.parRegistries, ∀ n, (t.registry r).find? n =
    ((s.registry r).find? n).bind fun _ => (t.registry pars).find? n
  names : ∀ r ∈ m.registries, (t.registry r).names = (s.registry r).names
  others : ∀ r, r ∉ m.registries → r ≠ vars → r ≠ pars → t.registry r = s.registry r

/-- The head of the density has the names of all its parts. -/
structure Arranged (s : Store α) (m : Model α) : Prop where
  bounded : ∀ r ∈ m.registries, r.index < s.registries.size
  kinds : ∀ r ∈ m.varRegistries, r ∉ m.parRegistries
  varHead : m.head.vars ∉ m.partVars
  parHead : m.head.pars ∉ m.partPars
  varNames : ∀ r ∈ m.varRegistries, (s.registry r).names ⊆ (s.registry m.head.vars).names
  parNames : ∀ r ∈ m.parRegistries, (s.registry r).names ⊆ (s.registry m.head.pars).names

theorem Linked.arranged {s t : Store α} {m : Model α} (h : m.Linked s)
    (hsize : s.registries.size ≤ t.registries.size)
    (hn : ∀ r ∈ m.registries, (t.registry r).names = (s.registry r).names) : m.Arranged t := by
  have hv := m.varRegistries_subset
  have hp := m.parRegistries_subset
  refine ⟨fun r hr => (h.bounded r hr).trans_le hsize, h.kinds, h.varHead, h.parHead,
    fun r hr => ?_, fun r hr => ?_⟩
  · rw [hn r (hv hr), hn _ (hv m.head_vars_mem)]
    exact (h.vars r hr).names_subset
  · rw [hn r (hp hr), hn _ (hp m.head_pars_mem)]
    exact (h.pars r hr).names_subset

theorem Arranged.plan {s : Store α} {m : Model α} (h : m.Arranged s) : s.Plan m.partLinks := by
  have hv := m.partVars_subset
  have hp := m.partPars_subset
  refine ⟨fun e he e' he' heq => ?_, fun e he e' he' => ?_, fun e he => ?_⟩
  · rcases mem_partLinks.mp he with ⟨h1, h2⟩ | ⟨h1, h2⟩ <;>
      rcases mem_partLinks.mp he' with ⟨h1', h2'⟩ | ⟨h1', h2'⟩
    · rw [h2, h2']
    · exact absurd (hp (heq ▸ h1')) (h.kinds _ (hv h1))
    · exact absurd (hp (heq ▸ h1)) (h.kinds _ (hv h1'))
    · rw [h2, h2']
  · intro heq
    rcases mem_partLinks.mp he with ⟨h1, -⟩ | ⟨h1, -⟩ <;>
      rcases mem_partLinks.mp he' with ⟨-, h2'⟩ | ⟨-, h2'⟩ <;> rw [heq, h2'] at h1
    · exact h.varHead h1
    · exact h.kinds _ (hv h1) m.head_pars_mem
    · exact h.kinds _ m.head_vars_mem (hp h1)
    · exact h.parHead h1
  · rcases mem_partLinks.mp he with ⟨h1, h2⟩ | ⟨h1, h2⟩
    · rw [h2]
      exact h.varNames _ (hv h1)
    · rw [h2]
      exact h.parNames _ (hp h1)

/-- Pointing the parts to the head leaves the head alone. -/
theorem Arranged.head_stays {s : Store α} {m : Model α} (h : m.Arranged s) {r : RegistryId}
    (hv : r ∉ m.partVars) (hp : r ∉ m.partPars) :
    (s.linkAll m.partLinks).registry r = s.registry r := by
  refine Store.registry_linkAll_of_plan h.plan fun e he heq => ?_
  rcases mem_partLinks.mp he with ⟨h', -⟩ | ⟨h', -⟩
  · exact hv (heq ▸ h')
  · exact hp (heq ▸ h')

/-- Pointing the parts to the head links them to it. -/
theorem Arranged.linked {s : Store α} {m : Model α} (h : m.Arranged s) :
    m.Linked (s.linkAll m.partLinks) := by
  have hvars := h.head_stays h.varHead fun hm =>
    h.kinds _ m.head_vars_mem (m.partPars_subset hm)
  have hpars := h.head_stays (fun hm => h.kinds _ (m.partVars_subset hm) m.head_pars_mem)
    h.parHead
  have hunder : ∀ r hd, (r, hd) ∈ m.partLinks →
      ((s.linkAll m.partLinks).registry r).Under (s.registry hd) := by
    intro r hd he n c hc
    rw [Store.find?_linkAll h.plan (r, hd) he, Option.bind_eq_some_iff] at hc
    obtain ⟨_, -, hc⟩ := hc
    exact hc
  refine ⟨fun r hr => by rw [Store.size_linkAll]; exact h.bounded r hr, h.kinds, h.varHead,
    h.parHead, fun r hr => ?_, fun r hr => ?_⟩
  · rcases List.mem_cons.mp hr with rfl | hr'
    · exact Registry.Under.refl _
    · rw [hvars]
      exact hunder r _ (mem_partLinks.mpr (.inl ⟨hr', rfl⟩))
  · rcases List.mem_cons.mp hr with rfl | hr'
    · exact Registry.Under.refl _
    · rw [hpars]
      exact hunder r _ (mem_partLinks.mpr (.inr ⟨hr', rfl⟩))

/-- A part that is pointed to its head, which is pointed on, holds the last cells. -/
theorem find?_through_head {r hd r' hd' shared : Registry} (h : r.Under hd) (n : String)
    (hr : r'.find? n = (r.find? n).bind fun _ => hd'.find? n)
    (hh : hd'.find? n = (hd.find? n).bind fun _ => shared.find? n) :
    r'.find? n = (r.find? n).bind fun _ => shared.find? n := by
  rw [hr]
  cases hc : r.find? n with
  | none => rfl
  | some c =>
    simp only [Option.bind_some]
    rw [hh, h n c hc]
    rfl

/-- The heads of a density can be pointed to registries that are not its own. -/
theorem Linked.pointed {s : Store α} {m : Model α} {vars pars : RegistryId} (h : m.Linked s)
    (hv : vars ∉ m.registries) (hp : pars ∉ m.registries) (hne : vars ≠ pars)
    (hbv : vars.index < s.registries.size) (hbp : pars.index < s.registries.size) :
    s.Pointed ((s.link m.head.vars vars).link m.head.pars pars) m.head.vars m.head.pars
      vars pars := by
  have hheads : m.head.vars ≠ m.head.pars := fun he =>
    h.kinds _ m.head_vars_mem (he ▸ m.head_pars_mem)
  have hne' : ∀ {r}, r ∈ m.registries → r ≠ vars ∧ r ≠ pars := fun hr =>
    ⟨fun he => hv (he ▸ hr), fun he => hp (he ▸ hr)⟩
  exact Store.pointed_links hheads (hne' (m.varRegistries_subset m.head_vars_mem))
    (hne' (m.parRegistries_subset m.head_pars_mem)) hne hbv hbp

/-- Pointing the heads leaves all registries of the density the names that they have. -/
theorem names_of_pointed {s t : Store α} {m : Model α} {vars pars : RegistryId}
    (h : s.Pointed t m.head.vars m.head.pars vars pars) (hv : vars ∉ m.registries)
    (hp : pars ∉ m.registries) :
    ∀ r ∈ m.registries, (t.registry r).names = (s.registry r).names := by
  intro r hr
  by_cases h1 : r = m.head.vars
  · rw [h1, h.fromVars, Registry.names_rebind]
  by_cases h2 : r = m.head.pars
  · rw [h2, h.fromPars, Registry.names_rebind]
  · rw [h.others r h1 h2 (fun he => hv (he ▸ hr)) fun he => hp (he ▸ hr)]

/-- The heads of a density are pointed to other registries first, and then the parts
to the heads. -/
theorem Linked.bound {s : Store α} {m : Model α} {vars pars : RegistryId} (h : m.Linked s)
    (hv : vars ∉ m.registries) (hp : pars ∉ m.registries) (hne : vars ≠ pars)
    (hbv : vars.index < s.registries.size) (hbp : pars.index < s.registries.size) :
    m.Bound s (s.linkAll (m.links vars pars)) vars pars := by
  have hhead := h.pointed hv hp hne hbv hbp
  have hnames := names_of_pointed hhead hv hp
  set s₁ := (s.link m.head.vars vars).link m.head.pars pars with hs₁
  have harr : m.Arranged s₁ := by
    refine h.arranged ?_ hnames
    rw [hs₁, Store.size_link, Store.size_link]
  set t := Store.linkAll m.partLinks s₁ with ht
  -- what is no part stays as it is when the parts are pointed
  have hstay : ∀ r, r ∉ m.partVars → r ∉ m.partPars → t.registry r = s₁.registry r :=
    fun r => harr.head_stays
  have hout : ∀ r, r ∉ m.registries → t.registry r = s₁.registry r := fun r hr =>
    hstay r (fun hm => hr (m.varRegistries_subset (m.partVars_subset hm)))
      fun hm => hr (m.parRegistries_subset (m.partPars_subset hm))
  have hthv : t.registry m.head.vars = s₁.registry m.head.vars :=
    hstay _ h.varHead fun hm => h.kinds _ m.head_vars_mem (m.partPars_subset hm)
  have hthp : t.registry m.head.pars = s₁.registry m.head.pars :=
    hstay _ (fun hm => h.kinds _ (m.partVars_subset hm) m.head_pars_mem) h.parHead
  have hpart : ∀ r ∈ m.registries, r ≠ m.head.vars → r ≠ m.head.pars →
      s₁.registry r = s.registry r := fun r hr h1 h2 =>
    hhead.others r h1 h2 (fun he => hv (he ▸ hr)) fun he => hp (he ▸ hr)
  have hheadVars : ∀ n, (t.registry m.head.vars).find? n =
      ((s.registry m.head.vars).find? n).bind fun _ => (t.registry vars).find? n := by
    intro n
    rw [hthv, hhead.fromVars, hout vars hv, hhead.toVars, Registry.find?_rebind]
  have hheadPars : ∀ n, (t.registry m.head.pars).find? n =
      ((s.registry m.head.pars).find? n).bind fun _ => (t.registry pars).find? n := by
    intro n
    rw [hthp, hhead.fromPars, hout pars hp, hhead.toPars, Registry.find?_rebind]
  show m.Bound s t vars pars
  refine ⟨fun n => ?_, fun n => ?_, fun r hr n => ?_, fun r hr n => ?_, fun r hr => ?_,
    fun r hr h1 h2 => ?_⟩
  · rw [hout vars hv, hhead.toVars, Registry.find?_rebind_shared]
  · rw [hout pars hp, hhead.toPars, Registry.find?_rebind_shared]
  · rcases List.mem_cons.mp hr with rfl | hr'
    · exact hheadVars n
    · have hfind := Store.find?_linkAll harr.plan (r, m.head.vars)
        (mem_partLinks.mpr (.inl ⟨hr', rfl⟩))
      have hsame : s₁.registry r = s.registry r := hpart r (m.varRegistries_subset hr)
        (fun he => h.varHead (he ▸ hr')) fun he => h.kinds _ hr (he ▸ m.head_pars_mem)
      refine find?_through_head (h.vars r hr) n ?_ (hheadVars n)
      rw [← hsame, hthv]
      exact hfind n
  · rcases List.mem_cons.mp hr with rfl | hr'
    · exact hheadPars n
    · have hfind := Store.find?_linkAll harr.plan (r, m.head.pars)
        (mem_partLinks.mpr (.inr ⟨hr', rfl⟩))
      have hsame : s₁.registry r = s.registry r := hpart r (m.parRegistries_subset hr)
        (fun he => h.kinds _ (he ▸ m.head_vars_mem) hr) fun he => h.parHead (he ▸ hr')
      refine find?_through_head (h.pars r hr) n ?_ (hheadPars n)
      rw [← hsame, hthp]
      exact hfind n
  · rw [← hnames r hr]
    exact Store.names_linkAll harr.plan r
  · have h3 : r ≠ m.head.vars := fun he =>
      hr (he ▸ m.varRegistries_subset m.head_vars_mem)
    have h4 : r ≠ m.head.pars := fun he =>
      hr (he ▸ m.parRegistries_subset m.head_pars_mem)
    rw [hout r hr, hhead.others r h3 h4 h1 h2]

/-- A bound density is under the registries it was bound to. -/
theorem Bound.under {s t : Store α} {vars pars : RegistryId} {m : Model α}
    (h : m.Bound s t vars pars) :
    (∀ r ∈ m.varRegistries, (t.registry r).Under (t.registry vars)) ∧
      ∀ r ∈ m.parRegistries, (t.registry r).Under (t.registry pars) := by
  constructor
  · intro r hr n c hc
    rw [h.varCells r hr, Option.bind_eq_some_iff] at hc
    obtain ⟨_, -, hc⟩ := hc
    exact hc
  · intro r hr n c hc
    rw [h.parCells r hr, Option.bind_eq_some_iff] at hc
    obtain ⟨_, -, hc⟩ := hc
    exact hc

/-- A bound density is still linked. -/
theorem Bound.linked {s t : Store α} {vars pars : RegistryId} {m : Model α}
    (h : m.Bound s t vars pars) (hs : m.Linked s)
    (hsize : s.registries.size ≤ t.registries.size) : m.Linked t := by
  have hv := m.varRegistries_subset
  have hp := m.parRegistries_subset
  refine ⟨fun r hr => (hs.bounded r hr).trans_le hsize, hs.kinds, hs.varHead, hs.parHead,
    fun r hr => ?_, fun r hr => ?_⟩
  · refine Registry.under_of_names (h.under.1 r hr) (h.under.1 _ m.head_vars_mem) ?_
    rw [h.names r (hv hr), h.names _ (hv m.head_vars_mem)]
    exact (hs.vars r hr).names_subset
  · refine Registry.under_of_names (h.under.2 r hr) (h.under.2 _ m.head_pars_mem) ?_
    rw [h.names r (hp hr), h.names _ (hp m.head_pars_mem)]
    exact (hs.pars r hr).names_subset

end Model

/-! ### Many densities -/

namespace Composite

/-- The links that bind models in order. -/
def links (vars pars : RegistryId) (ms : List (Model α)) : List (RegistryId × RegistryId) :=
  ms.flatMap (·.links vars pars)

theorem outcome_bindModels [Scalar α] (vars pars : RegistryId) :
    ∀ (ms : List (Model α)) (s : Store α),
      (bindModels vars pars ms).outcome s = (.ok (), s.linkAll (links vars pars ms))
  | [], _ => rfl
  | m :: rest, s => by
    show (m.bind vars pars >>= fun _ => bindModels vars pars rest).outcome s = _
    rw [Run.outcome_bind_ok _ (m.outcome_bind vars pars s), outcome_bindModels vars pars rest,
      ← Store.linkAll_append]
    rfl

/-- What binding models in order does to the store. -/
structure Bound (s t : Store α) (vars pars : RegistryId) (ms : List (Model α)) : Prop where
  linked : ∀ m ∈ ms, m.Linked t
  varsUnder : (s.registry vars).Under (t.registry vars)
  parsUnder : (s.registry pars).Under (t.registry pars)
  varsOrigin : ∀ n c, (t.registry vars).find? n = some c →
    (s.registry vars).find? n = some c ∨ ∃ m ∈ ms, (s.registry m.head.vars).find? n = some c
  parsOrigin : ∀ n c, (t.registry pars).find? n = some c →
    (s.registry pars).find? n = some c ∨ ∃ m ∈ ms, (s.registry m.head.pars).find? n = some c
  varCells : ∀ m ∈ ms, ∀ r ∈ m.varRegistries, ∀ n, (t.registry r).find? n =
    ((s.registry r).find? n).bind fun _ => (t.registry vars).find? n
  parCells : ∀ m ∈ ms, ∀ r ∈ m.parRegistries, ∀ n, (t.registry r).find? n =
    ((s.registry r).find? n).bind fun _ => (t.registry pars).find? n
  names : ∀ m ∈ ms, ∀ r ∈ m.registries, (t.registry r).names = (s.registry r).names
  others : ∀ r, (∀ m ∈ ms, r ∉ m.registries) → r ≠ vars → r ≠ pars →
    t.registry r = s.registry r

/-- Bound models are under the registries they were bound to. -/
theorem Bound.under {s t : Store α} {vars pars : RegistryId} {ms : List (Model α)}
    (h : Bound s t vars pars ms) :
    (∀ m ∈ ms, ∀ r ∈ m.varRegistries, (t.registry r).Under (t.registry vars)) ∧
      ∀ m ∈ ms, ∀ r ∈ m.parRegistries, (t.registry r).Under (t.registry pars) := by
  constructor
  · intro m hm r hr n c hc
    rw [h.varCells m hm r hr, Option.bind_eq_some_iff] at hc
    obtain ⟨_, -, hc⟩ := hc
    exact hc
  · intro m hm r hr n c hc
    rw [h.parCells m hm r hr, Option.bind_eq_some_iff] at hc
    obtain ⟨_, -, hc⟩ := hc
    exact hc

/-- A registry that was pointed to one that has grown since holds its cells still. -/
theorem find?_of_under {r r' shared shared' : Registry} (n : String)
    (hn : r'.names = r.names) (hr : r'.find? n = (r.find? n).bind fun _ => shared.find? n)
    (h : shared.Under shared') : r'.find? n = (r.find? n).bind fun _ => shared'.find? n := by
  cases hc : r.find? n with
  | none =>
    rw [hr, hc]
    rfl
  | some c =>
    have hmem : n ∈ r'.names := hn ▸ Registry.mem_names_of_find? hc
    obtain ⟨d, hd⟩ := Registry.find?_eq_some_of_mem hmem
    have hs : shared.find? n = some d := by
      rw [hr, hc] at hd
      exact hd
    rw [hd]
    exact (h n d hs).symm

/-- One model is bound, and then those that share no registries with it. -/
theorem Bound.cons {s s₁ t : Store α} {vars pars : RegistryId} {m : Model α}
    {rest : List (Model α)} (hm : m.Bound s s₁ vars pars) (hrest : Bound s₁ t vars pars rest)
    (hlinked : m.Linked t)
    (hkept : ∀ r ∈ m.registries, t.registry r = s₁.registry r)
    (hlater : ∀ m' ∈ rest, ∀ r ∈ m'.registries, s₁.registry r = s.registry r) :
    Bound s t vars pars (m :: rest) where
  linked := List.forall_mem_cons.mpr ⟨hlinked, hrest.linked⟩
  varsUnder n c hc := by
    refine hrest.varsUnder n c ?_
    rw [hm.sharedVars, hc]
    rfl
  parsUnder n c hc := by
    refine hrest.parsUnder n c ?_
    rw [hm.sharedPars, hc]
    rfl
  varsOrigin n c hc := by
    rcases hrest.varsOrigin n c hc with h | ⟨m', hm', h⟩
    · rw [hm.sharedVars, Option.or_eq_some_iff] at h
      rcases h with h | ⟨-, h⟩
      · exact .inl h
      · exact .inr ⟨m, List.mem_cons_self, h⟩
    · rw [hlater m' hm' _ (m'.varRegistries_subset m'.head_vars_mem)] at h
      exact .inr ⟨m', List.mem_cons_of_mem _ hm', h⟩
  parsOrigin n c hc := by
    rcases hrest.parsOrigin n c hc with h | ⟨m', hm', h⟩
    · rw [hm.sharedPars, Option.or_eq_some_iff] at h
      rcases h with h | ⟨-, h⟩
      · exact .inl h
      · exact .inr ⟨m, List.mem_cons_self, h⟩
    · rw [hlater m' hm' _ (m'.parRegistries_subset m'.head_pars_mem)] at h
      exact .inr ⟨m', List.mem_cons_of_mem _ hm', h⟩
  varCells := by
    rw [List.forall_mem_cons]
    refine ⟨fun r hr n => ?_, fun m' hm' r hr n => ?_⟩
    · have hr' := m.varRegistries_subset hr
      rw [hkept r hr']
      exact find?_of_under n (hm.names r hr') (hm.varCells r hr n) hrest.varsUnder
    · rw [hrest.varCells m' hm' r hr, hlater m' hm' r (m'.varRegistries_subset hr)]
  parCells := by
    rw [List.forall_mem_cons]
    refine ⟨fun r hr n => ?_, fun m' hm' r hr n => ?_⟩
    · have hr' := m.parRegistries_subset hr
      rw [hkept r hr']
      exact find?_of_under n (hm.names r hr') (hm.parCells r hr n) hrest.parsUnder
    · rw [hrest.parCells m' hm' r hr, hlater m' hm' r (m'.parRegistries_subset hr)]
  names := by
    rw [List.forall_mem_cons]
    refine ⟨fun r hr => ?_, fun m' hm' r hr => ?_⟩
    · rw [hkept r hr, hm.names r hr]
    · rw [hrest.names m' hm' r hr, hlater m' hm' r hr]
  others r hr h1 h2 := by
    rw [List.forall_mem_cons] at hr
    rw [hrest.others r hr.2 h1 h2, hm.others r hr.1 h1 h2]

/-- **Binding keeps one cell per name.** Linked models that share no registries are
bound one after the other; each of them keeps what the shared registries held
before, and adds the names that they lack. -/
theorem bound_links {vars pars : RegistryId} (hne : vars ≠ pars) :
    ∀ {ms : List (Model α)} {s : Store α}, (∀ m ∈ ms, m.Linked s) →
      (∀ m ∈ ms, vars ∉ m.registries ∧ pars ∉ m.registries) →
      ms.Pairwise (fun a b => a.registries.Disjoint b.registries) →
      vars.index < s.registries.size → pars.index < s.registries.size →
      Bound s (s.linkAll (links vars pars ms)) vars pars ms
  | [], s, _, _, _, _, _ =>
    ⟨by simp, Registry.Under.refl _, Registry.Under.refl _, fun _ _ h => .inl h,
      fun _ _ h => .inl h, by simp, by simp, by simp, fun _ _ _ _ => rfl⟩
  | m :: rest, s, hl, hout, hd, hbv, hbp => by
    rw [List.forall_mem_cons] at hl hout
    rw [List.pairwise_cons] at hd
    have hm := hl.1.bound hout.1.1 hout.1.2 hne hbv hbp
    have happ : s.linkAll (links vars pars (m :: rest)) =
        (s.linkAll (m.links vars pars)).linkAll (links vars pars rest) :=
      Store.linkAll_append _ _ _
    set s₁ := s.linkAll (m.links vars pars) with hs₁
    have hsize : s₁.registries.size = s.registries.size := Store.size_linkAll _ _
    -- the models that come later are as they were
    have hlater : ∀ m' ∈ rest, ∀ r ∈ m'.registries, s₁.registry r = s.registry r := by
      intro m' hm' r hr
      refine hm.others r (fun hr' => hd.1 m' hm' hr' hr) ?_ ?_
      · exact fun he => (hout.2 m' hm').1 (he ▸ hr)
      · exact fun he => (hout.2 m' hm').2 (he ▸ hr)
    have hrest := bound_links hne (s := s₁)
      (fun m' hm' => (hl.2 m' hm').of_registries hsize.ge (hlater m' hm')) hout.2 hd.2
      (hsize ▸ hbv) (hsize ▸ hbp)
    rw [happ]
    set t := s₁.linkAll (links vars pars rest) with ht
    have htsize : t.registries.size = s₁.registries.size := Store.size_linkAll _ _
    -- and this one is left alone by them
    have hkept : ∀ r ∈ m.registries, t.registry r = s₁.registry r := by
      intro r hr
      refine hrest.others r (fun m' hm' hr' => hd.1 m' hm' hr hr') ?_ ?_
      · exact fun he => hout.1.1 (he ▸ hr)
      · exact fun he => hout.1.2 (he ▸ hr)
    have hlinked := (hm.linked hl.1 hsize.ge).of_registries htsize.ge hkept
    exact Bound.cons hm hrest hlinked hkept hlater

end Composite

end DensityAlgebra
