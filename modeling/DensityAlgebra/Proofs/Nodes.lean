/-
# Every node of a bound tree

Binding an amplitude goes down its tree and points the registry of each node to the
shared one. What happens to the two registries of one link holds of any two, also where
they are one and the same; chained over the nodes it gives that every node ends with the
cells of the shared registry, which keeps what it had and takes each missing name from
the first node that has it. Nodes that occur more than once, and a shared registry that
itself belongs to a node, are no exception.

A node reads only names that its registry has, in every tree that was built by the
constructors and copied since, whatever was bound or made meanwhile. So the values that a
bound tree is evaluated at are those of the shared registry.

Key definitions: `Registry.Gains`, `Store.Shares`, `Amplitude.Complete`,
`Amplitude.Built`, `Amplitude.Bound`.
Key theorems: `Store.Shares.append`, `Store.shares_linkAll`, `Amplitude.Built.complete`,
`Amplitude.one_cell_per_name`.
-/
import DensityAlgebra.Proofs.Gathering
import DensityAlgebra.Proofs.Renewing
import DensityAlgebra.Proofs.Sharing

namespace DensityAlgebra

/-! ### Gained names -/

namespace Registry

/-- The other registry has the names of the first one and after them, each once, the names
among `p` that the first one lacks. -/
def Gains (p : String → Prop) (r t : Registry) : Prop :=
  ∃ new : List String, new.Nodup ∧ t.names = r.names ++ new ∧ ∀ n, n ∈ new ↔ n ∉ r.names ∧ p n

variable {p q : String → Prop} {r t u : Registry}

theorem Gains.of_names (h : t.names = r.names) (hp : ∀ n, p n → n ∈ r.names) : Gains p r t :=
  ⟨[], List.nodup_nil, by rw [h, List.append_nil], fun n => by
    simp only [List.not_mem_nil, false_iff, not_and]
    exact fun hn hpn => hn (hp n hpn)⟩

/-- Only names that the first registry lacks matter. -/
theorem Gains.congr (h : Gains p r t) (hpq : ∀ n, n ∉ r.names → (p n ↔ q n)) : Gains q r t := by
  obtain ⟨new, hnodup, hnames, hnew⟩ := h
  exact ⟨new, hnodup, hnames, fun n => (hnew n).trans (and_congr_right (hpq n))⟩

theorem Gains.mem_names (h : Gains p r t) {n : String} :
    n ∈ t.names ↔ n ∈ r.names ∨ n ∉ r.names ∧ p n := by
  obtain ⟨new, -, hnames, hnew⟩ := h
  rw [hnames, List.mem_append, hnew]

theorem Gains.trans (h : Gains p r t) (h' : Gains q t u) : Gains (fun n => p n ∨ q n) r u := by
  have hmem := fun n => h.mem_names (n := n)
  obtain ⟨new, hnodup, hnames, hnew⟩ := h
  obtain ⟨new', hnodup', hnames', hnew'⟩ := h'
  refine ⟨new ++ new', ?_, by rw [hnames', hnames, List.append_assoc], fun n => ?_⟩
  · refine List.nodup_append.mpr ⟨hnodup, hnodup', fun n hn m hm hnm => ?_⟩
    have hlacks := ((hnew' m).mp hm).1
    rw [hnames, List.mem_append, ← hnm] at hlacks
    exact hlacks (.inr hn)
  · rw [List.mem_append, hnew, hnew', hmem]
    tauto

theorem gains_setDefault (r : Registry) (n : String) (c : CellId) :
    Gains (· = n) r (r.setDefault n c).2 := by
  by_cases hn : n ∈ r.names
  · exact .of_names (by rw [names_setDefault, if_pos hn]) fun m hm => hm ▸ hn
  · refine ⟨[n], List.nodup_singleton n, by rw [names_setDefault, if_neg hn], fun m => ?_⟩
    rw [List.mem_singleton]
    exact ⟨fun hm => ⟨hm ▸ hn, hm⟩, And.right⟩

theorem gains_rebindEntries : ∀ (es : List (String × CellId)) (shared : Registry),
    Gains (· ∈ es.map (·.1)) shared (rebindEntries es shared).2
  | [], _ => .of_names rfl (by simp)
  | (m, c) :: es, shared =>
    ((gains_setDefault shared m c).trans (gains_rebindEntries es (shared.setDefault m c).2)).congr
      fun _ _ => List.mem_cons.symm

/-- A registry that another one is pointed to gains the names that it lacks. -/
theorem gains_rebind (own shared : Registry) :
    Gains (· ∈ own.names) shared (own.rebind shared).2 := gains_rebindEntries own.entries shared

end Registry

/-! ### Registries pointed to one -/

namespace Store

variable {α : Type} {s t u : Store α} {shared : RegistryId}

/-- The listed registries were pointed to the shared one, in order. They hold its cells;
it has kept what it had, and has each name that it lacked from the first of them. -/
structure Shares (s t : Store α) (rs : List RegistryId) (shared : RegistryId) : Prop where
  under : ∀ r ∈ rs, (t.registry r).Under (t.registry shared)
  names : ∀ r, r ≠ shared → (t.registry r).names = (s.registry r).names
  find? : ∀ n, (t.registry shared).find? n =
    ((s.registry shared).find? n).or (rs.findSome? fun r => (s.registry r).find? n)
  gains : (s.registry shared).Gains (fun n => ∃ r ∈ rs, n ∈ (s.registry r).names)
    (t.registry shared)
  others : ∀ r, r ≠ shared → r ∉ rs → t.registry r = s.registry r

theorem Shares.nil (s : Store α) (shared : RegistryId) : s.Shares s [] shared where
  under _ h := absurd h List.not_mem_nil
  names _ _ := rfl
  find? n := (Option.or_none).symm
  gains := .of_names rfl (by simp)
  others _ _ _ := rfl

/-- A registry that is pointed to itself stays as it is, name by name. -/
theorem find?_link_self (s : Store α) (r : RegistryId) (n : String) :
    ((s.link r r).registry r).find? n = (s.registry r).find? n := by
  rw [registry_link_own, Registry.find?_rebind, Registry.find?_rebind_shared]
  cases (s.registry r).find? n <;> rfl

/-- One registry that is pointed to the shared one, or is the shared one itself. -/
theorem shares_link (s : Store α) (own : RegistryId) (h : shared.index < s.registries.size) :
    s.Shares (s.link own shared) [own] shared := by
  have hothers : ∀ r, r ≠ shared → r ∉ [own] → (s.link own shared).registry r = s.registry r :=
    fun r hr hown => registry_link_ne s (fun he => hown (List.mem_singleton.mpr he)) hr
  have hnames : ∀ r, r ≠ shared →
      ((s.link own shared).registry r).names = (s.registry r).names := by
    intro r hr
    by_cases hown : r = own
    · rw [hown, names_link_own]
    · rw [registry_link_ne s hown hr]
  by_cases hself : own = shared
  · subst hself
    refine ⟨fun r hr => ?_, hnames, fun n => ?_, ?_, hothers⟩
    · rw [List.mem_singleton.mp hr]
      exact Registry.Under.refl _
    · rw [find?_link_self]
      cases hn : (s.registry own).find? n <;> simp [hn]
    · exact .of_names (names_link_own s own own) (by simp)
  · have hown := registry_link_own s own shared
    have hshared := registry_link_shared hself h
    refine ⟨fun r hr => ?_, hnames, fun n => ?_, ?_, hothers⟩
    · rw [List.mem_singleton.mp hr, hown, hshared]
      exact Registry.under_rebind _ _
    · rw [hshared, Registry.find?_rebind_shared]
      simp
    · rw [hshared]
      exact (Registry.gains_rebind _ _).congr fun n _ => by simp

/-- What the shared registry holds stays in it. -/
theorem Shares.earlier {rs : List RegistryId} (h : s.Shares t rs shared) :
    (s.registry shared).Under (t.registry shared) := by
  intro n c hc
  rw [h.find?, hc]
  rfl

/-- A name that the shared registry still lacks stands in the later registries as before. -/
theorem Shares.find?_later {rs : List RegistryId} (h : s.Shares u rs shared) {n : String}
    (hn : (u.registry shared).find? n = none) (r : RegistryId) :
    (u.registry r).find? n = (s.registry r).find? n := by
  have hlacks := h.find? n
  rw [hn, eq_comm, Option.or_eq_none_iff, List.findSome?_eq_none_iff] at hlacks
  by_cases hr : r = shared
  · rw [hr, hn, hlacks.1]
  · by_cases hmem : r ∈ rs
    · -- a registry that was pointed has the names it had, and so lacks this one
      have hnot : n ∉ (u.registry r).names := by
        rw [h.names r hr, ← Registry.find?_eq_none]
        exact hlacks.2 r hmem
      rw [hlacks.2 r hmem, Registry.find?_eq_none.mpr hnot]
    · rw [h.others r hr hmem]

/-- Registries are pointed to the shared one after others were. -/
theorem Shares.append {rs qs : List RegistryId} (h : s.Shares u rs shared)
    (h' : u.Shares t qs shared) : s.Shares t (rs ++ qs) shared where
  under r hr := by
    by_cases hq : r ∈ qs
    · exact h'.under r hq
    by_cases hs : r = shared
    · rw [hs]
      exact Registry.Under.refl _
    · rw [h'.others r hs hq]
      exact (h.under r ((List.mem_append.mp hr).resolve_right hq)).trans h'.earlier
  names r hr := (h'.names r hr).trans (h.names r hr)
  find? n := by
    rw [h'.find?, List.findSome?_append, ← Option.or_assoc, ← h.find?]
    cases hn : (u.registry shared).find? n with
    | some c => rfl
    | none =>
      have hsame : (fun r => (u.registry r).find? n) = fun r => (s.registry r).find? n :=
        funext (h.find?_later hn)
      rw [hsame]
  gains := by
    refine (h.gains.trans h'.gains).congr fun n hn => ?_
    -- one of the later registries may be the shared one, which has gained names by then
    have hlater : (∃ r ∈ qs, n ∈ (u.registry r).names) →
        (∃ r ∈ rs, n ∈ (s.registry r).names) ∨ ∃ r ∈ qs, n ∈ (s.registry r).names := by
      rintro ⟨r, hr, hmem⟩
      by_cases hs : r = shared
      · rw [hs, h.gains.mem_names] at hmem
        exact .inl (hmem.resolve_left hn).2
      · exact .inr ⟨r, hr, h.names r hs ▸ hmem⟩
    have hbefore : (∃ r ∈ qs, n ∈ (s.registry r).names) → ∃ r ∈ qs, n ∈ (u.registry r).names := by
      rintro ⟨r, hr, hmem⟩
      refine ⟨r, hr, ?_⟩
      rw [h.names r fun hs => hn (hs ▸ hmem)]
      exact hmem
    simp only [List.mem_append, or_and_right, exists_or]
    exact ⟨fun h => h.elim .inl hlater, fun h => h.imp_right hbefore⟩
  others r hr hmem := by
    rw [List.mem_append, not_or] at hmem
    rw [h'.others r hr hmem.2, h.others r hr hmem.1]

/-- **All links to one registry.** -/
theorem shares_linkAll : ∀ (rs : List RegistryId) {s : Store α}, shared.index < s.registries.size →
    s.Shares (s.linkAll (rs.map (·, shared))) rs shared
  | [], s, _ => .nil s shared
  | r :: rest, s, h => (shares_link s r h).append (shares_linkAll rest (by rwa [size_link]))

end Store

/-! ### Nodes and what they ask for -/

namespace Amplitude

variable {α : Type}

mutual

theorem nodes_rename (f : RegistryId → RegistryId) : ∀ a : Amplitude α,
    (a.rename f).nodes = a.nodes.map (·.rename f)
  | flat .. => rfl
  | resonance .. => rfl
  | sum r terms => congrArg (sum (f r) (terms.rename f) :: ·) (Terms.nodes_rename f terms)

theorem Terms.nodes_rename (f : RegistryId → RegistryId) : ∀ ts : Terms α,
    (ts.rename f).nodes = ts.nodes.map (·.rename f)
  | .nil => rfl
  | .cons _ _ factor rest => by
    show (factor.rename f).nodes ++ (rest.rename f).nodes =
      (factor.nodes ++ rest.nodes).map (·.rename f)
    rw [List.map_append, Amplitude.nodes_rename f factor, Terms.nodes_rename f rest]

end

theorem Terms.asks_rename (f : RegistryId → RegistryId) : ∀ ts : Terms α,
    (ts.rename f).asks = ts.asks
  | .nil => rfl
  | .cons re im _ rest => congrArg (re :: im :: ·) (Terms.asks_rename f rest)

theorem asks_rename (f : RegistryId → RegistryId) : ∀ a : Amplitude α, (a.rename f).asks = a.asks
  | flat .. => rfl
  | resonance .. => rfl
  | sum _ terms => terms.asks_rename f

mutual

/-- The nodes of a subtree are nodes of the tree. -/
theorem nodes_subset : ∀ (a : Amplitude α), ∀ b ∈ a.nodes, b.nodes ⊆ a.nodes
  | flat .., b, hb => by rw [List.mem_singleton.mp hb]; exact List.Subset.refl _
  | resonance .., b, hb => by rw [List.mem_singleton.mp hb]; exact List.Subset.refl _
  | sum r terms, b, hb => by
    rcases List.mem_cons.mp hb with rfl | hb
    · exact List.Subset.refl _
    · exact List.subset_cons_of_subset _ (Terms.nodes_subset terms b hb)

theorem Terms.nodes_subset : ∀ (ts : Terms α), ∀ b ∈ ts.nodes, b.nodes ⊆ ts.nodes
  | .nil, _, hb => absurd hb List.not_mem_nil
  | .cons _ _ factor rest, b, hb => by
    rcases List.mem_append.mp hb with hb | hb
    · exact List.subset_append_of_subset_left _ (Amplitude.nodes_subset factor b hb)
    · exact List.subset_append_of_subset_right _ (Terms.nodes_subset rest b hb)

end

theorem Terms.mem_nodes_ofList {b : Amplitude α} : ∀ {ts : List (String × String × Amplitude α)},
    b ∈ (Terms.ofList ts).nodes ↔ ∃ e ∈ ts, b ∈ e.2.2.nodes
  | [] => by simp [Terms.ofList, Terms.nodes]
  | (re, im, factor) :: rest => by
    show b ∈ factor.nodes ++ (Terms.ofList rest).nodes ↔ _
    rw [List.mem_append, Terms.mem_nodes_ofList]
    simp

theorem Terms.mem_asks_ofList {n : String} : ∀ {ts : List (String × String × Amplitude α)},
    n ∈ (Terms.ofList ts).asks ↔ ∃ e ∈ ts, n = e.1 ∨ n = e.2.1
  | [] => by simp [Terms.ofList, Terms.asks]
  | (re, im, factor) :: rest => by
    show n ∈ re :: im :: (Terms.ofList rest).asks ↔ _
    rw [List.mem_cons, List.mem_cons, Terms.mem_asks_ofList]
    simp [or_assoc]

end Amplitude

/-! ### Trees that were built -/

variable {α : Type} [Scalar α]

/-- No registry has lost a name. -/
def Store.KeepsNames (s t : Store α) : Prop := ∀ r, (s.registry r).names ⊆ (t.registry r).names

theorem Store.Within.keepsNames {s t : Store α} {C : Set CellId} {D : Set StateId}
    (h : s.Within C D t) : s.KeepsNames t := by
  intro r
  rcases Nat.lt_or_ge r.index s.registries.size with hr | hr
  · rw [h.registries r hr]
    exact List.Subset.refl _
  · rw [Store.registry_eq_empty hr]
    exact List.nil_subset _

omit [Scalar α] in
theorem Store.Shares.keepsNames {s t : Store α} {rs : List RegistryId} {shared : RegistryId}
    (h : s.Shares t rs shared) : s.KeepsNames t := by
  intro r
  by_cases hr : r = shared
  · rw [hr]
    exact h.earlier.names_subset
  · rw [h.names r hr]
    exact List.Subset.refl _

namespace Amplitude

/-- The trees of a store: built by the constructors over trees that were there, or copied
from one, and still there after anything that takes no name from a registry. -/
inductive Built : Store α → Amplitude α → Prop
  | flat {s t : Store α} {a : Amplitude α} (z : ComplexNumber α) :
    (Run.newFlat z).outcome s = (.ok a, t) → Built t a
  | resonance {s t : Store α} {a : Amplitude α} (mass width : CellId) (channel : String) :
    (Run.newResonance mass width channel).outcome s = (.ok a, t) → Built t a
  | sum {s t : Store α} {a : Amplitude α} {terms : List (CellId × CellId × Amplitude α)} :
    (∀ e ∈ terms, Built s e.2.2) → (Run.newSum terms).outcome s = (.ok a, t) → Built t a
  | copy {s t : Store α} {a b : Amplitude α} :
    Built s a → a.copy.outcome s = (.ok b, t) → Built t b
  | later {s t : Store α} {a : Amplitude α} : Built s a → s.KeepsNames t → Built t a

/-- Every node finds the names that it asks for in its registry. -/
def Complete (s : Store α) (a : Amplitude α) : Prop :=
  ∀ b ∈ a.nodes, b.asks ⊆ (s.registry b.pars).names

variable {s t : Store α} {a : Amplitude α}

omit [Scalar α] in
theorem Complete.later (h : a.Complete s) (hst : s.KeepsNames t) : a.Complete t :=
  fun b hb => List.Subset.trans (h b hb) (hst b.pars)

theorem complete_resonance {mass width : CellId} {channel : String}
    (h : (Run.newResonance mass width channel).outcome s = (.ok a, t)) : a.Complete t := by
  obtain ⟨pair, -, h⟩ := Run.outcome_reading_bind_eq_ok h
  obtain ⟨r, u, hr, h⟩ := Run.outcome_bind_eq_ok h
  obtain ⟨-, rfl, rfl⟩ := (Run.newRegistryOf_eq_ok_iff .parameter [mass, width]).mp hr
  obtain ⟨ha, rfl⟩ := Prod.mk.inj h
  rw [← Except.ok.inj ha]
  intro b hb
  rw [List.mem_singleton.mp hb]
  show _ ⊆ ((s.addRegistry _).registry ⟨s.registries.size⟩).names
  rw [Store.registry_addRegistry, if_pos rfl]
  exact List.Subset.refl _

theorem complete_sum {terms : List (CellId × CellId × Amplitude α)}
    (hterms : ∀ e ∈ terms, e.2.2.Complete s) (h : s.NewSum t terms a) : a.Complete t := by
  obtain ⟨x, rfl⟩ := h.unchanged
  have hkeeps : s.KeepsNames (s.addRegistry x) :=
    (Store.within_addRegistry (C := ∅) (D := ∅) s x).keepsNames
  have hheld : ∀ e ∈ terms, ∀ c, c = e.1 ∨ c = e.2.1 →
      (s.cell c).name ∈ ((s.addRegistry x).registry a.pars).names := by
    intro e he c hc
    refine Registry.mem_names_of_find? ((h.find? _ c).mpr ⟨List.mem_flatMap.mpr ⟨e, he, ?_⟩, rfl⟩)
    rcases hc with rfl | rfl
    · exact List.mem_cons_self
    · exact List.mem_cons_of_mem _ List.mem_cons_self
  intro b hb
  rw [h.shape] at hb
  rcases List.mem_cons.mp hb with rfl | hb
  · rw [← h.shape]
    intro n hn
    rw [h.shape] at hn
    obtain ⟨_, hnamed, hn⟩ := Terms.mem_asks_ofList.mp hn
    obtain ⟨e, he, rfl⟩ := List.mem_map.mp hnamed
    rcases hn with rfl | rfl
    · exact hheld e he e.1 (.inl rfl)
    · exact hheld e he e.2.1 (.inr rfl)
  · obtain ⟨_, hnamed, hb⟩ := Terms.mem_nodes_ofList.mp hb
    obtain ⟨e, he, rfl⟩ := List.mem_map.mp hnamed
    exact (hterms e he).later hkeeps b hb

theorem Complete.copied {f : RegistryId → RegistryId} {g : CellId → CellId} (h : a.Complete s)
    (hf : s.Copied t a.registries f g) : (a.rename f).Complete t := by
  intro b hb
  rw [nodes_rename] at hb
  obtain ⟨c, hc, rfl⟩ := List.mem_map.mp hb
  rw [asks_rename, pars_rename, hf.names (pars_mem_registries hc)]
  exact h c hc

/-- **A tree never asks for a name that it lacks.** -/
theorem Built.complete (h : Built s a) : a.Complete s := by
  induction h with
  | flat z h =>
    obtain ⟨ha, rfl⟩ := Prod.mk.inj h
    rw [← Except.ok.inj ha]
    intro b hb
    rw [List.mem_singleton.mp hb]
    exact List.nil_subset _
  | resonance mass width channel h => exact complete_resonance h
  | sum _ h ih => exact complete_sum ih (Run.newSum_ok h)
  | @copy s t a b _ h ih =>
    obtain ⟨u, f, g, hu, -, hf⟩ := a.copy_copied s
    rw [hu] at h
    obtain ⟨hb, rfl⟩ := Prod.mk.inj h
    rw [← Except.ok.inj hb]
    exact ih.copied hf
  | later _ h ih => exact ih.later h

/-! ### Bound trees -/

/-- The tree was bound to the shared registry: what each node and the registry hold
afterwards, and what the nodes read. -/
structure Bound (s t : Store α) (a : Amplitude α) (shared : RegistryId) : Prop where
  /-- For each of its names every node holds the very cell that the registry holds. -/
  nodes : ∀ b ∈ a.nodes, (t.registry b.pars).SharedWith (t.registry shared)
  names : ∀ b ∈ a.nodes, b.pars ≠ shared →
    (t.registry b.pars).names = (s.registry b.pars).names
  earlier : (s.registry shared).Under (t.registry shared)
  /-- The names that were missing came after the earlier ones, each once. -/
  gained : (s.registry shared).Gains (fun n => ∃ b ∈ a.nodes, n ∈ (s.registry b.pars).names)
    (t.registry shared)
  /-- Each of them came with the cell of the first node that had it. -/
  own : ∀ n, n ∉ (s.registry shared).names →
    (t.registry shared).find? n = a.nodes.findSome? fun b => (s.registry b.pars).find? n
  others : ∀ r, r ≠ shared → (∀ b ∈ a.nodes, b.pars ≠ r) → t.registry r = s.registry r
  cells : t.cells = s.cells
  /-- Every node is evaluated as if all of its subtree were read in the registry, also once
  the cells have taken other values. -/
  reads : ∀ u : Store α, u.registries = t.registries → ∀ b ∈ a.nodes, ∀ m12 m13 m23,
    b.evaluate u m12 m13 m23 = (b.rename fun _ => shared).evaluate u m12 m13 m23

/-- **Binding reaches every node.** -/
theorem Complete.bound (h : a.Complete s) {shared : RegistryId}
    (hshared : shared.index < s.registries.size) :
    ∃ t, (a.bind shared).outcome s = (.ok (), t) ∧ a.Bound s t shared := by
  set t := s.linkAll (a.registries.map (·, shared)) with ht
  have hs : s.Shares t a.registries shared := Store.shares_linkAll a.registries hshared
  have hnodes : ∀ b ∈ a.nodes, (t.registry b.pars).SharedWith (t.registry shared) := fun b hb =>
    (hs.under b.pars (pars_mem_registries hb)).sharedWith
  refine ⟨t, a.outcome_bind shared s, hnodes, fun b _ => hs.names b.pars, hs.earlier, ?_,
    fun n hn => ?_, fun r hr hmem => ?_, Store.cells_linkAll _ _, fun u hu b hb m12 m13 m23 => ?_⟩
  · refine hs.gains.congr fun n _ => ?_
    simp [registries_eq_nodes]
  · rw [hs.find?, Registry.find?_eq_none.mpr hn, Option.none_or, registries_eq_nodes,
      List.findSome?_map]
    rfl
  · refine hs.others r hr fun hr' => ?_
    rw [registries_eq_nodes] at hr'
    obtain ⟨b, hb, rfl⟩ := List.mem_map.mp hr'
    exact hmem b hb rfl
  · have hread : ∀ c ∈ b.nodes, ∀ n ∈ c.asks, u.value? c.pars n = u.value? shared n := by
      intro c hc n hn
      have hmem := nodes_subset a b hb hc
      obtain ⟨d, hd, hd'⟩ := hnodes c hmem n (hs.keepsNames c.pars (h c hmem hn))
      rw [← Store.registry_congr hu] at hd hd'
      rw [Store.value?_of_find? hd, Store.value?_of_find? hd']
    have hcongr := evaluate_of_asked (f := id) (g := fun _ => shared) m12 m13 m23 b hread
    rwa [rename_id] at hcongr

theorem Bound.keepsNames {shared : RegistryId} (h : a.Bound s t shared) :
    s.KeepsNames t := by
  intro r
  by_cases hr : r = shared
  · rw [hr]
    exact h.earlier.names_subset
  by_cases hb : ∃ b ∈ a.nodes, b.pars = r
  · obtain ⟨b, hb, rfl⟩ := hb
    rw [h.names b hb hr]
    exact List.Subset.refl _
  · rw [h.others r hr fun b hmem he => hb ⟨b, hmem, he⟩]
    exact List.Subset.refl _

/-- All trees of a store are still there after one of them was bound. -/
theorem Built.bound {b : Amplitude α} {shared : RegistryId} (hb : b.Built s)
    (h : a.Bound s t shared) : b.Built t := hb.later h.keepsNames

/-- **One cell per name at every depth.** A sum of terms can be made exactly if no two
different cells of its terms have one name, and holds just these cells; in a sound store its
topmost node then has the cells of all the others. After a tree of any depth was bound to
any registry, each of its nodes holds the cells of that registry, which has kept what it had
and gained what the tree had beyond that; and so it is for a copy of the tree, which is a
tree of new registries over new cells. -/
theorem one_cell_per_name {terms : List (CellId × CellId × Amplitude α)}
    (hterms : ∀ e ∈ terms, e.2.2.Built s) (ha : a.Built s) :
    ((∃ b t, (Run.newSum terms).outcome s = (.ok b, t)) ↔ s.Unambiguous (s.termCells terms)) ∧
    (∀ b t, (Run.newSum terms).outcome s = (.ok b, t) → s.NewSum t terms b ∧ b.Built t ∧
      (s.Sound → (∀ e ∈ terms, e.1.index < s.cells.size ∧ e.2.1.index < s.cells.size ∧
        e.2.2.Valid s) → b.Valid t)) ∧
    (∀ shared : RegistryId, shared.index < s.registries.size →
      ∃ t, (a.bind shared).outcome s = (.ok (), t) ∧ a.Bound s t shared) ∧
    ∃ u f g, a.copy.outcome s = (.ok (a.rename f), u) ∧ s.Copied u a.registries f g ∧
      ∀ shared : RegistryId, shared.index < u.registries.size →
        ∃ t, ((a.rename f).bind shared).outcome u = (.ok (), t) ∧
          (a.rename f).Bound u t shared := by
  refine ⟨Run.exists_newSum_iff s terms, fun b t h => ⟨Run.newSum_ok h, .sum hterms h,
    fun hs hvalid => ((Run.newSum_spec hs hvalid).ok h).2⟩, fun _ => ha.complete.bound, ?_⟩
  obtain ⟨u, f, g, hu, -, hf⟩ := a.copy_copied s
  exact ⟨u, f, g, hu, hf, fun _ => (Built.copy ha hu).complete.bound⟩

namespace Nested

/-- Parameters, and a registry that has a cell of its own under the name of a width. -/
def start : Store ℚ :=
  { Store.empty with
    cells := #[⟨.parameter, "m", .scalar 2, .scalar 0⟩, ⟨.parameter, "g", .scalar 3, .scalar 0⟩,
      ⟨.parameter, "re", .scalar 1, .scalar 0⟩, ⟨.parameter, "im", .scalar 0, .scalar 0⟩,
      ⟨.parameter, "g", .scalar 5, .scalar 0⟩]
    registries := #[⟨[("g", ⟨4⟩)]⟩] }

def leaf : Amplitude ℚ := .resonance ⟨1⟩ "m" "g" .of12

def inner : Amplitude ℚ := .sum ⟨2⟩ (.cons "re" "im" leaf .nil)

/-- A sum of a sum, with one resonance at two depths. -/
def outer : Amplitude ℚ := .sum ⟨3⟩ (.cons "re" "im" inner (.cons "re" "im" leaf .nil))

/-- The parameters of either sum. -/
def pars : Registry := ⟨[("re", ⟨2⟩), ("im", ⟨3⟩), ("m", ⟨0⟩), ("g", ⟨1⟩)]⟩

def withLeaf : Store ℚ := start.addRegistry ⟨[("m", ⟨0⟩), ("g", ⟨1⟩)]⟩

def withInner : Store ℚ := withLeaf.addRegistry pars

def withOuter : Store ℚ := withInner.addRegistry pars

/-- Terms over the nested sum. -/
def terms : List (CellId × CellId × Amplitude ℚ) := [(⟨2⟩, ⟨3⟩, outer), (⟨2⟩, ⟨3⟩, leaf)]

theorem newResonance_leaf :
    (Run.newResonance ⟨0⟩ ⟨1⟩ "12").outcome start = (.ok leaf, withLeaf) := rfl

theorem newSum_inner :
    (Run.newSum [(⟨2⟩, ⟨3⟩, leaf)]).outcome withLeaf = (.ok inner, withInner) := rfl

theorem newSum_outer : (Run.newSum [(⟨2⟩, ⟨3⟩, inner), (⟨2⟩, ⟨3⟩, leaf)]).outcome withInner =
    (.ok outer, withOuter) := rfl

theorem built : leaf.Built withOuter ∧ outer.Built withOuter := by
  have hkeeps : ∀ (u : Store ℚ) (x : Registry), u.KeepsNames (u.addRegistry x) := fun u x =>
    (Store.within_addRegistry (C := ∅) (D := ∅) u x).keepsNames
  have hleaf : leaf.Built withLeaf := .resonance _ _ _ newResonance_leaf
  have hleaf' : leaf.Built withInner := hleaf.later (hkeeps withLeaf pars)
  have hinner : inner.Built withInner := .sum (by simpa using hleaf) newSum_inner
  refine ⟨hleaf'.later (hkeeps withInner pars), .sum ?_ newSum_outer⟩
  simpa using ⟨hinner, hleaf'⟩

end Nested

open Nested in
/-- The nested sum is bound to the registry with a width of its own: the width is replaced
at every depth, and the other names are gained. -/
theorem one_cell_per_name_nested :
    outer.Built withOuter ∧ (∀ e ∈ terms, e.2.2.Built withOuter) ∧
    (∃ b t, (Run.newSum terms).outcome withOuter = (.ok b, t)) ∧
    ∃ t, (outer.bind ⟨0⟩).outcome withOuter = (.ok (), t) ∧ outer.Bound withOuter t ⟨0⟩ ∧
      t.registry ⟨0⟩ = ⟨[("g", ⟨4⟩), ("re", ⟨2⟩), ("im", ⟨3⟩), ("m", ⟨0⟩)]⟩ ∧
      t.registry leaf.pars = ⟨[("m", ⟨0⟩), ("g", ⟨4⟩)]⟩ := by
  have hterms : ∀ e ∈ terms, e.2.2.Built withOuter := by
    simpa [terms] using built.symm
  obtain ⟨hmade, -, hbound, -⟩ := one_cell_per_name hterms built.2
  obtain ⟨t, ht, hb⟩ := hbound ⟨0⟩ (by decide)
  have hstore : t = ((outer.bind ⟨0⟩).outcome withOuter).2 := by rw [ht]
  refine ⟨built.2, hterms, hmade.mpr (by decide), t, ht, hb, ?_, ?_⟩
  · rw [hstore]
    rfl
  · rw [hstore]
    rfl

end Amplitude

end DensityAlgebra
