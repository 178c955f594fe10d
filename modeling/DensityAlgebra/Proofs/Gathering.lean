/-
# When a sum can be made

A registry can be made of cells exactly if all their names are different. A sum gathers
the cells of its coefficients and of its terms by name, each cell once however many
terms hold it: it can be made exactly if no two different cells among them have one name,
and its registry then holds these cells and no others. Otherwise the refusal names the
name that two cells have, and nothing has changed.

The store need not be sound here: a registry may hold a cell under another name than the
cell's own, as it does once it was pointed to a registry that does so.

Key definitions: `Store.Unambiguous`, `Store.termCells`, `Store.NewSum`.
Key theorems: `Run.newRegistryOf_eq_ok_iff`, `Run.gather_eq_error`, `Run.newSum_cases`,
`Run.exists_newSum_iff`.
-/
import DensityAlgebra.Proofs.Constructing

namespace DensityAlgebra

/-! ### Putting and adding registries -/

namespace Store

variable {α : Type}

theorem putRegistry_registry {s : Store α} {r : RegistryId} (h : r.index < s.registries.size) :
    s.putRegistry r (s.registry r) = s := by
  have hself : s.registries.setIfInBounds r.index (s.registry r) = s.registries := by
    unfold registry
    rw [Array.getD_eq_getD_getElem?, Array.getElem?_eq_getElem h, Option.getD_some]
    simp [Array.setIfInBounds, h]
  unfold putRegistry
  rw [hself]

theorem putRegistry_putRegistry (s : Store α) (r : RegistryId) (x y : Registry) :
    (s.putRegistry r x).putRegistry r y = s.putRegistry r y := by
  unfold putRegistry
  simp only [Array.setIfInBounds_setIfInBounds]

theorem putRegistry_addRegistry (s : Store α) (x y : Registry) :
    (s.addRegistry x).putRegistry ⟨s.registries.size⟩ y = s.addRegistry y := by
  have hpush : (s.registries.push x).setIfInBounds s.registries.size y = s.registries.push y := by
    simp [Array.setIfInBounds, Array.set_push]
  unfold putRegistry addRegistry
  rw [hpush]

end Store

/-! ### Registries of given cells -/

namespace Run

variable {α : Type} [Scalar α]

theorem outcome_register_cons (r : RegistryId) (kind : String) (c : CellId) (rest : List CellId)
    (s : Store α) : (register r kind (c :: rest)).outcome s =
      if (s.cell c).name ∈ (s.registry r).names then
        (.error (.duplicateName kind (s.cell c).name), s)
      else (register r kind rest).outcome
        (s.putRegistry r ⟨(s.registry r).entries ++ [((s.cell c).name, c)]⟩) := by
  show (get >>= _ : Run α Unit).outcome s = _
  rw [outcome_bind_ok _ (outcome_get s)]
  by_cases h : (s.cell c).name ∈ (s.registry r).names
  · rw [if_pos h, if_pos (Registry.contains_iff.mpr h)]
    rfl
  · have hc : ¬(s.registry r).contains (s.cell c).name = true := mt Registry.contains_iff.mp h
    have hinsert : (s.registry r).insert (s.cell c).name c =
        ⟨(s.registry r).entries ++ [((s.cell c).name, c)]⟩ := if_neg hc
    rw [if_neg h, if_neg hc, hinsert, outcome_bind_ok _ (outcome_set s _)]

/-- Cells can be entered exactly if their names are new and different. -/
theorem register_eq_ok_iff {r : RegistryId} (kind : String) : ∀ (cs : List CellId) {s t : Store α},
    r.index < s.registries.size →
    ((register r kind cs).outcome s = (.ok (), t) ↔
      (cs.map fun c => (s.cell c).name).Nodup ∧
        (∀ c ∈ cs, (s.cell c).name ∉ (s.registry r).names) ∧
        t = s.putRegistry r ⟨(s.registry r).entries ++ cs.map fun c => ((s.cell c).name, c)⟩)
  | [], s, t, hr => by
    have hself : s.putRegistry r ⟨(s.registry r).entries ++ []⟩ = s := by
      rw [List.append_nil]
      exact Store.putRegistry_registry hr
    have hnil : (register r kind []).outcome s = (.ok (), s) := rfl
    rw [hnil, List.map_nil, List.map_nil, hself, Prod.mk.injEq]
    simp [eq_comm]
  | c :: rest, s, t, hr => by
    rw [outcome_register_cons]
    by_cases h : (s.cell c).name ∈ (s.registry r).names
    · rw [if_pos h]
      constructor
      · simp
      · rintro ⟨-, hnew, -⟩
        exact absurd h (hnew c List.mem_cons_self)
    · set s' := s.putRegistry r ⟨(s.registry r).entries ++ [((s.cell c).name, c)]⟩ with hs'
      have hreg : s'.registry r = ⟨(s.registry r).entries ++ [((s.cell c).name, c)]⟩ := by
        rw [hs', Store.registry_putRegistry, if_pos ⟨rfl, hr⟩]
      have hnames : (s'.registry r).names = (s.registry r).names ++ [(s.cell c).name] := by
        rw [hreg]
        simp [Registry.names]
      have hr' : r.index < s'.registries.size := by
        rw [hs', Store.size_putRegistry]
        exact hr
      have hcell : ∀ d, s'.cell d = s.cell d := fun _ => rfl
      have hput : ∀ x, s'.putRegistry r x = s.putRegistry r x :=
        Store.putRegistry_putRegistry s r _
      rw [if_neg h, register_eq_ok_iff kind rest hr', hnames, hreg, hput]
      simp only [hcell, List.map_cons, List.nodup_cons, List.forall_mem_cons, List.mem_append,
        List.mem_singleton, List.mem_map, List.append_assoc, List.singleton_append]
      constructor
      · rintro ⟨hnodup, hnew, rfl⟩
        refine ⟨⟨?_, hnodup⟩, ⟨h, fun d hd hn => hnew d hd (.inl hn)⟩, rfl⟩
        rintro ⟨d, hd, hn⟩
        exact hnew d hd (.inr hn)
      · rintro ⟨⟨hnot, hnodup⟩, ⟨-, hnew⟩, rfl⟩
        refine ⟨hnodup, fun d hd hn => ?_, rfl⟩
        rcases hn with hn | hn
        · exact hnew d hd hn
        · exact hnot ⟨d, hd, hn⟩

/-- **A registry can be made of cells exactly if their names are different.** -/
theorem newRegistryOf_eq_ok_iff (kind : CellKind) (cs : List CellId) {s t : Store α}
    {r : RegistryId} :
    (newRegistryOf kind cs).outcome s = (.ok r, t) ↔
      (cs.map fun c => (s.cell c).name).Nodup ∧ r = ⟨s.registries.size⟩ ∧
        t = s.addRegistry ⟨cs.map fun c => ((s.cell c).name, c)⟩ := by
  have hplace : (⟨s.registries.size⟩ : RegistryId).index < (s.addRegistry .empty).registries.size := by
    rw [Store.size_addRegistry]
    exact Nat.lt_succ_self _
  have hempty : (s.addRegistry .empty).registry ⟨s.registries.size⟩ = .empty := by
    rw [Store.registry_addRegistry, if_pos rfl]
  have hrun : (register ⟨s.registries.size⟩ kind.word cs).outcome (s.addRegistry .empty) =
      (.ok (), t) ↔ (cs.map fun c => (s.cell c).name).Nodup ∧
        t = s.addRegistry ⟨cs.map fun c => ((s.cell c).name, c)⟩ := by
    rw [register_eq_ok_iff kind.word cs hplace, hempty, Store.putRegistry_addRegistry]
    exact and_congr_right fun _ => and_iff_right fun _ _ => List.not_mem_nil
  have hnew : (newRegistryOf kind cs).outcome s =
      (register ⟨s.registries.size⟩ kind.word cs >>= fun _ => pure ⟨s.registries.size⟩ :
        Run α RegistryId).outcome (s.addRegistry .empty) :=
    outcome_bind_ok _ (outcome_newRegistry .empty s)
  rw [hnew]
  constructor
  · intro h
    obtain ⟨⟨⟩, u, hu, hpure⟩ := outcome_bind_eq_ok h
    obtain ⟨hr, rfl⟩ := Prod.mk.inj hpure
    obtain ⟨hnodup, ht⟩ := hrun.mp hu
    exact ⟨hnodup, (Except.ok.inj hr).symm, ht⟩
  · rintro ⟨hnodup, rfl, ht⟩
    rw [outcome_bind_ok _ (hrun.mpr ⟨hnodup, ht⟩)]
    rfl

end Run

/-! ### Gathered cells -/

namespace Registry

variable {r : Registry} {name : CellId → String}

/-- Where every cell stands under its own name, the cells determine the names. -/
theorem map_cells_of_named (h : ∀ e ∈ r.entries, e.1 = name e.2) : r.cells.map name = r.names := by
  rw [cells, names, List.map_map]
  exact List.map_congr_left fun e he => (h e he).symm

theorem entries_of_named (h : ∀ e ∈ r.entries, e.1 = name e.2) :
    (⟨r.cells.map fun c => (name c, c)⟩ : Registry) = r := by
  rw [cells, List.map_map]
  congr 1
  conv_rhs => rw [← List.map_id r.entries]
  exact List.map_congr_left fun e he => Prod.ext (h e he).symm rfl

end Registry

/-- No two different cells have one name. -/
def Store.Unambiguous {α : Type} [Scalar α] (s : Store α) (cs : List CellId) : Prop :=
  ∀ c ∈ cs, ∀ d ∈ cs, (s.cell c).name = (s.cell d).name → c = d

instance {α : Type} [Scalar α] (s : Store α) (cs : List CellId) : Decidable (s.Unambiguous cs) := by
  unfold Store.Unambiguous
  infer_instance

namespace Run

variable {α : Type} [Scalar α]

theorem gather_cons (s : Store α) (c : CellId) (rest : List CellId) (found : Registry) :
    gather s (c :: rest) found =
      if (found.find? (s.cell c).name).getD c = c then
        gather s rest (found.setDefault (s.cell c).name c).2
      else .error (.twoCells (s.cell c).name) := by
  rw [← Registry.setDefault_fst]
  rfl

/-- Every gathered cell stands under its own name, and all names are different. -/
theorem gather_named {s : Store α} : ∀ {cs : List CellId} {found r : Registry},
    gather s cs found = .ok r →
      found.names.Nodup ∧ (∀ e ∈ found.entries, e.1 = (s.cell e.2).name) →
      r.names.Nodup ∧ ∀ e ∈ r.entries, e.1 = (s.cell e.2).name
  | [], found, r, h, hfound => by
    obtain rfl := Except.ok.inj h
    exact hfound
  | c :: rest, found, r, h, hfound => by
    rw [gather_cons] at h
    split_ifs at h
    refine gather_named h ⟨Registry.nodup_setDefault _ c hfound.1, fun e he => ?_⟩
    rcases Registry.mem_setDefault he with he | rfl
    · exact hfound.2 e he
    · rfl

/-- Cells that were gathered have different names. -/
theorem unambiguous_of_gather {s : Store α} {cs : List CellId} {found r : Registry}
    (h : gather s cs found = .ok r) : s.Unambiguous cs := by
  obtain ⟨-, hheld, -⟩ := gather_spec s cs h
  intro c hc d hd hname
  have hfind := hheld c hc
  rw [hname, hheld d hd] at hfind
  exact (Option.some.inj hfind).symm

/-- Where gathering stops, two different cells have the name that is refused. -/
theorem gather_eq_error {s : Store α} {e : Fault α} : ∀ {cs : List CellId} {found : Registry},
    gather s cs found = .error e → ∃ c ∈ cs, ∃ d, d ≠ c ∧ e = .twoCells (s.cell c).name ∧
      (found.find? (s.cell c).name = some d ∨ d ∈ cs ∧ (s.cell d).name = (s.cell c).name)
  | [], found, h => by simp [gather] at h
  | c :: rest, found, h => by
    rw [gather_cons] at h
    split_ifs at h with hheld
    · obtain ⟨a, ha, d, hne, he, hd⟩ := gather_eq_error h
      refine ⟨a, List.mem_cons_of_mem _ ha, d, hne, he, ?_⟩
      rcases hd with hd | ⟨hd, hname⟩
      · rw [Registry.find?_setDefault] at hd
        cases hf : found.find? (s.cell a).name with
        | some b =>
          rw [hf] at hd
          exact .inl hd
        | none =>
          rw [hf, Option.none_or] at hd
          split_ifs at hd with hname
          rw [← Option.some.inj hd]
          exact .inr ⟨List.mem_cons_self, hname.symm⟩
      · exact .inr ⟨List.mem_cons_of_mem _ hd, hname⟩
    · cases hf : found.find? (s.cell c).name with
      | none =>
        rw [hf] at hheld
        exact absurd rfl hheld
      | some d =>
        rw [hf] at hheld
        exact ⟨c, List.mem_cons_self, d, hheld, (Except.error.inj h).symm, .inl hf⟩

end Run

/-! ### Sums -/

section

variable {α : Type} [Scalar α]

/-- The cells of the coefficients of terms, and the parameters of what they multiply. -/
def Store.termCells (s : Store α) (terms : List (CellId × CellId × Amplitude α)) : List CellId :=
  terms.flatMap fun (re, im, a) => re :: im :: (s.registry a.pars).cells

/-- A sum of terms was made over a new registry, which holds exactly the cells of its
terms, each under its name; nothing else has changed. -/
structure Store.NewSum (s t : Store α) (terms : List (CellId × CellId × Amplitude α))
    (a : Amplitude α) : Prop where
  shape : a = .sum ⟨s.registries.size⟩
    (.ofList (terms.map fun (re, im, b) => ((s.cell re).name, (s.cell im).name, b)))
  distinct : (t.registry a.pars).names.Nodup
  find? : ∀ n c, (t.registry a.pars).find? n = some c ↔
    c ∈ s.termCells terms ∧ (s.cell c).name = n
  unchanged : ∃ x, t = s.addRegistry x

/-- Before the sum is made, its cells are gathered. -/
theorem Run.outcome_newSum (s : Store α) (terms : List (CellId × CellId × Amplitude α)) :
    (newSum terms).outcome s =
      (reading (fun _ => gather s (s.termCells terms) .empty) >>= fun found =>
        newRegistryOf .parameter found.cells >>= fun r =>
          pure (.sum r (.ofList (terms.map fun (re, im, b) =>
            ((s.cell re).name, (s.cell im).name, b)))) : Run α (Amplitude α)).outcome s :=
  outcome_bind_ok _ (outcome_get s)

theorem Run.newSum_of_gather {s : Store α} {terms : List (CellId × CellId × Amplitude α)}
    {found : Registry} (h : gather s (s.termCells terms) .empty = .ok found) :
    ∃ a, (newSum terms).outcome s = (.ok a, s.addRegistry found) ∧
      s.NewSum (s.addRegistry found) terms a := by
  obtain ⟨-, hheld, hfrom⟩ := gather_spec s _ h
  obtain ⟨hnodup, hnamed⟩ := gather_named h ⟨List.nodup_nil, by simp [Registry.empty]⟩
  have hregistry : (newRegistryOf .parameter found.cells).outcome s =
      (.ok ⟨s.registries.size⟩, s.addRegistry found) := by
    refine (newRegistryOf_eq_ok_iff .parameter found.cells).mpr ⟨?_, rfl, ?_⟩
    · rwa [Registry.map_cells_of_named hnamed]
    · rw [Registry.entries_of_named hnamed]
  set a : Amplitude α := .sum ⟨s.registries.size⟩
    (.ofList (terms.map fun (re, im, b) => ((s.cell re).name, (s.cell im).name, b))) with ha
  have hfound : (s.addRegistry found).registry a.pars = found := by
    rw [Store.registry_addRegistry, ha]
    exact if_pos rfl
  refine ⟨a, ?_, ha, by rwa [hfound], fun n c => ?_, found, rfl⟩
  · rw [outcome_newSum, h]
    exact (outcome_reading_bind_ok _ rfl).trans (outcome_bind_ok _ hregistry)
  · rw [hfound]
    constructor
    · intro hfind
      have hmem := Registry.mem_entries_of_find? hfind
      exact ⟨(hfrom _ hmem).resolve_left (by simp [Registry.empty]), (hnamed _ hmem).symm⟩
    · rintro ⟨hc, rfl⟩
      exact hheld c hc

/-- **A sum can be made or is refused.** If no two different cells among those of its terms
have one name, it is made over all of them; otherwise the refusal names such a name. -/
theorem Run.newSum_cases (s : Store α) (terms : List (CellId × CellId × Amplitude α)) :
    (s.Unambiguous (s.termCells terms) ∧
      ∃ a t, (newSum terms).outcome s = (.ok a, t) ∧ s.NewSum t terms a) ∨
    ∃ c ∈ s.termCells terms, ∃ d ∈ s.termCells terms, d ≠ c ∧ (s.cell d).name = (s.cell c).name ∧
      (newSum terms).outcome s = (.error (.twoCells (s.cell c).name), s) := by
  cases hgather : gather s (s.termCells terms) .empty with
  | ok found =>
    obtain ⟨a, ha, hnew⟩ := newSum_of_gather hgather
    exact .inl ⟨unambiguous_of_gather hgather, a, _, ha, hnew⟩
  | error e =>
    obtain ⟨c, hc, d, hne, rfl, hd | ⟨hd, hname⟩⟩ := gather_eq_error hgather
    · simp at hd
    · refine .inr ⟨c, hc, d, hd, hne, hname, ?_⟩
      rw [outcome_newSum, hgather]
      exact outcome_bind_error _ (outcome_reading _ s)

theorem Run.newSum_ok {s t : Store α} {terms : List (CellId × CellId × Amplitude α)}
    {a : Amplitude α} (h : (newSum terms).outcome s = (.ok a, t)) : s.NewSum t terms a := by
  rcases newSum_cases s terms with ⟨-, b, u, hu, hnew⟩ | ⟨c, -, d, -, -, -, herror⟩
  · rw [hu] at h
    obtain ⟨hb, rfl⟩ := Prod.mk.inj h
    rwa [← Except.ok.inj hb]
  · rw [herror] at h
    simp at h

/-- **A sum can be made exactly if its cells are unambiguous.** -/
theorem Run.exists_newSum_iff (s : Store α) (terms : List (CellId × CellId × Amplitude α)) :
    (∃ a t, (newSum terms).outcome s = (.ok a, t)) ↔ s.Unambiguous (s.termCells terms) := by
  rcases newSum_cases s terms with ⟨hcells, a, t, ht, -⟩ | ⟨c, hc, d, hd, hne, hname, herror⟩
  · exact iff_of_true ⟨a, t, ht⟩ hcells
  · refine iff_of_false ?_ fun h => hne (h d hd c hc hname)
    rintro ⟨a, t, h⟩
    rw [herror] at h
    simp at h

end

end DensityAlgebra
