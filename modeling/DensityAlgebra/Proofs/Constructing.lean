/-
# Newly made objects are valid

Each constructor adds to the store what its object needs and leaves the rest as it
is, whether it succeeds or is refused; what it makes is valid. A new registry
holds exactly the cells it was made of, each under its name. The registry of a sum
has the cells of all its terms, so the topmost node of an amplitude holds the
cells of all nodes, and the head of a decay density those of its amplitude.

Key definitions: `Store.NewRegistry`.
Key theorems: `Run.newRegistryOf_spec`, `Run.newSum_spec`, `Run.newGaussian_spec`,
`Run.newUniform_spec`, `Run.newFormula_spec`, `Run.newWeight_spec`,
`Decay.cache_spec`, `Run.newDecay_spec`.
-/
import DensityAlgebra.Proofs.Reading

namespace DensityAlgebra

variable {α : Type} [Scalar α]

/-! ### Registries of given cells -/

/-- A registry was added that holds the listed cells under their names; nothing else
has changed. -/
structure Store.NewRegistry (s t : Store α) (cs : List CellId) (r : RegistryId) : Prop
    extends Store.Extends s t where
  place : r.index = s.registries.size
  size : t.registries.size = s.registries.size + 1
  sameCells : t.cells = s.cells
  sameStates : t.states = s.states
  heldNames : (t.registry r).names = cs.map fun c => (s.cell c).name
  find? : ∀ n c, (t.registry r).find? n = some c ↔ c ∈ cs ∧ (s.cell c).name = n

theorem Store.Holds.insert {s : Store α} {r : Registry} {c : CellId} (h : s.Holds r)
    (hc : c.index < s.cells.size) : s.Holds (r.insert (s.cell c).name c) := by
  have hentry : ∀ n d, (n, d) ∈ (r.insert (s.cell c).name c).entries →
      (n, d) ∈ r.entries ∨ n = (s.cell c).name ∧ d = c := fun n d hd =>
    (Registry.mem_insert hd).imp id Prod.mk.inj
  refine ⟨Registry.nodup_insert _ _ h.distinct, fun n d hd => ?_, fun n d hd => ?_⟩
  · rcases hentry n d hd with hd | ⟨-, rfl⟩
    · exact h.bounded n d hd
    · exact hc
  · rcases hentry n d hd with hd | ⟨rfl, rfl⟩
    · exact h.named n d hd
    · rfl

theorem Store.Holds.setDefault {s : Store α} {r : Registry} {n : String} {c : CellId}
    (h : s.Holds r) (hc : c.index < s.cells.size) (hn : (s.cell c).name = n) :
    s.Holds (r.setDefault n c).2 := by
  have hentry : ∀ m d, (m, d) ∈ (r.setDefault n c).2.entries →
      (m, d) ∈ r.entries ∨ m = n ∧ d = c := fun m d hd =>
    (Registry.mem_setDefault hd).imp id Prod.mk.inj
  refine ⟨Registry.nodup_setDefault n c h.distinct, fun m d hd => ?_, fun m d hd => ?_⟩
  · rcases hentry m d hd with hd | ⟨-, rfl⟩
    · exact h.bounded m d hd
    · exact hc
  · rcases hentry m d hd with hd | ⟨rfl, rfl⟩
    · exact h.named m d hd
    · exact hn

namespace Run

/-- Cells are entered one after the other, up to one whose name is taken. -/
theorem register_spec {b : Store α} {r : RegistryId} (kind : String)
    (hr : b.registries.size ≤ r.index) : ∀ (cs : List CellId) {s : Store α}, b.Extends s →
    r.index < s.registries.size → (∀ c ∈ cs, c.index < s.cells.size) →
    (register r kind cs).Ends s
      (fun _ t => b.Extends t ∧ t.registries.size = s.registries.size ∧ t.cells = s.cells ∧
        t.states = s.states ∧
        (t.registry r).names = (s.registry r).names ++ cs.map (fun c => (s.cell c).name) ∧
        ∀ n c, (t.registry r).find? n = some c ↔
          (s.registry r).find? n = some c ∨ c ∈ cs ∧ (s.cell c).name = n)
      b.Extends
  | [], s, hs, _, _ => ends_pure ⟨hs, rfl, rfl, rfl, by simp, by simp⟩
  | c :: rest, s, hs, hb, hc => by
    rw [List.forall_mem_cons] at hc
    refine ends_get_bind ?_
    refine ends_ite (fun _ => ends_throw hs) fun hnew => ?_
    set s' := s.putRegistry r ((s.registry r).insert (s.cell c).name c) with hs'
    have hext : b.Extends s' := hs.putRegistry hr ((hs.sound r).insert hc.1)
    have hreg : s'.registry r = (s.registry r).insert (s.cell c).name c := by
      rw [hs', Store.registry_putRegistry, if_pos ⟨rfl, hb⟩]
    have hsize : s'.registries.size = s.registries.size := Store.size_putRegistry _ _ _
    refine ends_ok_bind (outcome_set s s') ?_
    refine (register_spec kind hr rest hext (hsize ▸ hb) hc.2).mono ?_ fun _ h => h
    rintro ⟨⟩ t ⟨h1, h2, h3, h4, hnames, h5⟩
    have hfresh : (s.cell c).name ∉ (s.registry r).names := fun hn =>
      hnew (Registry.contains_iff.mpr hn)
    refine ⟨h1, h2.trans hsize, h3, h4, ?_, fun n d => ?_⟩
    · rw [hnames, hreg, Registry.names_insert, if_neg hfresh, List.append_assoc]
      rfl
    have hnone : (s.registry r).find? (s.cell c).name = none := Registry.find?_eq_none.mpr hfresh
    rw [h5, hreg, Registry.find?_insert, List.mem_cons]
    show _ ∨ d ∈ rest ∧ (s.cell d).name = n ↔ _
    by_cases hn : n = (s.cell c).name
    · rw [if_pos hn, hn, hnone, Option.some.injEq]
      constructor
      · rintro (rfl | ⟨hd, hdn⟩)
        · exact .inr ⟨.inl rfl, rfl⟩
        · exact .inr ⟨.inr hd, hdn⟩
      · rintro (h | ⟨rfl | hd, hdn⟩)
        · simp at h
        · exact .inl rfl
        · exact .inr ⟨hd, hdn⟩
    · rw [if_neg hn]
      constructor
      · rintro (h | ⟨hd, hdn⟩)
        · exact .inl h
        · exact .inr ⟨.inr hd, hdn⟩
      · rintro (h | ⟨rfl | hd, hdn⟩)
        · exact .inl h
        · exact absurd hdn.symm hn
        · exact .inr ⟨hd, hdn⟩

/-- **A new registry holds the cells that it was made of.** -/
theorem newRegistryOf_spec {s : Store α} (hs : s.Sound) (kind : CellKind) {cs : List CellId}
    (hc : ∀ c ∈ cs, c.index < s.cells.size) :
    (newRegistryOf kind cs).Ends s (fun r t => s.NewRegistry t cs r) s.Extends := by
  set s' := s.addRegistry .empty with hs'
  have hext : s.Extends s' := (Store.Extends.refl hs).addRegistry (Store.holds_empty s)
  have hempty : s'.registry ⟨s.registries.size⟩ = .empty := by
    rw [hs', Store.registry_addRegistry, if_pos rfl]
  have hsize : s'.registries.size = s.registries.size + 1 := Store.size_addRegistry _ _
  refine ends_ok_bind (outcome_newRegistry .empty s) ?_
  refine (register_spec kind.word (r := ⟨s.registries.size⟩) le_rfl cs hext
    (hsize ▸ Nat.lt_succ_self _) hc).bind ?_
  rintro ⟨⟩ t ⟨h1, h2, h3, h4, hnames, h5⟩
  rw [hempty] at hnames
  refine ends_pure
    { h1 with
      place := rfl
      size := h2.trans hsize
      sameCells := h3
      sameStates := h4
      heldNames := hnames
      find? := fun n c => ?_ }
  rw [h5, hempty]
  simp only [Registry.find?_empty, reduceCtorEq, false_or]
  rfl

/-! ### Amplitudes -/

theorem newFlat_spec {s : Store α} (hs : s.Sound) (z : ComplexNumber α) :
    (newFlat z).Ends s (fun a t => s.Extends t ∧ a.Valid t) s.Extends := by
  have hext : s.Extends (s.addRegistry .empty) :=
    (Store.Extends.refl hs).addRegistry (Store.holds_empty s)
  refine ends_ok_bind (outcome_newRegistry .empty s) (ends_pure ⟨hext, ?_, ?_⟩)
  · intro r hr
    rw [List.mem_singleton.mp hr, Store.size_addRegistry]
    exact Nat.lt_succ_self _
  · intro r hr
    rw [List.mem_singleton.mp hr]
    exact Registry.Under.refl _

theorem newResonance_spec {s : Store α} (hs : s.Sound) {mass width : CellId}
    (hm : mass.index < s.cells.size) (hw : width.index < s.cells.size) (channel : String) :
    (newResonance mass width channel).Ends s (fun a t => s.Extends t ∧ a.Valid t) s.Extends := by
  have hbounded : ∀ c ∈ [mass, width], c.index < s.cells.size := by
    simp only [List.forall_mem_cons, List.not_mem_nil, false_imp_iff, implies_true, and_true]
    exact ⟨hm, hw⟩
  refine ends_reading_bind (Store.Extends.refl hs) fun pair _ => ?_
  refine (newRegistryOf_spec hs .parameter hbounded).bind fun r t ht => ?_
  refine ends_get_bind (ends_pure ⟨ht.toExtends, ?_, ?_⟩)
  · intro q hq
    rw [List.mem_singleton.mp hq, ht.place, ht.size]
    exact Nat.lt_succ_self _
  · intro q hq
    rw [List.mem_singleton.mp hq]
    exact Registry.Under.refl _

/-- What was gathered holds all the cells under their names, and nothing else. -/
theorem gather_spec (s : Store α) : ∀ (cs : List CellId) {found r : Registry},
    gather s cs found = .ok r → found.Under r ∧ (∀ c ∈ cs, r.find? (s.cell c).name = some c) ∧
      ∀ e ∈ r.entries, e ∈ found.entries ∨ e.2 ∈ cs
  | [], found, r, h => by
    obtain rfl := Except.ok.inj h
    exact ⟨Registry.Under.refl _, by simp, fun e he => .inl he⟩
  | c :: rest, found, r, h => by
    unfold gather at h
    simp only at h
    split_ifs at h with hheld
    obtain ⟨h1, h2, h3⟩ := gather_spec s rest h
    have hdef : (found.setDefault (s.cell c).name c).2.find? (s.cell c).name = some c := by
      rw [Registry.setDefault_fst] at hheld
      rw [Registry.find?_setDefault, if_pos rfl]
      cases hf : found.find? (s.cell c).name with
      | none => rfl
      | some d =>
        rw [hf] at hheld
        rw [← hheld]
        rfl
    refine ⟨fun n d hd => h1 n d ?_, ?_, fun e he => ?_⟩
    · rw [Registry.find?_setDefault, hd]
      rfl
    · rw [List.forall_mem_cons]
      exact ⟨h1 _ _ hdef, h2⟩
    · rcases h3 e he with he | he
      · rcases Registry.mem_setDefault he with he | rfl
        · exact .inl he
        · exact .inr List.mem_cons_self
      · exact .inr (List.mem_cons_of_mem _ he)

theorem gather_holds {s : Store α} : ∀ {cs : List CellId} {found r : Registry},
    s.Holds found → (∀ c ∈ cs, c.index < s.cells.size) → gather s cs found = .ok r → s.Holds r
  | [], found, r, hf, _, h => by
    obtain rfl := Except.ok.inj h
    exact hf
  | c :: rest, found, r, hf, hc, h => by
    rw [List.forall_mem_cons] at hc
    unfold gather at h
    simp only at h
    split_ifs at h
    exact gather_holds (hf.setDefault hc.1 rfl) hc.2 h

end Run

omit [Scalar α] in
theorem Amplitude.Terms.mem_registries_ofList {r : RegistryId} :
    ∀ {ts : List (String × String × Amplitude α)},
      r ∈ (Amplitude.Terms.ofList ts).registries ↔ ∃ e ∈ ts, r ∈ e.2.2.registries
  | [] => by simp [Amplitude.Terms.ofList, Amplitude.Terms.registries]
  | (re, im, factor) :: rest => by
    show r ∈ factor.registries ++ (Amplitude.Terms.ofList rest).registries ↔ _
    rw [List.mem_append, Amplitude.Terms.mem_registries_ofList]
    simp

omit [Scalar α] in
/-- Terms that are named have the registries of the amplitudes that were given. -/
theorem Amplitude.Terms.exists_of_mem_registries {terms : List (CellId × CellId × Amplitude α)}
    {f : CellId × CellId × Amplitude α → String × String × Amplitude α}
    (hf : ∀ e, (f e).2.2 = e.2.2) {q : RegistryId}
    (hq : q ∈ (Amplitude.Terms.ofList (terms.map f)).registries) :
    ∃ e ∈ terms, q ∈ e.2.2.registries := by
  obtain ⟨e, he, hq⟩ := mem_registries_ofList.mp hq
  obtain ⟨e', he', rfl⟩ := List.mem_map.mp he
  exact ⟨e', he', hf e' ▸ hq⟩

/-- **A sum holds the cells of all its terms.** -/
theorem Run.newSum_spec {s : Store α} (hs : s.Sound) {terms : List (CellId × CellId × Amplitude α)}
    (hterms : ∀ e ∈ terms, e.1.index < s.cells.size ∧ e.2.1.index < s.cells.size ∧ e.2.2.Valid s) :
    (newSum terms).Ends s (fun a t => s.Extends t ∧ a.Valid t) s.Extends := by
  refine ends_get_bind ?_
  set cs := terms.flatMap _
  have hbounded : ∀ c ∈ cs, c.index < s.cells.size := by
    intro c hc
    obtain ⟨⟨re, im, a⟩, he, hc⟩ := List.mem_flatMap.mp hc
    obtain ⟨h1, h2, h3⟩ := hterms _ he
    rcases List.mem_cons.mp hc with rfl | hc
    · exact h1
    rcases List.mem_cons.mp hc with rfl | hc
    · exact h2
    obtain ⟨n, hn⟩ := Registry.mem_cells_iff.mp hc
    exact (hs a.pars).bounded n c hn
  refine ends_reading_bind (Store.Extends.refl hs) fun found hfound => ?_
  obtain ⟨-, hnamed, hfrom⟩ := gather_spec s cs hfound
  have hcells : ∀ c ∈ found.cells, c ∈ cs := by
    intro c hc
    obtain ⟨n, hn⟩ := Registry.mem_cells_iff.mp hc
    rcases hfrom _ hn with h | h
    · simp [Registry.empty] at h
    · exact h
  refine (newRegistryOf_spec hs .parameter fun c hc => hbounded c (hcells c hc)).bind ?_
  intro r u hu
  have hold : ∀ e ∈ terms, ∀ q ∈ e.2.2.registries, q.index < s.registries.size := fun e he =>
    (hterms e he).2.2.bounded
  refine ends_pure ⟨hu.toExtends, fun q hq => ?_, fun q hq => ?_⟩
  · rcases List.mem_cons.mp hq with rfl | hq
    · rw [hu.place, hu.size]
      exact Nat.lt_succ_self _
    · obtain ⟨e, he, hq⟩ := Amplitude.Terms.exists_of_mem_registries (fun _ => rfl) hq
      exact (hold e he q hq).trans_le hu.moreRegistries
  · rcases List.mem_cons.mp hq with rfl | hq
    · exact Registry.Under.refl _
    · obtain ⟨e, he, hq⟩ := Amplitude.Terms.exists_of_mem_registries (fun _ => rfl) hq
      have hval := (hterms e he).2.2
      intro n c hc
      rw [hu.registries q (hold e he q hq)] at hc
      have htop := hval.under q hq n c hc
      have hmem : c ∈ cs := List.mem_flatMap.mpr ⟨e, he, List.mem_cons_of_mem _
        (List.mem_cons_of_mem _ (Registry.mem_cells_of_find? htop))⟩
      have hname : (s.cell c).name = n := (hs _).find?_named htop
      refine (hu.find? n c).mpr ⟨?_, hname⟩
      exact Registry.mem_cells_of_find? (hnamed c hmem)

/-! ### Heads and weight functions -/

/-- A new head has a registry of variables and one of parameters. -/
structure Store.NewHead (s t : Store α) (varCells parCells : List CellId) (h : Head) : Prop
    extends Store.Extends s t where
  varPlace : h.vars.index = s.registries.size
  parPlace : h.pars.index = s.registries.size + 1
  size : t.registries.size = s.registries.size + 2
  sameCells : t.cells = s.cells
  sameStates : t.states = s.states
  varNames : (t.registry h.vars).names = varCells.map fun c => (s.cell c).name
  findPar? : ∀ n c, (t.registry h.pars).find? n = some c ↔ c ∈ parCells ∧ (s.cell c).name = n

theorem Store.NewRegistry.head {s u t : Store α} {varCells parCells : List CellId}
    {vars pars : RegistryId} (h : s.NewRegistry u varCells vars)
    (h' : u.NewRegistry t parCells pars) (name : String) :
    s.NewHead t varCells parCells ⟨name, vars, pars⟩ where
  toExtends := h.toExtends.trans h'.toExtends
  varPlace := h.place
  parPlace := h'.place.trans h.size
  size := by rw [h'.size, h.size]
  sameCells := h'.sameCells.trans h.sameCells
  sameStates := h'.sameStates.trans h.sameStates
  varNames := by
    rw [h'.registries vars (by rw [h.place, h.size]; exact Nat.lt_succ_self _)]
    exact h.heldNames
  findPar? n c := by
    rw [h'.find? n c, Store.cell_congr h.sameCells]

theorem Store.NewHead.cell {s t : Store α} {varCells parCells : List CellId} {h : Head}
    (hh : s.NewHead t varCells parCells h) (c : CellId) : t.cell c = s.cell c :=
  cell_congr hh.sameCells c

/-- A head has the names of its cells. -/
theorem Store.NewHead.mem_varNames {s t : Store α} {varCells parCells : List CellId} {h : Head}
    (hh : s.NewHead t varCells parCells h) {c : CellId} (hc : c ∈ varCells) :
    (t.cell c).name ∈ (t.registry h.vars).names := by
  rw [hh.varNames, hh.cell]
  exact List.mem_map_of_mem hc

theorem Store.NewHead.mem_parNames {s t : Store α} {varCells parCells : List CellId} {h : Head}
    (hh : s.NewHead t varCells parCells h) {c : CellId} (hc : c ∈ parCells) :
    (t.cell c).name ∈ (t.registry h.pars).names :=
  Registry.mem_names_of_find? ((hh.findPar? _ c).mpr ⟨hc, (congrArg Cell.name (hh.cell c)).symm⟩)

theorem Store.NewHead.ne {s t : Store α} {varCells parCells : List CellId} {h : Head}
    (hh : s.NewHead t varCells parCells h) : h.vars ≠ h.pars := by
  intro he
  have h1 := hh.varPlace
  have h2 := hh.parPlace
  rw [he] at h1
  omega

/-- What follows the making of two registries may use them as a head. -/
theorem Run.ends_newRegistries {β : Type} {s : Store α} (hs : s.Sound) (name : String)
    {varCells parCells : List CellId} (hv : ∀ c ∈ varCells, c.index < s.cells.size)
    (hp : ∀ c ∈ parCells, c.index < s.cells.size) {k : RegistryId → RegistryId → Run α β}
    {Q : β → Store α → Prop}
    (hk : ∀ vars pars t, s.NewHead t varCells parCells ⟨name, vars, pars⟩ →
      (k vars pars).Ends t Q s.Extends) :
    (newRegistryOf .variable varCells >>= fun vars =>
      newRegistryOf .parameter parCells >>= fun pars => k vars pars).Ends s Q s.Extends := by
  refine (newRegistryOf_spec hs .variable hv).bind fun vars u hu => ?_
  have hp' : ∀ c ∈ parCells, c.index < u.cells.size := fun c hc => by
    rw [hu.sameCells]
    exact hp c hc
  exact ((newRegistryOf_spec hu.sound .parameter hp').mono (fun _ _ h => h)
    fun t ht => hu.toExtends.trans ht).bind fun pars t ht => hk vars pars t (hu.head ht name)

theorem Run.newHead_spec {s : Store α} (hs : s.Sound) (name : String)
    (varCells parCells : List CellId) (hv : ∀ c ∈ varCells, c.index < s.cells.size)
    (hp : ∀ c ∈ parCells, c.index < s.cells.size) :
    (newHead name varCells parCells).Ends s (fun h t => s.NewHead t varCells parCells h)
      s.Extends :=
  ends_newRegistries hs name hv hp fun _ _ _ hh => ends_pure hh

/-- A density without parts is linked as soon as its head is there. -/
theorem Store.NewHead.linked {s t : Store α} {varCells parCells : List CellId} {m : Model α}
    (hh : s.NewHead t varCells parCells m.head) (hv : m.partVars = []) (hp : m.partPars = []) :
    m.Linked t := by
  have hvar : m.varRegistries = [m.head.vars] := by rw [Model.varRegistries, hv]
  have hpar : m.parRegistries = [m.head.pars] := by rw [Model.parRegistries, hp]
  refine ⟨fun r hr => ?_, fun r hr => ?_, by rw [hv]; simp, by rw [hp]; simp, fun r hr => ?_,
    fun r hr => ?_⟩
  · have h1 := hh.varPlace
    have h2 := hh.parPlace
    have h3 := hh.size
    rw [Model.mem_registries, hvar, hpar, List.mem_singleton, List.mem_singleton] at hr
    rcases hr with rfl | rfl <;> omega
  · rw [hvar, List.mem_singleton] at hr
    rw [hpar, List.mem_singleton, hr]
    exact hh.ne
  · rw [hvar, List.mem_singleton] at hr
    rw [hr]
    exact Registry.Under.refl _
  · rw [hpar, List.mem_singleton] at hr
    rw [hr]
    exact Registry.Under.refl _

namespace Run

theorem newGaussian_spec {s : Store α} (hs : s.Sound) (name : String) {x mu sigma : CellId}
    (hx : x.index < s.cells.size) (hm : mu.index < s.cells.size)
    (hw : sigma.index < s.cells.size) :
    (newGaussian name x mu sigma).Ends s (fun m t => s.Extends t ∧ m.Valid t) s.Extends := by
  refine (newHead_spec hs name [x] [mu, sigma] ?_ ?_).bind ?_
  · simpa using hx
  · simpa using ⟨hm, hw⟩
  · intro h t ht
    refine ends_get_bind (ends_pure ⟨ht.toExtends, Store.NewHead.linked ht rfl rfl,
      by simp [Model.states], ?_, ?_, ?_⟩)
    · exact ht.mem_varNames List.mem_cons_self
    · exact ht.mem_parNames List.mem_cons_self
    · exact ht.mem_parNames (List.mem_cons_of_mem _ List.mem_cons_self)

theorem newUniform_spec {s : Store α} (hs : s.Sound) (name : String) {x : CellId} (lo hi : α)
    (hx : x.index < s.cells.size) :
    (newUniform name x lo hi).Ends s (fun m t => s.Extends t ∧ m.Valid t) s.Extends := by
  unfold newUniform
  refine ends_guard (Store.Extends.refl hs) fun _ => ?_
  refine (newHead_spec hs name [x] [] ?_ (by simp)).bind ?_
  · simpa using hx
  · intro h t ht
    exact ends_get_bind (ends_pure ⟨ht.toExtends, Store.NewHead.linked ht rfl rfl,
      by simp [Model.states], ht.mem_varNames List.mem_cons_self⟩)

theorem newFormula_spec {s : Store α} (hs : s.Sound) (name : String)
    {varCells parCells : List CellId} (hv : ∀ c ∈ varCells, c.index < s.cells.size)
    (hp : ∀ c ∈ parCells, c.index < s.cells.size) (body : Formula α) :
    (newFormula name varCells parCells body).Ends s (fun m t => s.Extends t ∧ m.Valid t)
      s.Extends := by
  refine (newHead_spec hs name varCells parCells hv hp).bind fun h t ht => ?_
  set u : Store α := { t with counters := t.counters.push 0 } with hu
  have hsame : t.Same u := ⟨rfl, rfl, rfl⟩
  have hcount : (newCounter 0 : Run α CounterId).outcome t = (.ok ⟨t.counters.size⟩, u) := rfl
  refine ends_ok_bind hcount (ends_pure ⟨ht.toExtends.of_same hsame, ?_⟩)
  refine Model.Valid.grows (s := t) ?_ (hsame.within (C := ∅) (D := ∅)).toGrows
  exact ⟨Store.NewHead.linked ht rfl rfl, by simp [Model.states], trivial⟩

theorem newWeight_spec {s : Store α} (hs : s.Sound) (name : String) (args : List Argument)
    (body : Formula α) {varCells parCells : List CellId}
    (hv : ∀ c ∈ varCells, c.index < s.cells.size) (hp : ∀ c ∈ parCells, c.index < s.cells.size) :
    (newWeight name args body varCells parCells).Ends s (fun w t => s.Extends t ∧ w.Valid t)
      s.Extends := by
  unfold newWeight
  refine ends_guard (Store.Extends.refl hs) fun _ => ?_
  refine ends_newRegistries hs name hv hp fun vars pars t hh => ?_
  refine ends_reading_bind hh.toExtends fun declared _ => ?_
  refine ends_get_bind (ends_guard hh.toExtends fun _ => ends_guard hh.toExtends fun _ => ?_)
  refine ends_pure ⟨hh.toExtends, fun r hr => ?_, hh.ne⟩
  have h1 : vars.index = s.registries.size := hh.varPlace
  have h2 : pars.index = s.registries.size + 1 := hh.parPlace
  have h3 := hh.size
  have hr' : r = vars ∨ r = pars := by simpa [Weight.registries] using hr
  rcases hr' with rfl | rfl <;> omega

end Run

/-! ### Stored normalizations -/

/-- The store where a decay density stores another normalization. -/
def Store.withNorm (s : Store α) (d : StateId) (x : α) : Store α :=
  s.putState d { s.state d with norm := x }

theorem Store.state_withNorm {s : Store α} {d : StateId} (h : d.index < s.states.size) (x : α) :
    (s.withNorm d x).state d = { s.state d with norm := x } := by
  unfold withNorm
  rw [state_putState, if_pos ⟨rfl, h⟩]

theorem Decay.cache_ok {d : Decay α} {s : Store α} {x : α} (h : d.integral s = .ok x) :
    ∃ t, d.cache.outcome s = (.ok ⟨⟩, t) ∧ (s.withNorm d.state x).Same t := by
  have hread : (Run.reading d.integral).outcome s = (.ok x, s) := by
    rw [Run.outcome_reading, h]
  unfold Decay.cache
  rw [Run.outcome_bind_ok _ hread]
  by_cases hbad : (!Scalar.lt 0.0 x) = true
  · rw [if_pos hbad]
    exact ⟨_, Run.outcome_bind_ok _ (Run.outcome_modify _ s), rfl, rfl, rfl⟩
  · rw [if_neg hbad]
    exact ⟨_, Run.outcome_modify _ s, rfl, rfl, rfl⟩

theorem Decay.cache_error {d : Decay α} {s : Store α} {e : Fault α} (h : d.integral s = .error e) :
    d.cache.outcome s = (.error e, s) :=
  Run.outcome_bind_error _ (by rw [Run.outcome_reading, h])

/-- **Renewing stores the integral**, and does nothing if the integral fails. -/
theorem Decay.cache_spec (d : Decay α) (s : Store α) :
    d.cache.Ends s (fun _ t => ∃ x, d.integral s = .ok x ∧ (s.withNorm d.state x).Same t)
      (fun t => t = s) := by
  cases h : d.integral s with
  | error e => exact Run.ends_of_error (Decay.cache_error h) rfl
  | ok x =>
    obtain ⟨t, ht, hsame⟩ := Decay.cache_ok h
    exact Run.ends_of_ok ht ⟨x, rfl, hsame⟩

/-! ### Decay densities -/

section

variable {s t v : Store α} {varCells : List CellId} {d : Decay α}

/-- An amplitude under a new head makes a linked density: its registries are older than
those of the head. -/
theorem Store.NewHead.decay_linked (hs : s.Sound)
    (hh : s.NewHead t varCells (s.registry d.amplitude.pars).cells d.head)
    (ha : d.amplitude.Valid s) (hw : d.weights = []) : (Model.decay d).Linked t := by
  have hparts : (Model.decay d).partPars = d.amplitude.registries := by
    simp [Model.partPars, hw]
  have hvars : (Model.decay d).varRegistries = [d.head.vars] := by
    simp [Model.varRegistries, Model.partVars, Model.head, hw]
  have hpars : (Model.decay d).parRegistries = d.head.pars :: d.amplitude.registries := by
    rw [Model.parRegistries, hparts]
    rfl
  have hold : ∀ r ∈ d.amplitude.registries, r.index < s.registries.size := ha.bounded
  have hvar := hh.varPlace
  have hpar := hh.parPlace
  have hsize := hh.size
  refine ⟨fun r hr => ?_, fun r hr hr' => ?_, ?_, fun hmem => ?_, fun r hr => ?_,
    fun r hr => ?_⟩
  · rw [Model.mem_registries, hvars, hpars, List.mem_singleton, List.mem_cons] at hr
    rcases hr with rfl | rfl | hr
    · omega
    · omega
    · have := hold r hr
      omega
  · rw [hvars, List.mem_singleton] at hr
    rw [hpars, List.mem_cons, hr] at hr'
    rcases hr' with he | hr'
    · exact hh.ne he
    · have := hold _ hr'
      omega
  · simp [Model.partVars, hw]
  · rw [hparts] at hmem
    have hlt : d.head.pars.index < s.registries.size := hold _ hmem
    omega
  · rw [hvars, List.mem_singleton] at hr
    rw [hr]
    exact Registry.Under.refl _
  · rw [hpars, List.mem_cons] at hr
    rcases hr with rfl | hr
    · exact Registry.Under.refl _
    · intro n c hc
      rw [hh.registries r (hold r hr)] at hc
      have htop := ha.under r hr n c hc
      refine (hh.findPar? n c).mpr ⟨?_, (hs _).find?_named htop⟩
      exact Registry.mem_cells_of_find? htop

/-- It is valid once it has a state, and its variables are those of its roles. -/
theorem Store.NewHead.decay_valid (hs : s.Sound)
    (hh : s.NewHead t varCells (s.registry d.amplitude.pars).cells d.head)
    (ha : d.amplitude.Valid s) (hw : d.weights = [])
    (hroles : d.roles = varCells.map fun c => (s.cell c).name) (hv : t.Grows v)
    (hstate : d.state.index < v.states.size) : (Model.decay d).Valid v := by
  have hlinked := hh.decay_linked hs ha hw
  have hold : ∀ r ∈ d.amplitude.registries, v.registry r = s.registry r := by
    intro r hr
    rw [hv.registries r ((ha.bounded r hr).trans_le hh.moreRegistries),
      hh.registries r (ha.bounded r hr)]
  refine ⟨hlinked.grows hv, fun e he => ?_, ?_, fun r hr => ?_⟩
  · rw [List.mem_singleton.mp he]
    exact hstate
  · have hbounded : d.head.vars.index < t.registries.size :=
      hlinked.bounded _ ((Model.decay d).varRegistries_subset (Model.decay d).head_vars_mem)
    rw [hv.registries _ hbounded, hroles]
    exact hh.varNames
  · show (v.registry r).names ⊆ (v.registry d.amplitude.pars).names
    rw [hold r hr, hold _ d.amplitude.pars_mem]
    exact (ha.under r hr).names_subset

end

/-- A new decay density is made of a copy of the amplitude and a new head, if it can be drawn
from and has an integral, which it stores. -/
theorem Run.newDecay_ok {s t u : Store α} {name : String} {m12 m13 m23 : CellId}
    {a b : Amplitude α} {h : Head} (space : PhaseSpace α) {n : Int} {envelope : α} (tries : Int)
    (source : SourceId) (hcopy : a.copy.outcome s = (.ok b, t))
    (hhead : (newHead name [m12, m13, m23] (t.registry b.pars).cells).outcome t = (.ok h, u))
    (hn : 1 ≤ n) (henvelope : Scalar.lt 0.0 envelope = true) :
    let d : Decay α := ⟨h, b, space, (t.cell m12).name, (t.cell m13).name, (t.cell m23).name, [],
      ⟨u.states.size⟩, source⟩
    let v := u.addState ⟨1.0, n, envelope, tries⟩
    ∀ x, d.integral v = .ok x →
      ∃ w, (newDecay name m12 m13 m23 a space (.ok n) envelope (.ok tries) source).outcome s =
        (.ok d, w) ∧ (v.withNorm d.state x).Same w := by
  intro d v x hx
  obtain ⟨w, hw, hsame⟩ := Decay.cache_ok hx
  refine ⟨w, ?_, hsame⟩
  unfold newDecay
  rw [outcome_bind_ok _ hcopy, outcome_bind_ok _ (outcome_get t), outcome_bind_ok _ hhead]
  refine (outcome_reading_bind_ok _ rfl).trans ?_
  refine (outcome_guard (n < 1) .badResolution _ u).trans ((if_neg (by omega)).trans ?_)
  refine (outcome_guard _ .badEnvelope _ u).trans ((if_neg (by simp [henvelope])).trans ?_)
  refine (outcome_reading_bind_ok _ rfl).trans ?_
  exact (outcome_bind_ok _ (outcome_newState _ u)).trans (outcome_bind_ok _ hw)

/-- **A new decay density is valid.** -/
theorem Run.newDecay_spec {s : Store α} (hs : s.Sound) (name : String) {m12 m13 m23 : CellId}
    {a : Amplitude α} (space : PhaseSpace α) (resolution : Except (Fault α) Int) (envelope : α)
    (maxAttempts : Except (Fault α) Int) (source : SourceId)
    (hc : ∀ c ∈ [m12, m13, m23], c.index < s.cells.size) (ha : a.Valid s) :
    (newDecay name m12 m13 m23 a space resolution envelope maxAttempts source).Ends s
      (fun d t => s.Extends t ∧ (Model.decay d).Valid t) s.Extends := by
  obtain ⟨t, f, g, ht, hap, hf⟩ := Amplitude.copy_spec hs a
  have ha' : (a.rename f).Valid t := ha.copied hf
  refine ends_ok_bind ht (ends_get_bind ?_)
  have hv : ∀ c ∈ [m12, m13, m23], c.index < t.cells.size := fun c h =>
    (hc c h).trans_le hap.moreCells
  have hp : ∀ c ∈ (t.registry (a.rename f).pars).cells, c.index < t.cells.size := by
    intro c h
    obtain ⟨n, hn⟩ := Registry.mem_cells_iff.mp h
    exact (hap.sound _).bounded n c hn
  refine ((newHead_spec hap.sound name _ _ hv hp).mono (fun _ _ h => h)
    fun u hu => hap.toExtends.trans hu).bind fun h u hu => ?_
  have hsu : s.Extends u := hap.toExtends.trans hu.toExtends
  refine ends_reading_bind hsu fun bins _ => ends_guard hsu fun _ => ends_guard hsu fun _ => ?_
  refine ends_reading_bind hsu fun tries _ => ends_ok_bind (outcome_newState _ u) ?_
  set v := u.addState ⟨1.0, bins, envelope, tries⟩ with hv'
  set d : Decay α :=
    { head := h
      amplitude := a.rename f
      space := space
      role12 := (t.cell m12).name
      role13 := (t.cell m13).name
      role23 := (t.cell m23).name
      weights := []
      state := ⟨u.states.size⟩
      source := source } with hd
  have hsv : s.Extends v := hsu.addState _
  have huv : u.Grows v := (Store.within_addState (C := ∅) (D := ∅) u _).toGrows
  have hvalid : (Model.decay d).Valid v := by
    refine Store.NewHead.decay_valid (d := d) hap.sound hu ha' rfl rfl huv ?_
    rw [hv', Store.size_addState]
    exact Nat.lt_succ_self _
  refine ((Decay.cache_spec d v).mono (fun _ _ h => h) fun w hw => hw ▸ hsv).bind ?_
  intro _ w hcached
  obtain ⟨x, -, hsame⟩ := hcached
  have hput : s.Extends (v.withNorm d.state x) := hsv.putState _ hsu.moreStates
  refine ends_pure ⟨hput.of_same hsame, ?_⟩
  exact (hvalid.grows (Store.grows_putState v _ _)).grows (hsame.within (C := ∅) (D := ∅)).toGrows

end DensityAlgebra
