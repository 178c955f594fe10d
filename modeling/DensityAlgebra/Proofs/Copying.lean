/-
# Copies are faithful and new

Copying registries makes a new registry for each of them and a new cell for each
cell that one of them holds. Equal references have equal copies and different ones
different copies, so what was shared stays shared and nothing else does; a new
cell has the content of the old one. `Store.Copied` says this of the renamings
that the copying yields.

Key definitions: `Store.addRegistries`, `Store.CopiedCells`, `Store.Copied`.
Key theorems: `Run.copyCells_copied`, `Run.copyCells_spec`,
`Run.copyRegistries_copied`, `Run.copyRegistries_spec`.
-/
import DensityAlgebra.Decay.Build
import DensityAlgebra.Proofs.Wiring
import Mathlib.Data.List.Basic
import Mathlib.Data.List.Forall2

namespace DensityAlgebra

/-! ### Fresh places -/

namespace Fresh

variable {base : Nat} {listed : List Nat}

theorem renaming_of_mem {i : Nat} (h : i ∈ listed) :
    Fresh.renaming base listed i = base + listed.idxOf i := by
  unfold Fresh.renaming
  rw [if_pos (List.contains_iff_mem.mpr h)]

theorem renaming_bounds {i : Nat} (h : i ∈ listed) :
    base ≤ Fresh.renaming base listed i ∧ Fresh.renaming base listed i < base + listed.length := by
  have := List.idxOf_lt_length_of_mem h
  rw [renaming_of_mem h]
  omega

theorem renaming_injective {i j : Nat} (hi : i ∈ listed) (hj : j ∈ listed)
    (h : Fresh.renaming base listed i = Fresh.renaming base listed j) : i = j := by
  rw [renaming_of_mem hi, renaming_of_mem hj] at h
  exact (List.idxOf_inj hi).mp (Nat.add_left_cancel h)

/-- What is added for a listed reference stands in its fresh place. -/
theorem getD_renaming {ι β : Type} {index : ι → Nat} (hinj : ∀ a b, index a = index b → a = b)
    {l : List ι} {x : ι} (hx : x ∈ l) (old : Array β) (f : ι → β) (d : β) :
    (old ++ (l.map f).toArray).getD (Fresh.renaming old.size (l.map index) (index x)) d = f x := by
  have hmem : index x ∈ l.map index := List.mem_map_of_mem hx
  have hlt : (l.map index).idxOf (index x) < (l.map index).length :=
    List.idxOf_lt_length_of_mem hmem
  have hlt' : (l.map index).idxOf (index x) < l.length := by rwa [List.length_map] at hlt
  have hget : l[(l.map index).idxOf (index x)] = x := by
    apply hinj
    have := List.getElem_idxOf hlt
    rwa [List.getElem_map] at this
  rw [renaming_of_mem hmem, getD_append_right, Array.getD_eq_getD_getElem?,
    List.getElem?_toArray, List.getElem?_map, List.getElem?_eq_getElem hlt', hget]
  rfl

end Fresh

/-! ### More registries -/

namespace Store

variable {α : Type} [Scalar α]

/-- The store with more registries. -/
def addRegistries (s : Store α) (new : List Registry) : Store α :=
  { s with registries := s.registries ++ new.toArray }

omit [Scalar α] in
theorem size_addRegistries (s : Store α) (new : List Registry) :
    (s.addRegistries new).registries.size = s.registries.size + new.length := by
  simp [addRegistries]

omit [Scalar α] in
theorem registry_addRegistries_of_lt {s : Store α} {r : RegistryId}
    (hr : r.index < s.registries.size) (new : List Registry) :
    (s.addRegistries new).registry r = s.registry r := getD_append_left _ hr

omit [Scalar α] in
/-- A registry beyond the old ones was added, or was never handed out. -/
theorem registry_addRegistries_of_le {s : Store α} {r : RegistryId}
    (hr : s.registries.size ≤ r.index) (new : List Registry) :
    (s.addRegistries new).registry r = .empty ∨ (s.addRegistries new).registry r ∈ new := by
  obtain ⟨i, hi⟩ := Nat.exists_eq_add_of_le hr
  have hget : (s.addRegistries new).registry r = new.toArray.getD i .empty := by
    unfold Store.registry addRegistries
    rw [hi, getD_append_right]
  rw [hget, Array.getD_eq_getD_getElem?, List.getElem?_toArray]
  by_cases hlt : i < new.length
  · rw [List.getElem?_eq_getElem hlt]
    exact .inr (List.getElem_mem hlt)
  · rw [List.getElem?_eq_none (Nat.le_of_not_lt hlt)]
    exact .inl rfl

theorem within_addRegistries (s : Store α) (new : List Registry) :
    Within ∅ ∅ s (s.addRegistries new) :=
  { Within.refl s with
    moreRegistries := by
      rw [size_addRegistries]
      omega
    registries := fun r hr => registry_addRegistries_of_lt hr new }

/-! ### Copied cells and registries -/

/-- The cells are copied to new ones, each to one of its own. -/
structure CopiedCells (s t : Store α) (cs : List CellId) (g : CellId → CellId) : Prop where
  cell : ∀ c ∈ cs, t.cell (g c) = s.cell c
  fresh : ∀ c ∈ cs, s.cells.size ≤ (g c).index ∧ (g c).index < t.cells.size
  injective : ∀ c ∈ cs, ∀ d ∈ cs, g c = g d → c = d

/-- The registries are copied to new ones over the copies of their cells. -/
structure Copied (s t : Store α) (rs : List RegistryId) (f : RegistryId → RegistryId)
    (g : CellId → CellId) : Prop where
  registry : ∀ r ∈ rs, t.registry (f r) = (s.registry r).rename g
  fresh : ∀ r ∈ rs, s.registries.size ≤ (f r).index ∧ (f r).index < t.registries.size
  injective : ∀ r ∈ rs, ∀ q ∈ rs, f r = f q → r = q
  cells : CopiedCells s t (rs.flatMap fun r => (s.registry r).cells) g

theorem Holds.copied {s t : Store α} {r : Registry} {g : CellId → CellId} (h : s.Holds r)
    (hg : CopiedCells s t r.cells g) : t.Holds (r.rename g) := by
  have hentry : ∀ n c, (n, c) ∈ (r.rename g).entries → ∃ d, (n, d) ∈ r.entries ∧ g d = c := by
    intro n c hc
    obtain ⟨⟨m, d⟩, he, heq⟩ := List.mem_map.mp hc
    obtain ⟨rfl, rfl⟩ := Prod.mk.inj heq
    exact ⟨d, he, rfl⟩
  refine ⟨?_, fun n c hc => ?_, fun n c hc => ?_⟩
  · rw [Registry.names_rename]
    exact h.distinct
  · obtain ⟨d, hd, rfl⟩ := hentry n c hc
    exact (hg.fresh d (Registry.mem_cells_iff.mpr ⟨n, hd⟩)).2
  · obtain ⟨d, hd, rfl⟩ := hentry n c hc
    rw [hg.cell d (Registry.mem_cells_iff.mpr ⟨n, hd⟩)]
    exact h.named n d hd

theorem CopiedCells.mono {s t : Store α} {cs ds : List CellId} {g : CellId → CellId}
    (h : CopiedCells s t cs g) (hs : ds ⊆ cs) : CopiedCells s t ds g :=
  ⟨fun c hc => h.cell c (hs hc), fun c hc => h.fresh c (hs hc),
    fun c hc d hd => h.injective c (hs hc) d (hs hd)⟩

theorem Copied.mono {s t : Store α} {rs qs : List RegistryId} {f : RegistryId → RegistryId}
    {g : CellId → CellId} (h : Copied s t rs f g) (hs : qs ⊆ rs) : Copied s t qs f g where
  registry r hr := h.registry r (hs hr)
  fresh r hr := h.fresh r (hs hr)
  injective r hr q hq := h.injective r (hs hr) q (hs hq)
  cells := h.cells.mono fun c hc => by
    obtain ⟨r, hr, hcr⟩ := List.mem_flatMap.mp hc
    exact List.mem_flatMap.mpr ⟨r, hs hr, hcr⟩

/-- What is added later changes nothing about copies. -/
theorem Copied.after {s t u : Store α} {rs : List RegistryId} {f : RegistryId → RegistryId}
    {g : CellId → CellId} (h : Copied s t rs f g) (htu : Within ∅ ∅ t u) :
    Copied s u rs f g where
  registry r hr := (htu.registries _ (h.fresh r hr).2).trans (h.registry r hr)
  fresh r hr := ⟨(h.fresh r hr).1, (h.fresh r hr).2.trans_le htu.moreRegistries⟩
  injective := h.injective
  cells := ⟨fun c hc => (htu.cells _ (h.cells.fresh c hc).2 (Set.notMem_empty _)).trans
      (h.cells.cell c hc),
    fun c hc => ⟨(h.cells.fresh c hc).1, (h.cells.fresh c hc).2.trans_le htu.moreCells⟩,
    h.cells.injective⟩

/-- Copies of registries that were there before are copies from before. -/
theorem Copied.before {s t u : Store α} {rs : List RegistryId} {f : RegistryId → RegistryId}
    {g : CellId → CellId} (h : Copied t u rs f g) (hst : Within ∅ ∅ s t) (hs : s.Sound)
    (hrs : ∀ r ∈ rs, r.index < s.registries.size) : Copied s u rs f g := by
  have hregistry : ∀ r ∈ rs, t.registry r = s.registry r := fun r hr =>
    hst.registries r (hrs r hr)
  have hmem : ∀ c ∈ rs.flatMap fun r => (s.registry r).cells,
      c.index < s.cells.size ∧ c ∈ rs.flatMap fun r => (t.registry r).cells := by
    intro c hc
    obtain ⟨r, hr, hcr⟩ := List.mem_flatMap.mp hc
    obtain ⟨e, he, rfl⟩ := List.mem_map.mp hcr
    exact ⟨hs.bounded he, List.mem_flatMap.mpr ⟨r, hr, by rwa [hregistry r hr]⟩⟩
  refine ⟨fun r hr => ?_, fun r hr => ?_, h.injective, fun c hc => ?_, fun c hc => ?_,
    fun c hc d hd => h.cells.injective c (hmem c hc).2 d (hmem d hd).2⟩
  · rw [h.registry r hr, hregistry r hr]
  · exact ⟨hst.moreRegistries.trans (h.fresh r hr).1, (h.fresh r hr).2⟩
  · rw [h.cells.cell c (hmem c hc).2, hst.cells c (hmem c hc).1 (Set.notMem_empty _)]
  · exact ⟨hst.moreCells.trans (h.cells.fresh c (hmem c hc).2).1,
      (h.cells.fresh c (hmem c hc).2).2⟩

/-- Copies of more cells are copies of fewer, also of those that registries hold. -/
theorem CopiedCells.of_registries {s t : Store α} {rs : List RegistryId} {cs : List CellId}
    {g : CellId → CellId} (h : CopiedCells s t cs g)
    (hcs : ∀ r ∈ rs, (s.registry r).cells ⊆ cs) :
    CopiedCells s t (rs.flatMap fun r => (s.registry r).cells) g :=
  h.mono fun c hc => by
    obtain ⟨r, hr, hc⟩ := List.mem_flatMap.mp hc
    exact hcs r hr hc

/-- A value is read from a copy as from the original. -/
theorem Copied.value? {s t : Store α} {rs : List RegistryId} {f : RegistryId → RegistryId}
    {g : CellId → CellId} (h : Copied s t rs f g) {r : RegistryId} (hr : r ∈ rs) (n : String) :
    t.value? (f r) n = s.value? r n := by
  unfold Store.value?
  rw [h.registry r hr, Registry.find?_rename, Option.map_map]
  cases hc : (s.registry r).find? n with
  | none => rfl
  | some c =>
    have hmem : c ∈ rs.flatMap fun r => (s.registry r).cells :=
      List.mem_flatMap.mpr ⟨r, hr, Registry.mem_cells_of_find? hc⟩
    simp only [Option.map_some, Function.comp_apply]
    rw [h.cells.cell c hmem]

theorem Copied.names {s t : Store α} {rs : List RegistryId} {f : RegistryId → RegistryId}
    {g : CellId → CellId} (h : Copied s t rs f g) {r : RegistryId} (hr : r ∈ rs) :
    (t.registry (f r)).names = (s.registry r).names := by
  rw [h.registry r hr, Registry.names_rename]

theorem Copied.under {s t : Store α} {rs : List RegistryId} {f : RegistryId → RegistryId}
    {g : CellId → CellId} (h : Copied s t rs f g) {r q : RegistryId} (hr : r ∈ rs) (hq : q ∈ rs)
    (hu : (s.registry r).Under (s.registry q)) :
    (t.registry (f r)).Under (t.registry (f q)) := by
  rw [h.registry r hr, h.registry q hq]
  exact hu.rename g

end Store

namespace Run

variable {α : Type} [Scalar α]

/-- Copies of cells are made in every store. -/
theorem copyCells_copied (s : Store α) (cs : List CellId) :
    ∃ g t, (copyCells cs).outcome s = (.ok g, t) ∧ s.Within ∅ ∅ t ∧ s.CopiedCells t cs g ∧
      t.registries = s.registries := by
  have hinj : ∀ c d : CellId, c.index = d.index → c = d := fun c d h => CellId.eq_iff.mpr h
  have hmem : ∀ {c : CellId}, c ∈ cs → c.index ∈ cs.eraseDups.map (·.index) := fun hc =>
    List.mem_map_of_mem (List.mem_eraseDups.mpr hc)
  set t : Store α := { s with cells := s.cells ++ (cs.eraseDups.map s.cell).toArray } with ht
  have hsize : t.cells.size = s.cells.size + (cs.eraseDups.map (·.index)).length := by
    simp [ht]
  have hold : ∀ c : CellId, c.index < s.cells.size → t.cell c = s.cell c := fun c hc =>
    getD_append_left _ hc
  have hwithin : Store.Within ∅ ∅ s t :=
    { moreCells := by omega
      moreRegistries := le_rfl
      moreStates := le_rfl
      names := fun c hc => by rw [hold c hc]
      registries := fun _ _ => rfl
      cells := fun c hc _ => hold c hc
      states := fun _ _ _ => rfl
      resolutions := fun _ _ => rfl }
  refine ⟨_, t, rfl, hwithin, ⟨fun c hc => ?_, fun c hc => ?_, fun c hc d hd h => ?_⟩, rfl⟩
  · exact Fresh.getD_renaming hinj (List.mem_eraseDups.mpr hc) s.cells s.cell _
  · rw [hsize]
    exact Fresh.renaming_bounds (hmem hc)
  · exact hinj c d (Fresh.renaming_injective (hmem hc) (hmem hd) (CellId.mk.inj h))

/-- **Cells are copied once each.** -/
theorem copyCells_spec {s : Store α} (hs : s.Sound) (cs : List CellId) :
    ∃ g t, (copyCells cs).outcome s = (.ok g, t) ∧ s.Apart t ∧ s.CopiedCells t cs g ∧
      t.registries = s.registries := by
  obtain ⟨g, t, ht, hwithin, hg, hregs⟩ := copyCells_copied s cs
  refine ⟨g, t, ht, ?_, hg, hregs⟩
  exact { hwithin with
    sound := fun r => by
      rw [Store.registry_congr hregs]
      exact hwithin.holds (hs r)
    detached := fun r hr e he => by
      rw [Store.registry_congr hregs, Store.registry_eq_empty hr] at he
      simp [Registry.empty] at he }

/-- Copies of registries are made in every store, and nothing else is added. -/
theorem copyRegistries_copied (s : Store α) (rs : List RegistryId) :
    ∃ f g t, (copyRegistries rs).outcome s = (.ok f, t) ∧ s.Within ∅ ∅ t ∧ s.Copied t rs f g ∧
      ∀ r : RegistryId, s.registries.size ≤ r.index →
        t.registry r = .empty ∨ ∃ q ∈ rs, t.registry r = (s.registry q).rename g := by
  obtain ⟨g, u, hu, hsu, hg, hregs⟩ :=
    copyCells_copied s ((rs.eraseDups.map s.registry).flatMap (·.cells))
  have hinj : ∀ r q : RegistryId, r.index = q.index → r = q := fun r q h =>
    RegistryId.eq_iff.mpr h
  have hmem : ∀ {r : RegistryId}, r ∈ rs → r.index ∈ rs.eraseDups.map (·.index) := fun hr =>
    List.mem_map_of_mem (List.mem_eraseDups.mpr hr)
  have hcells : ∀ r ∈ rs, (s.registry r).cells ⊆
      (rs.eraseDups.map s.registry).flatMap (·.cells) := fun r hr c hc =>
    List.mem_flatMap.mpr ⟨_, List.mem_map_of_mem (List.mem_eraseDups.mpr hr), hc⟩
  set new := rs.eraseDups.map fun r => (s.registry r).rename g with hnew
  set t := u.addRegistries new with ht
  have hsize : t.registries.size = s.registries.size + (rs.eraseDups.map (·.index)).length := by
    rw [ht, Store.size_addRegistries, hregs, hnew, List.length_map, List.length_map]
  have hcopy : ∀ r ∈ rs, t.registry ⟨Fresh.renaming s.registries.size
      (rs.eraseDups.map (·.index)) r.index⟩ = (s.registry r).rename g := by
    intro r hr
    show (u.registries ++ new.toArray).getD _ _ = _
    rw [hregs]
    exact Fresh.getD_renaming hinj (List.mem_eraseDups.mpr hr) s.registries
      (fun r => (s.registry r).rename g) _
  refine ⟨_, g, t, ?_, hsu.trans (Store.within_addRegistries u new),
    ⟨hcopy, fun r hr => ?_, fun r hr q hq h => ?_, ?_⟩, fun r hr => ?_⟩
  · show (get >>= _ : Run α _).outcome s = _
    rw [outcome_bind_ok _ (outcome_get s), outcome_bind_ok _ hu]
    show (_, _) = (_, _)
    rw [ht, hnew, List.map_map]
    rfl
  · rw [hsize]
    exact Fresh.renaming_bounds (hmem hr)
  · exact hinj r q (Fresh.renaming_injective (hmem hr) (hmem hq) (RegistryId.mk.inj h))
  · have hgt : Store.CopiedCells s t ((rs.eraseDups.map s.registry).flatMap (·.cells)) g :=
      ⟨hg.cell, hg.fresh, hg.injective⟩
    exact hgt.of_registries hcells
  · refine (Store.registry_addRegistries_of_le (hregs ▸ hr) new).imp_right fun hx => ?_
    obtain ⟨q, hq, hrq⟩ := List.mem_map.mp hx
    exact ⟨q, List.mem_eraseDups.mp hq, hrq.symm⟩

/-- **Registries are copied once each, with all their cells.** -/
theorem copyRegistries_spec {s : Store α} (hs : s.Sound) (rs : List RegistryId) :
    ∃ f g t, (copyRegistries rs).outcome s = (.ok f, t) ∧ s.Apart t ∧ s.Copied t rs f g := by
  obtain ⟨f, g, t, ht, hwithin, hf, hnew⟩ := copyRegistries_copied s rs
  have hcells : ∀ q ∈ rs, s.CopiedCells t (s.registry q).cells g := fun q hq =>
    hf.cells.mono fun c hc => List.mem_flatMap.mpr ⟨q, hq, hc⟩
  refine ⟨f, g, t, ht, { hwithin with sound := fun r => ?_, detached := fun r hr e he => ?_ }, hf⟩
  · rcases Nat.lt_or_ge r.index s.registries.size with hr | hr
    · rw [hwithin.registries r hr]
      exact hwithin.holds (hs r)
    · rcases hnew r hr with hx | ⟨q, hq, hx⟩
      · rw [hx]
        exact Store.holds_empty t
      · rw [hx]
        exact (hs q).copied (hcells q hq)
  · rcases hnew r hr with hx | ⟨q, hq, hx⟩
    · rw [hx] at he
      simp [Registry.empty] at he
    · rw [hx] at he
      obtain ⟨d, hd, rfl⟩ := List.mem_map.mp he
      exact ((hcells q hq).fresh d.2 (List.mem_map_of_mem hd)).1

end Run

end DensityAlgebra
