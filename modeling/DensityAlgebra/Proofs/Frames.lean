/-
# What an action leaves alone

A store only grows: cells, registries and states are added, registries that are
there are never pointed elsewhere by an action on new ones, and a cell keeps its
name. `Store.Grows` says so; `Store.Within` says in addition that only listed
cells and listed states have changed, and of a state only the normalization.

In a sound store every registry has different names, and under each of them a
cell of that name. An object is built apart from what was there before: all that
is older stays as it is, and the new registries hold new cells only. The new part
of the store then has no way back into the old one.

Key definitions: `Cell.content`, `Store.value?`, `Store.Grows`, `Store.Within`, `Store.Holds`, `Store.Sound`,
`Store.Detached`, `Store.Extends`, `Store.Apart`.
Key theorems: `Store.Within.trans`, `Store.Apart.trans`, `Store.Apart.putRegistry`,
`Store.Apart.of_same`.
-/
import DensityAlgebra.Proofs.Registries
import DensityAlgebra.Proofs.Runs
import Mathlib.Data.Set.Basic

namespace DensityAlgebra

/-! ### Entries of arrays -/

theorem getD_push {β : Type} (xs : Array β) (x d : β) (i : Nat) :
    (xs.push x).getD i d = if i = xs.size then x else xs.getD i d := by
  simp only [Array.getD_eq_getD_getElem?, Array.getElem?_push]
  split_ifs <;> rfl

theorem getD_append_left {β : Type} {xs ys : Array β} {i : Nat} (d : β) (h : i < xs.size) :
    (xs ++ ys).getD i d = xs.getD i d := by
  simp only [Array.getD_eq_getD_getElem?, Array.getElem?_append_left h]

theorem getD_append_right {β : Type} (xs ys : Array β) (i : Nat) (d : β) :
    (xs ++ ys).getD (xs.size + i) d = ys.getD i d := by
  simp only [Array.getD_eq_getD_getElem?, Array.getElem?_append_right (Nat.le_add_right _ _),
    Nat.add_sub_cancel_left]

theorem getD_setIfInBounds {β : Type} (xs : Array β) (i j : Nat) (x d : β) :
    (xs.setIfInBounds i x).getD j d = if j = i ∧ i < xs.size then x else xs.getD j d := by
  simp only [Array.getD_eq_getD_getElem?, Array.getElem?_setIfInBounds]
  by_cases hij : i = j
  · by_cases hi : i < xs.size
    · rw [if_pos hij, if_pos (hij ▸ hi), if_pos ⟨hij.symm, hi⟩]
      rfl
    · rw [if_pos hij, if_neg (hij ▸ hi), if_neg fun h => hi h.2,
        Array.getElem?_eq_none (hij ▸ Nat.le_of_not_lt hi)]
  · rw [if_neg hij, if_neg fun h => hij h.1.symm]

theorem CellId.eq_iff {c d : CellId} : c = d ↔ c.index = d.index := by
  rw [CellId.mk.injEq]

theorem RegistryId.eq_iff {r q : RegistryId} : r = q ↔ r.index = q.index := by
  rw [RegistryId.mk.injEq]

theorem StateId.eq_iff {d e : StateId} : d = e ↔ d.index = e.index := by
  rw [StateId.mk.injEq]

/-- The value and the error of a cell. -/
def Cell.content {α : Type} (x : Cell α) : Content α × Content α := (x.value, x.error)

namespace Store

variable {α : Type}

/-! ### Registries -/

theorem registry_putRegistry (s : Store α) (r q : RegistryId) (x : Registry) :
    (s.putRegistry r x).registry q =
      if q = r ∧ r.index < s.registries.size then x else s.registry q := by
  unfold registry putRegistry
  rw [getD_setIfInBounds]
  simp only [RegistryId.eq_iff]

theorem registry_congr {s t : Store α} (h : t.registries = s.registries) (r : RegistryId) :
    t.registry r = s.registry r := by
  unfold registry
  rw [h]

/-- A registry that was never handed out is empty. -/
theorem registry_eq_empty {s : Store α} {r : RegistryId} (h : s.registries.size ≤ r.index) :
    s.registry r = .empty := by
  unfold registry
  rw [Array.getD_eq_getD_getElem?, Array.getElem?_eq_none h]
  rfl

/-! ### Adding to a store -/

/-- The store with one more cell. -/
def addCell (s : Store α) (x : Cell α) : Store α := { s with cells := s.cells.push x }

/-- The store with one more registry. -/
def addRegistry (s : Store α) (x : Registry) : Store α :=
  { s with registries := s.registries.push x }

/-- The store with one more state. -/
def addState (s : Store α) (x : DecayState α) : Store α := { s with states := s.states.push x }

theorem registry_addRegistry (s : Store α) (x : Registry) (r : RegistryId) :
    (s.addRegistry x).registry r = if r.index = s.registries.size then x else s.registry r :=
  getD_push _ _ _ _

theorem size_addCell (s : Store α) (x : Cell α) : (s.addCell x).cells.size = s.cells.size + 1 :=
  Array.size_push _

theorem size_addRegistry (s : Store α) (x : Registry) :
    (s.addRegistry x).registries.size = s.registries.size + 1 := Array.size_push _

theorem size_addState (s : Store α) (x : DecayState α) :
    (s.addState x).states.size = s.states.size + 1 := Array.size_push _

/-- The same cells, registries and states; what is counted, drawn and noted may
differ. -/
def Same (s t : Store α) : Prop :=
  t.cells = s.cells ∧ t.registries = s.registries ∧ t.states = s.states

theorem Same.registry (h : Same s t) (r : RegistryId) : t.registry r = s.registry r :=
  registry_congr h.2.1 r

variable [Scalar α]

/-! ### Cells and states -/

theorem cell_congr {s t : Store α} (h : t.cells = s.cells) (c : CellId) :
    t.cell c = s.cell c := by
  unfold cell
  rw [h]

theorem state_congr {s t : Store α} (h : t.states = s.states) (d : StateId) :
    t.state d = s.state d := by
  unfold state
  rw [h]

theorem cell_putCell (s : Store α) (c d : CellId) (x : Cell α) :
    (s.putCell c x).cell d = if d = c ∧ c.index < s.cells.size then x else s.cell d := by
  unfold cell putCell
  rw [getD_setIfInBounds]
  simp only [CellId.eq_iff]

theorem state_putState (s : Store α) (d e : StateId) (x : DecayState α) :
    (s.putState d x).state e = if e = d ∧ d.index < s.states.size then x else s.state e := by
  unfold state putState
  rw [getD_setIfInBounds]
  simp only [StateId.eq_iff]

/-- What the cell under a name of a registry holds, if it has the name. -/
def value? (s : Store α) (r : RegistryId) (n : String) : Option (Content α) :=
  ((s.registry r).find? n).map fun c => (s.cell c).value

theorem lookup_eq_value? (s : Store α) (r : RegistryId) (n : String) :
    s.lookup r n = (s.value? r n).elim (.error .missingKey) .ok := by
  unfold lookup value?
  cases (s.registry r).find? n <;> rfl

theorem lookup_eq_ok_iff {s : Store α} {r : RegistryId} {n : String} {x : Content α} :
    s.lookup r n = .ok x ↔ s.value? r n = some x := by
  rw [lookup_eq_value?]
  cases s.value? r n <;> simp

theorem value?_of_find? {s : Store α} {r : RegistryId} {n : String} {c : CellId}
    (h : (s.registry r).find? n = some c) : s.value? r n = some (s.cell c).value :=
  congrArg (Option.map _) h

/-- A registry has the values of those that are under it. -/
theorem value?_of_under {s : Store α} {r q : RegistryId}
    (h : (s.registry r).Under (s.registry q)) {n : String} {x : Content α}
    (hx : s.value? r n = some x) : s.value? q n = some x := by
  obtain ⟨c, hc, rfl⟩ := Option.map_eq_some_iff.mp hx
  exact value?_of_find? (h n c hc)

/-- A registry that is under another one has its values, under its own names. -/
theorem value?_eq_of_under {s : Store α} {r q : RegistryId}
    (h : (s.registry r).Under (s.registry q)) {n : String} (hn : n ∈ (s.registry r).names) :
    s.value? r n = s.value? q n := by
  obtain ⟨c, hc⟩ := Registry.find?_eq_some_of_mem hn
  unfold value?
  rw [hc, h n c hc]

theorem isSome_value? {s : Store α} {r : RegistryId} {n : String} :
    (s.value? r n).isSome = true ↔ n ∈ (s.registry r).names := by
  rw [value?, Option.isSome_map, Registry.isSome_find?]

theorem mem_names_of_value? {s : Store α} {r : RegistryId} {n : String} {x : Content α}
    (h : s.value? r n = some x) : n ∈ (s.registry r).names :=
  isSome_value?.mp (Option.isSome_iff_exists.mpr ⟨x, h⟩)

theorem value?_of_not_mem {s : Store α} {r : RegistryId} {n : String}
    (hn : n ∉ (s.registry r).names) : s.value? r n = none := by
  unfold value?
  rw [Registry.find?_eq_none.mpr hn]
  rfl

theorem mem_currentValues {s : Store α} {r : RegistryId} {n : String} {x : Content α}
    (h : s.value? r n = some x) : (n, x) ∈ s.currentValues r := by
  obtain ⟨c, hc, rfl⟩ := Option.map_eq_some_iff.mp h
  exact List.mem_map_of_mem (f := fun e => (e.1, (s.cell e.2).value))
    (Registry.mem_entries_of_find? hc)

/-! ### Growing -/

/-- Nothing is removed; cells keep their names, and registries what they hold. -/
structure Grows (s t : Store α) : Prop where
  moreCells : s.cells.size ≤ t.cells.size
  moreRegistries : s.registries.size ≤ t.registries.size
  moreStates : s.states.size ≤ t.states.size
  names : ∀ c : CellId, c.index < s.cells.size → (t.cell c).name = (s.cell c).name
  registries : ∀ r : RegistryId, r.index < s.registries.size → t.registry r = s.registry r

/-- Only cells of `C` have changed, and only the normalizations of states of `D`. -/
structure Within (C : Set CellId) (D : Set StateId) (s t : Store α) : Prop extends Grows s t where
  cells : ∀ c : CellId, c.index < s.cells.size → c ∉ C → t.cell c = s.cell c
  states : ∀ d : StateId, d.index < s.states.size → d ∉ D → t.state d = s.state d
  resolutions : ∀ d : StateId, d.index < s.states.size →
    (t.state d).resolution = (s.state d).resolution

variable {C C' : Set CellId} {D D' : Set StateId} {s t u b : Store α}

theorem Grows.refl (s : Store α) : Grows s s :=
  ⟨le_rfl, le_rfl, le_rfl, fun _ _ => rfl, fun _ _ => rfl⟩

theorem Grows.trans (h : Grows s t) (h' : Grows t u) : Grows s u where
  moreCells := h.moreCells.trans h'.moreCells
  moreRegistries := h.moreRegistries.trans h'.moreRegistries
  moreStates := h.moreStates.trans h'.moreStates
  names c hc := (h'.names c (hc.trans_le h.moreCells)).trans (h.names c hc)
  registries r hr := (h'.registries r (hr.trans_le h.moreRegistries)).trans (h.registries r hr)

theorem Within.refl (s : Store α) : Within C D s s :=
  { Grows.refl s with
    cells := fun _ _ _ => rfl
    states := fun _ _ _ => rfl
    resolutions := fun _ _ => rfl }

theorem Within.trans (h : Within C D s t) (h' : Within C D t u) : Within C D s u :=
  { h.toGrows.trans h'.toGrows with
    cells := fun c hc hC => (h'.cells c (hc.trans_le h.moreCells) hC).trans (h.cells c hc hC)
    states := fun d hd hD => (h'.states d (hd.trans_le h.moreStates) hD).trans (h.states d hd hD)
    resolutions := fun d hd =>
      (h'.resolutions d (hd.trans_le h.moreStates)).trans (h.resolutions d hd) }

theorem Within.mono (h : Within C D s t) (hC : C ⊆ C') (hD : D ⊆ D') : Within C' D' s t :=
  { h with
    cells := fun c hc hn => h.cells c hc fun hcC => hn (hC hcC)
    states := fun d hd hn => h.states d hd fun hdD => hn (hD hdD) }

theorem Same.cell (h : Same s t) (c : CellId) : t.cell c = s.cell c := cell_congr h.1 c

theorem Same.state (h : Same s t) (d : StateId) : t.state d = s.state d := state_congr h.2.2 d

theorem Same.value? (h : Same s t) (r : RegistryId) (n : String) : t.value? r n = s.value? r n := by
  unfold Store.value?
  simp only [h.registry, h.cell]

theorem Same.within (h : Same s t) : Within C D s t where
  moreCells := by rw [h.1]
  moreRegistries := by rw [h.2.1]
  moreStates := by rw [h.2.2]
  names c _ := by rw [h.cell]
  registries r _ := h.registry r
  cells c _ _ := h.cell c
  states d _ _ := h.state d
  resolutions d _ := by rw [h.state]

/-! ### Sound stores -/

/-- The registry has different names, and under each of them a cell of that name. -/
structure Holds (s : Store α) (r : Registry) : Prop where
  distinct : r.names.Nodup
  bounded : ∀ n c, (n, c) ∈ r.entries → c.index < s.cells.size
  named : ∀ n c, (n, c) ∈ r.entries → (s.cell c).name = n

/-- Every registry of the store holds cells under their names. -/
def Sound (s : Store α) : Prop := ∀ r, s.Holds (s.registry r)

theorem holds_empty (s : Store α) : s.Holds .empty where
  distinct := List.nodup_nil
  bounded _ _ h := by simp [Registry.empty] at h
  named _ _ h := by simp [Registry.empty] at h

theorem empty_sound : Sound (empty : Store α) := by
  intro r
  rw [registry_eq_empty (Nat.zero_le _)]
  exact holds_empty _

theorem Grows.holds {r : Registry} (h : Grows s t) (hr : s.Holds r) : t.Holds r where
  distinct := hr.distinct
  bounded n c hc := (hr.bounded n c hc).trans_le h.moreCells
  named n c hc := (h.names c (hr.bounded n c hc)).trans (hr.named n c hc)

theorem Holds.find?_bounded {r : Registry} (h : s.Holds r) {n : String} {c : CellId}
    (hc : r.find? n = some c) : c.index < s.cells.size :=
  h.bounded n c (Registry.mem_entries_of_find? hc)

theorem Holds.find?_named {r : Registry} (h : s.Holds r) {n : String} {c : CellId}
    (hc : r.find? n = some c) : (s.cell c).name = n :=
  h.named n c (Registry.mem_entries_of_find? hc)

/-- A registry whose entries come from registries that hold cells does so too. -/
theorem Holds.of_entries {r p q : Registry} (hp : s.Holds p) (hq : s.Holds q)
    (hd : r.names.Nodup) (h : ∀ e ∈ r.entries, e ∈ p.entries ∨ e ∈ q.entries) : s.Holds r where
  distinct := hd
  bounded n c hc := (h _ hc).elim (hp.bounded n c) (hq.bounded n c)
  named n c hc := (h _ hc).elim (hp.named n c) (hq.named n c)

/-! ### Building beside what is there -/

/-- What is older than `b` is as it was, and the store is sound. -/
structure Extends (b s : Store α) : Prop extends Within ∅ ∅ b s where
  sound : s.Sound

/-- Registries that are newer than `b` hold cells that are newer than `b`. -/
def Detached (b s : Store α) : Prop :=
  ∀ r : RegistryId, b.registries.size ≤ r.index →
    ∀ e ∈ (s.registry r).entries, b.cells.size ≤ e.2.index

/-- What is older than `b` is as it was, and nothing new refers to an old cell. -/
structure Apart (b s : Store α) : Prop extends Extends b s where
  detached : Detached b s

theorem Extends.refl (h : s.Sound) : Extends s s := { Within.refl s with sound := h }

theorem Apart.refl (h : s.Sound) : Apart s s :=
  { Extends.refl h with
    detached := fun r hr e he => by
      rw [registry_eq_empty hr] at he
      simp [Registry.empty] at he }

theorem Extends.trans (h : Extends b s) (h' : Extends s t) : Extends b t :=
  { h.toWithin.trans h'.toWithin with sound := h'.sound }

theorem Apart.trans (h : Apart b s) (h' : Apart s t) : Apart b t :=
  { h.toExtends.trans h'.toExtends with
    detached := fun r hr e he => by
      by_cases hs : r.index < s.registries.size
      · rw [h'.registries r hs] at he
        exact h.detached r hr e he
      · exact h.moreCells.trans (h'.detached r (Nat.le_of_not_lt hs) e he) }

theorem Sound.of_same (h : s.Sound) (hst : Same s t) : t.Sound := by
  intro r
  rw [hst.registry]
  exact (hst.within (C := ∅) (D := ∅)).holds (h r)

theorem Extends.of_same (h : Extends b s) (hst : Same s t) : Extends b t :=
  { h.toWithin.trans hst.within with sound := h.sound.of_same hst }

theorem Apart.of_same (h : Apart b s) (hst : Same s t) : Apart b t :=
  { h.toExtends.of_same hst with
    detached := fun r hr e he => h.detached r hr e (by rwa [hst.registry] at he) }

/-- A value is as it was if the cell that has it is none of those that change. -/
theorem Within.value?_eq (h : Within C D s t) (hs : s.Sound) {r : RegistryId}
    (hr : r.index < s.registries.size) {n : String}
    (hc : ∀ c, (s.registry r).find? n = some c → c ∉ C) : t.value? r n = s.value? r n := by
  unfold value?
  rw [h.registries r hr]
  cases hf : (s.registry r).find? n with
  | none => rfl
  | some c =>
    simp only [Option.map_some]
    rw [h.cells c ((hs r).find?_bounded hf) (hc c hf)]

/-- A cell that an old registry holds is old. -/
theorem Sound.bounded (h : s.Sound) {r : RegistryId} {e : String × CellId}
    (he : e ∈ (s.registry r).entries) : e.2.index < s.cells.size := (h r).bounded e.1 e.2 he

/-! ### New cells, registries and states -/

theorem cell_addCell (s : Store α) (x : Cell α) (c : CellId) :
    (s.addCell x).cell c = if c.index = s.cells.size then x else s.cell c := getD_push _ _ _ _

theorem state_addState (s : Store α) (x : DecayState α) (d : StateId) :
    (s.addState x).state d = if d.index = s.states.size then x else s.state d := getD_push _ _ _ _

theorem within_addCell (s : Store α) (x : Cell α) : Within C D s (s.addCell x) where
  moreCells := by
    rw [size_addCell]
    omega
  moreRegistries := le_rfl
  moreStates := le_rfl
  names c hc := by rw [cell_addCell, if_neg hc.ne]
  registries _ _ := rfl
  cells c hc _ := by rw [cell_addCell, if_neg hc.ne]
  states _ _ _ := rfl
  resolutions _ _ := rfl

theorem within_addRegistry (s : Store α) (x : Registry) : Within C D s (s.addRegistry x) where
  moreCells := le_rfl
  moreRegistries := by
    rw [size_addRegistry]
    omega
  moreStates := le_rfl
  names _ _ := rfl
  registries r hr := by rw [registry_addRegistry, if_neg hr.ne]
  cells _ _ _ := rfl
  states _ _ _ := rfl
  resolutions _ _ := rfl

theorem within_addState (s : Store α) (x : DecayState α) : Within C D s (s.addState x) where
  moreCells := le_rfl
  moreRegistries := le_rfl
  moreStates := by
    rw [size_addState]
    omega
  names _ _ := rfl
  registries _ _ := rfl
  cells _ _ _ := rfl
  states d hd _ := by rw [state_addState, if_neg hd.ne]
  resolutions d hd := by rw [state_addState, if_neg hd.ne]

theorem Sound.addCell (h : s.Sound) (x : Cell α) : (s.addCell x).Sound :=
  fun r => (within_addCell (C := ∅) (D := ∅) s x).holds (h r)

theorem Sound.addRegistry {x : Registry} (h : s.Sound) (hx : s.Holds x) :
    (s.addRegistry x).Sound := by
  intro r
  refine (within_addRegistry (C := ∅) (D := ∅) s x).holds ?_
  rw [registry_addRegistry]
  split_ifs
  · exact hx
  · exact h r

theorem Sound.addState (h : s.Sound) (x : DecayState α) : (s.addState x).Sound :=
  fun r => (within_addState (C := ∅) (D := ∅) s x).holds (h r)

theorem Extends.addCell (h : Extends b s) (x : Cell α) : Extends b (s.addCell x) :=
  { h.toWithin.trans (within_addCell s x) with sound := h.sound.addCell x }

theorem Extends.addRegistry {x : Registry} (h : Extends b s) (hx : s.Holds x) :
    Extends b (s.addRegistry x) :=
  { h.toWithin.trans (within_addRegistry s x) with sound := h.sound.addRegistry hx }

theorem Extends.addState (h : Extends b s) (x : DecayState α) : Extends b (s.addState x) :=
  { h.toWithin.trans (within_addState s x) with sound := h.sound.addState x }

theorem Apart.addCell (h : Apart b s) (x : Cell α) : Apart b (s.addCell x) :=
  { h.toExtends.addCell x with detached := h.detached }

theorem Apart.addState (h : Apart b s) (x : DecayState α) : Apart b (s.addState x) :=
  { h.toExtends.addState x with detached := h.detached }

theorem Apart.addRegistry {x : Registry} (h : Apart b s) (hx : s.Holds x)
    (hd : ∀ e ∈ x.entries, b.cells.size ≤ e.2.index) : Apart b (s.addRegistry x) :=
  { h.toExtends.addRegistry hx with
    detached := fun r hr e he => by
      rw [registry_addRegistry] at he
      split_ifs at he
      · exact hd e he
      · exact h.detached r hr e he }

/-! ### Changes to what is new -/

theorem Sound.putRegistry {r : RegistryId} {x : Registry} (h : s.Sound) (hx : s.Holds x) :
    (s.putRegistry r x).Sound := by
  intro q
  have hq : s.Holds ((s.putRegistry r x).registry q) := by
    rw [registry_putRegistry]
    split_ifs
    · exact hx
    · exact h q
  exact ⟨hq.distinct, hq.bounded, hq.named⟩

/-- A new registry may take other cells. -/
theorem Extends.putRegistry {r : RegistryId} {x : Registry} (h : Extends b s)
    (hr : b.registries.size ≤ r.index) (hx : s.Holds x) : Extends b (s.putRegistry r x) :=
  { h with
    moreRegistries := by
      unfold Store.putRegistry
      rw [Array.size_setIfInBounds]
      exact h.moreRegistries
    registries := fun q hq => by
      rw [registry_putRegistry, if_neg]
      · exact h.registries q hq
      · rintro ⟨rfl, -⟩
        omega
    sound := h.sound.putRegistry hx }

theorem Apart.putRegistry {r : RegistryId} {x : Registry} (h : Apart b s)
    (hr : b.registries.size ≤ r.index) (hx : s.Holds x)
    (hd : ∀ e ∈ x.entries, b.cells.size ≤ e.2.index) : Apart b (s.putRegistry r x) :=
  { h.toExtends.putRegistry hr hx with
    detached := fun q hq e he => by
      rw [registry_putRegistry] at he
      split_ifs at he
      · exact hd e he
      · exact h.detached q hq e he }

/-- A state takes another content; what objects refer to stays. -/
theorem grows_putState (s : Store α) (d : StateId) (x : DecayState α) :
    s.Grows (s.putState d x) where
  moreCells := le_rfl
  moreRegistries := le_rfl
  moreStates := by
    unfold putState
    rw [Array.size_setIfInBounds]
  names _ _ := rfl
  registries _ _ := rfl

theorem Extends.putState {d : StateId} (h : Extends b s) (x : DecayState α)
    (hd : b.states.size ≤ d.index) : Extends b (s.putState d x) :=
  { h with
    moreStates := h.moreStates.trans (grows_putState s d x).moreStates
    states := fun e he hn => by
      rw [state_putState, if_neg]
      · exact h.states e he hn
      · rintro ⟨rfl, -⟩
        omega
    resolutions := fun e he => by
      rw [state_putState, if_neg]
      · exact h.resolutions e he
      · rintro ⟨rfl, -⟩
        omega
    sound := fun r => ⟨(h.sound r).distinct, (h.sound r).bounded, (h.sound r).named⟩ }

theorem Apart.putState {d : StateId} (h : Apart b s) (x : DecayState α)
    (hd : b.states.size ≤ d.index) : Apart b (s.putState d x) :=
  { h.toExtends.putState x hd with detached := h.detached }

end Store

/-! ### What the actions come to -/

namespace Run

variable {α : Type}

theorem outcome_newCell (x : Cell α) (s : Store α) :
    (newCell x).outcome s = (.ok ⟨s.cells.size⟩, s.addCell x) := rfl

theorem outcome_newRegistry (x : Registry) (s : Store α) :
    (newRegistry x).outcome s = (.ok ⟨s.registries.size⟩, s.addRegistry x) := rfl

theorem outcome_newState (x : DecayState α) (s : Store α) :
    (newState x).outcome s = (.ok ⟨s.states.size⟩, s.addState x) := rfl

end Run

end DensityAlgebra
