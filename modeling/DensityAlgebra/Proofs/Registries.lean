/-
# What registries hold after they change

A registry is a list of names with cells, read by the first entry of a name. For
each operation this module says what is found under a name afterwards, which
names there are, and where the entries come from. One registry is under another
if the other one holds the same cell for each of its names; pointing a registry
to a shared one puts it under that one, and takes nothing away from what was
under it before.

Key definitions: `Registry.Under`.
Key theorems: `Registry.find?_setDefault`, `Registry.find?_rebind`,
`Registry.find?_rebind_shared`, `Registry.under_rebind`,
`Registry.find?_insert`, `Registry.find?_rename`,
`Registry.ascending_sortNames`.
-/
import DensityAlgebra.Registry
import Mathlib.Data.List.Nodup
import Mathlib.Tactic.SplitIfs

namespace DensityAlgebra

/-- What stands under a name, where all that stands under names was mapped. -/
theorem lookup_map_snd {β γ : Type} (f : β → γ) : ∀ (es : List (String × β)) (n : String),
    (es.map fun e => (e.1, f e.2)).lookup n = (es.lookup n).map f
  | [], _ => rfl
  | (m, x) :: es, n => by
    simp only [List.map_cons, List.lookup_cons]
    cases n == m
    · exact lookup_map_snd f es n
    · rfl

namespace Registry

/-- The other registry holds the same cell for each of the names. -/
def Under (own shared : Registry) : Prop := ∀ n c, own.find? n = some c → shared.find? n = some c

theorem Under.refl (r : Registry) : r.Under r := fun _ _ h => h

theorem Under.trans {r t u : Registry} (h : r.Under t) (h' : t.Under u) : r.Under u :=
  fun n c hc => h' n c (h n c hc)

@[simp] theorem find?_empty (n : String) : empty.find? n = none := rfl

/-! ### Sorted names -/

theorem perm_insertName (n : String) : ∀ names : List String,
    (insertName n names).Perm (n :: names)
  | [] => List.Perm.refl _
  | k :: rest => by
    unfold insertName
    split_ifs
    · exact List.Perm.refl _
    · exact ((perm_insertName n rest).cons k).trans (List.Perm.swap n k rest)

theorem perm_sortNames : ∀ names : List String, (sortNames names).Perm names
  | [] => List.Perm.refl _
  | n :: rest => (perm_insertName n _).trans ((perm_sortNames rest).cons n)

theorem mem_sortNames {m : String} {names : List String} : m ∈ sortNames names ↔ m ∈ names :=
  (perm_sortNames names).mem_iff

theorem pairwise_insertName {n : String} : ∀ {names : List String},
    names.Pairwise (· ≤ ·) → (insertName n names).Pairwise (· ≤ ·)
  | [], _ => List.pairwise_singleton _ _
  | k :: rest, h => by
    have hrest := List.pairwise_cons.mp h
    unfold insertName
    split_ifs with hn
    · refine List.pairwise_cons.mpr ⟨fun m hm => ?_, h⟩
      rcases List.mem_cons.mp hm with rfl | hm
      · exact hn
      · exact String.le_trans hn (hrest.1 m hm)
    · have hk : k ≤ n := (String.le_total n k).resolve_left hn
      refine List.pairwise_cons.mpr ⟨fun m hm => ?_, pairwise_insertName hrest.2⟩
      rcases List.mem_cons.mp ((perm_insertName n rest).mem_iff.mp hm) with rfl | hm
      · exact hk
      · exact hrest.1 m hm

theorem pairwise_sortNames : ∀ names : List String, (sortNames names).Pairwise (· ≤ ·)
  | [] => List.Pairwise.nil
  | _ :: rest => pairwise_insertName (pairwise_sortNames rest)

/-- The order of names does not matter. -/
theorem sortNames_eq_of_perm {names names' : List String} (h : names.Perm names') :
    sortNames names = sortNames names' :=
  List.Perm.eq_of_pairwise (fun _ _ _ _ => String.le_antisymm) (pairwise_sortNames names)
    (pairwise_sortNames names')
    (((perm_sortNames names).trans h).trans (perm_sortNames names').symm)

/-- Different names ascend once they are sorted. -/
theorem ascending_sortNames {names : List String} (h : names.Nodup) :
    (sortNames names).Pairwise (· < ·) :=
  (pairwise_sortNames names).imp₂ (fun _ _ hle hne => Std.lt_of_le_of_ne hle hne)
    ((perm_sortNames names).nodup_iff.mpr h)

theorem nodup_sortedNames {r : Registry} (h : r.names.Nodup) : r.sortedNames.Nodup :=
  (perm_sortNames _).nodup_iff.mpr h

/-! ### Names and entries -/

theorem find?_nil (n : String) : find? ⟨[]⟩ n = none := rfl

theorem find?_cons (m : String) (c : CellId) (es : List (String × CellId)) (n : String) :
    find? ⟨(m, c) :: es⟩ n = if n = m then some c else find? ⟨es⟩ n := by
  unfold find?
  by_cases h : n = m
  · rw [if_pos h, h, List.lookup_cons_self]
  · rw [if_neg h, List.lookup_cons, beq_false_of_ne h]

theorem find?_append (es fs : List (String × CellId)) (n : String) :
    find? ⟨es ++ fs⟩ n = (find? ⟨es⟩ n).or (find? ⟨fs⟩ n) := List.lookup_append

/-- What is found stands among the entries. -/
theorem mem_of_find? : ∀ {es : List (String × CellId)} {n : String} {c : CellId},
    find? ⟨es⟩ n = some c → (n, c) ∈ es
  | [], _, _, h => by simp [find?_nil] at h
  | (m, d) :: es, n, c, h => by
    rw [find?_cons] at h
    by_cases hn : n = m
    · rw [if_pos hn, Option.some.injEq] at h
      rw [hn, h]
      exact List.mem_cons_self
    · rw [if_neg hn] at h
      exact List.mem_cons_of_mem _ (mem_of_find? h)

theorem mem_entries_of_find? {r : Registry} {n : String} {c : CellId} (h : r.find? n = some c) :
    (n, c) ∈ r.entries := mem_of_find? h

theorem find?_eq_none {r : Registry} {n : String} : r.find? n = none ↔ n ∉ r.names := by
  simp only [find?, names, List.lookup_eq_none_iff, List.mem_map]
  constructor
  · rintro h ⟨e, he, rfl⟩
    exact absurd (h e he) (by simp)
  · intro h e he
    rw [bne_iff_ne]
    exact fun hn => h ⟨e, he, hn.symm⟩

theorem isSome_find? {r : Registry} {n : String} : (r.find? n).isSome = true ↔ n ∈ r.names := by
  rw [← Option.ne_none_iff_isSome, ne_eq, find?_eq_none, not_not]

theorem contains_iff {r : Registry} {n : String} : r.contains n = true ↔ n ∈ r.names := isSome_find?

theorem contains_eq_decide (r : Registry) (n : String) : r.contains n = decide (n ∈ r.names) := by
  rw [Bool.eq_iff_iff, contains_iff, decide_eq_true_iff]

theorem find?_eq_some_of_mem {r : Registry} {n : String} (h : n ∈ r.names) :
    ∃ c, r.find? n = some c := Option.isSome_iff_exists.mp (isSome_find?.mpr h)

theorem mem_names_of_find? {r : Registry} {n : String} {c : CellId} (h : r.find? n = some c) :
    n ∈ r.names := isSome_find?.mp (by rw [h]; rfl)

theorem Under.names_subset {own shared : Registry} (h : own.Under shared) :
    own.names ⊆ shared.names := by
  intro n hn
  obtain ⟨c, hc⟩ := find?_eq_some_of_mem hn
  exact mem_names_of_find? (h n c hc)

/-- Two registries under a third one agree where the first one has a name. -/
theorem under_of_names {r t u : Registry} (hr : r.Under u) (ht : t.Under u)
    (h : r.names ⊆ t.names) : r.Under t := by
  intro n c hc
  obtain ⟨d, hd⟩ := find?_eq_some_of_mem (h (mem_names_of_find? hc))
  have hcd : some d = some c := by rw [← ht n d hd, ← hr n c hc]
  rw [hd, hcd]

theorem mem_cells_iff {r : Registry} {c : CellId} : c ∈ r.cells ↔ ∃ n, (n, c) ∈ r.entries := by
  simp [cells]

theorem mem_cells_of_find? {r : Registry} {n : String} {c : CellId} (h : r.find? n = some c) :
    c ∈ r.cells :=
  mem_cells_iff.mpr ⟨n, mem_entries_of_find? h⟩

/-- Where all names are different, a cell is found under its name. -/
theorem exists_find?_of_mem_cells {r : Registry} (hr : r.names.Nodup) {c : CellId}
    (h : c ∈ r.cells) : ∃ n, r.find? n = some c := by
  obtain ⟨n, hn⟩ := mem_cells_iff.mp h
  obtain ⟨d, hd⟩ := find?_eq_some_of_mem (List.mem_map_of_mem (f := Prod.fst) hn)
  have hsame : (n, c) = (n, d) :=
    List.inj_on_of_nodup_map hr hn (mem_entries_of_find? hd) rfl
  exact ⟨n, hd.trans (congrArg some (Prod.mk.inj hsame).2.symm)⟩

/-! ### A default -/

theorem setDefault_fst (r : Registry) (n : String) (c : CellId) :
    (r.setDefault n c).1 = (r.find? n).getD c := by
  unfold setDefault
  cases r.find? n <;> rfl

theorem find?_setDefault (r : Registry) (n : String) (c : CellId) (m : String) :
    (r.setDefault n c).2.find? m = (r.find? m).or (if m = n then some c else none) := by
  unfold setDefault
  cases h : r.find? n with
  | some old =>
    by_cases hm : m = n
    · rw [hm, h]
      rfl
    · rw [if_neg hm, Option.or_none]
  | none =>
    show find? ⟨r.entries ++ [(n, c)]⟩ m = _
    rw [find?_append, find?_cons, find?_nil]

theorem names_setDefault (r : Registry) (n : String) (c : CellId) :
    (r.setDefault n c).2.names = if n ∈ r.names then r.names else r.names ++ [n] := by
  unfold setDefault
  cases h : r.find? n with
  | some old => rw [if_pos (mem_names_of_find? h)]
  | none =>
    rw [if_neg (find?_eq_none.mp h)]
    simp [names]

theorem nodup_setDefault {r : Registry} (n : String) (c : CellId) (h : r.names.Nodup) :
    (r.setDefault n c).2.names.Nodup := by
  rw [names_setDefault]
  split_ifs with hn
  · exact h
  · rw [List.nodup_append]
    refine ⟨h, List.nodup_singleton n, ?_⟩
    intro a ha b hb
    rw [List.mem_singleton] at hb
    rintro rfl
    exact hn (hb ▸ ha)

theorem mem_setDefault {r : Registry} {n : String} {c : CellId} {e : String × CellId}
    (h : e ∈ (r.setDefault n c).2.entries) : e ∈ r.entries ∨ e = (n, c) := by
  unfold setDefault at h
  cases hf : r.find? n with
  | some old =>
    rw [hf] at h
    exact .inl h
  | none =>
    rw [hf] at h
    rcases List.mem_append.mp h with h | h
    · exact .inl h
    · exact .inr (List.mem_singleton.mp h)

/-! ### Pointing one registry to another -/

/-- A name keeps its shared cell, and takes its own one if it had none. -/
theorem find?_rebindEntries_shared : ∀ (es : List (String × CellId)) (shared : Registry)
    (n : String), (rebindEntries es shared).2.find? n = (shared.find? n).or (find? ⟨es⟩ n)
  | [], shared, n => by
    rw [find?_nil, Option.or_none]
    rfl
  | (m, c) :: es, shared, n => by
    show (rebindEntries es (shared.setDefault m c).2).2.find? n = _
    rw [find?_rebindEntries_shared es, find?_setDefault, find?_cons, Option.or_assoc]
    by_cases h : n = m
    · rw [if_pos h, if_pos h]
      rfl
    · rw [if_neg h, if_neg h]
      rfl

/-- A name has the cell that the shared registry then holds. -/
theorem find?_rebindEntries : ∀ (es : List (String × CellId)) (shared : Registry) (n : String),
    find? ⟨(rebindEntries es shared).1⟩ n =
      (find? ⟨es⟩ n).bind fun _ => (rebindEntries es shared).2.find? n
  | [], _, _ => rfl
  | (m, c) :: es, shared, n => by
    show find? ⟨(m, (shared.setDefault m c).1)
      :: (rebindEntries es (shared.setDefault m c).2).1⟩ n = _
    rw [find?_cons, find?_cons]
    by_cases h : n = m
    · rw [if_pos h, if_pos h, find?_rebindEntries_shared, find?_cons, if_pos h, setDefault_fst, h]
      cases shared.find? m <;> rfl
    · rw [if_neg h, if_neg h, find?_rebindEntries es]
      rfl

theorem names_rebindEntries : ∀ (es : List (String × CellId)) (shared : Registry),
    (rebindEntries es shared).1.map (·.1) = es.map (·.1)
  | [], _ => rfl
  | (m, c) :: es, shared => by
    show m :: (rebindEntries es (shared.setDefault m c).2).1.map (·.1) = _
    rw [names_rebindEntries es]
    rfl

theorem nodup_rebindEntries : ∀ (es : List (String × CellId)) {shared : Registry},
    shared.names.Nodup → (rebindEntries es shared).2.names.Nodup
  | [], _, h => h
  | (m, c) :: es, _, h => nodup_rebindEntries es (nodup_setDefault m c h)

/-- Every entry afterwards, on either side, was there on one of them. -/
theorem mem_rebindEntries : ∀ {es : List (String × CellId)} {shared : Registry}
    {e : String × CellId},
    e ∈ (rebindEntries es shared).1 ∨ e ∈ (rebindEntries es shared).2.entries →
      e ∈ es ∨ e ∈ shared.entries
  | [], _, _, h => h
  | (m, c) :: es, shared, e, h => by
    have hheld : (m, (shared.setDefault m c).1) ∈ (m, c) :: es ∨
        (m, (shared.setDefault m c).1) ∈ shared.entries := by
      rw [setDefault_fst]
      cases hf : shared.find? m with
      | none => exact .inl List.mem_cons_self
      | some d => exact .inr (mem_entries_of_find? hf)
    have hrest : e ∈ (rebindEntries es (shared.setDefault m c).2).1 ∨
        e ∈ (rebindEntries es (shared.setDefault m c).2).2.entries →
          e ∈ (m, c) :: es ∨ e ∈ shared.entries := by
      intro h
      rcases mem_rebindEntries h with h | h
      · exact .inl (List.mem_cons_of_mem _ h)
      · rcases mem_setDefault h with h | h
        · exact .inr h
        · exact .inl (h ▸ List.mem_cons_self)
    rcases h with h | h
    · rcases List.mem_cons.mp h with h | h
      · exact h ▸ hheld
      · exact hrest (.inl h)
    · exact hrest (.inr h)

theorem find?_rebind_shared (own shared : Registry) (n : String) :
    (own.rebind shared).2.find? n = (shared.find? n).or (own.find? n) :=
  find?_rebindEntries_shared own.entries shared n

theorem find?_rebind (own shared : Registry) (n : String) :
    (own.rebind shared).1.find? n = (own.find? n).bind fun _ => (own.rebind shared).2.find? n :=
  find?_rebindEntries own.entries shared n

theorem names_rebind (own shared : Registry) : (own.rebind shared).1.names = own.names :=
  names_rebindEntries own.entries shared

theorem nodup_rebind_shared (own : Registry) {shared : Registry} (h : shared.names.Nodup) :
    (own.rebind shared).2.names.Nodup := nodup_rebindEntries own.entries h

theorem mem_rebind {own shared : Registry} {e : String × CellId}
    (h : e ∈ (own.rebind shared).1.entries ∨ e ∈ (own.rebind shared).2.entries) :
    e ∈ own.entries ∨ e ∈ shared.entries := mem_rebindEntries h

theorem under_rebind (own shared : Registry) :
    (own.rebind shared).1.Under (own.rebind shared).2 := by
  intro n c h
  rw [find?_rebind] at h
  cases ho : own.find? n with
  | none =>
    rw [ho] at h
    simp at h
  | some d =>
    rw [ho] at h
    exact h

theorem shared_under_rebind (own shared : Registry) : shared.Under (own.rebind shared).2 := by
  intro n c h
  rw [find?_rebind_shared, h]
  rfl

/-- A shared registry that has all the names stays as it is. -/
theorem rebindEntries_shared_eq : ∀ (es : List (String × CellId)) (shared : Registry),
    es.map (·.1) ⊆ shared.names → (rebindEntries es shared).2 = shared
  | [], _, _ => rfl
  | (m, c) :: es, shared, h => by
    rw [List.map_cons, List.cons_subset] at h
    obtain ⟨d, hd⟩ := find?_eq_some_of_mem h.1
    have hs : (shared.setDefault m c).2 = shared := by
      unfold setDefault
      rw [hd]
    show (rebindEntries es (shared.setDefault m c).2).2 = shared
    rw [hs]
    exact rebindEntries_shared_eq es shared h.2

theorem rebind_shared_eq {own shared : Registry} (h : own.names ⊆ shared.names) :
    (own.rebind shared).2 = shared := rebindEntries_shared_eq own.entries shared h

/-! ### Inserting -/

theorem find?_replace (n : String) (c : CellId) : ∀ (es : List (String × CellId)) (m : String),
    find? ⟨es.map fun e => if e.1 = n then (n, c) else e⟩ m =
      (find? ⟨es⟩ m).map fun d => if m = n then c else d
  | [], _ => rfl
  | (k, d) :: es, m => by
    rw [List.map_cons, find?_cons]
    by_cases hk : k = n
    · rw [if_pos hk, find?_cons, find?_replace n c es, hk]
      by_cases hm : m = n
      · rw [if_pos hm, if_pos hm, Option.map_some, if_pos hm]
      · rw [if_neg hm, if_neg hm]
    · rw [if_neg hk, find?_cons, find?_replace n c es]
      by_cases hm : m = k
      · rw [if_pos hm, if_pos hm, Option.map_some, if_neg (by rw [hm]; exact hk)]
      · rw [if_neg hm, if_neg hm]

theorem find?_insert (r : Registry) (n : String) (c : CellId) (m : String) :
    (r.insert n c).find? m = if m = n then some c else r.find? m := by
  unfold insert
  by_cases hc : r.contains n = true
  · rw [if_pos hc, find?_replace]
    obtain ⟨d, hd⟩ := find?_eq_some_of_mem (contains_iff.mp hc)
    by_cases hm : m = n
    · rw [if_pos hm, hm]
      simp only [if_true]
      rw [hd]
      rfl
    · simp only [if_neg hm, Option.map_id']
  · rw [if_neg hc, find?_append, find?_cons, find?_nil]
    have hn : r.find? n = none := find?_eq_none.mpr fun h => hc (contains_iff.mpr h)
    by_cases hm : m = n
    · rw [if_pos hm, if_pos hm, hm]
      show (r.find? n).or (some c) = some c
      rw [hn]
      rfl
    · rw [if_neg hm, if_neg hm, Option.or_none]

theorem names_insert (r : Registry) (n : String) (c : CellId) :
    (r.insert n c).names = if n ∈ r.names then r.names else r.names ++ [n] := by
  unfold insert
  by_cases hc : r.contains n = true
  · rw [if_pos hc, if_pos (contains_iff.mp hc)]
    simp only [names, List.map_map]
    refine List.map_congr_left fun e _ => ?_
    by_cases he : e.1 = n
    · simp [he]
    · simp [he]
  · rw [if_neg hc, if_neg fun h => hc (contains_iff.mpr h)]
    simp [names]

theorem nodup_insert {r : Registry} (n : String) (c : CellId) (h : r.names.Nodup) :
    (r.insert n c).names.Nodup := by
  have hs := nodup_setDefault n c h
  rw [names_setDefault] at hs
  rw [names_insert]
  exact hs

theorem mem_insert {r : Registry} {n : String} {c : CellId} {e : String × CellId}
    (h : e ∈ (r.insert n c).entries) : e ∈ r.entries ∨ e = (n, c) := by
  unfold insert at h
  by_cases hc : r.contains n = true
  · rw [if_pos hc] at h
    obtain ⟨d, hd, he⟩ := List.mem_map.mp h
    by_cases hn : d.1 = n
    · rw [if_pos hn] at he
      exact .inr he.symm
    · rw [if_neg hn] at he
      exact .inl (he ▸ hd)
  · rw [if_neg hc] at h
    rcases List.mem_append.mp h with h | h
    · exact .inl h
    · exact .inr (List.mem_singleton.mp h)

/-! ### Updating -/

theorem update_cons (r : Registry) (e : String × CellId) (es : List (String × CellId)) :
    r.update ⟨e :: es⟩ = (r.insert e.1 e.2).update ⟨es⟩ := rfl

theorem nodup_update : ∀ (es : List (String × CellId)) {r : Registry},
    r.names.Nodup → (r.update ⟨es⟩).names.Nodup
  | [], _, h => h
  | (m, c) :: es, _, h => nodup_update es (nodup_insert m c h)

theorem mem_update : ∀ {es : List (String × CellId)} {r : Registry} {e : String × CellId},
    e ∈ (r.update ⟨es⟩).entries → e ∈ r.entries ∨ e ∈ es
  | [], _, _, h => .inl h
  | (m, c) :: es, _, e, h => by
    rw [update_cons] at h
    rcases mem_update h with h | h
    · rcases mem_insert h with h | h
      · exact .inl h
      · exact .inr (h ▸ List.mem_cons_self)
    · exact .inr (List.mem_cons_of_mem _ h)

/-- The entries that are added win. -/
theorem find?_update : ∀ {es : List (String × CellId)} (r : Registry) (n : String),
    (es.map (·.1)).Nodup → (r.update ⟨es⟩).find? n = (find? ⟨es⟩ n).or (r.find? n)
  | [], _, _, _ => rfl
  | (m, c) :: es, r, n, h => by
    rw [List.map_cons, List.nodup_cons] at h
    rw [update_cons, find?_update _ n h.2, find?_insert, find?_cons]
    by_cases hn : n = m
    · have hm : find? ⟨es⟩ m = none := find?_eq_none.mpr h.1
      rw [if_pos hn, if_pos hn, hn, hm]
      rfl
    · rw [if_neg hn, if_neg hn]

theorem mem_names_update : ∀ (es : List (String × CellId)) (r : Registry) (n : String),
    n ∈ (r.update ⟨es⟩).names ↔ n ∈ r.names ∨ n ∈ es.map (·.1)
  | [], _, _ => by simp [update]
  | (m, c) :: es, r, n => by
    rw [update_cons, mem_names_update es, names_insert]
    split_ifs with hm
    · rw [List.map_cons, List.mem_cons]
      constructor
      · rintro (h | h)
        · exact .inl h
        · exact .inr (.inr h)
      · rintro (h | rfl | h)
        · exact .inl h
        · exact .inl hm
        · exact .inr h
    · rw [List.map_cons, List.mem_cons, List.mem_append, List.mem_singleton, or_assoc]

/-! ### Renaming -/

theorem find?_rename (r : Registry) (f : CellId → CellId) (n : String) :
    (r.rename f).find? n = (r.find? n).map f := lookup_map_snd f r.entries n

@[simp] theorem names_rename (r : Registry) (f : CellId → CellId) :
    (r.rename f).names = r.names := by
  simp [names, rename]

theorem cells_rename (r : Registry) (f : CellId → CellId) : (r.rename f).cells = r.cells.map f := by
  simp [cells, rename]

theorem Under.rename {r t : Registry} (f : CellId → CellId) (h : r.Under t) :
    (r.rename f).Under (t.rename f) := by
  intro n c hc
  rw [find?_rename, Option.map_eq_some_iff] at hc
  obtain ⟨d, hd, rfl⟩ := hc
  rw [find?_rename, h n d hd]
  rfl

end Registry

end DensityAlgebra
