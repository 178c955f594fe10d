/-
# What a mapping writes

An entry that brings a value, and perhaps an error, puts them into the cell of its name; an
error that is no number comes too late for the value, which is written already. A cell has one
name, so entries under different names never write to the same cell: what
every entry of a mapping has written is still there in the end, and cells under other names
are as they were.

The result of a fit is read as a mapping. Its names are different, so none of its
measurements is lost: the first name has the first value and the first error, and so on.

Key definitions: `Cell.take`, `Entry.own?`, `Registry.cellsOf`, `Store.Written`.
Key theorems: `Run.outcome_setMeasured`, `Run.setEntries_writes`, `Density.setPars_zip`,
`FitResult.measured_eq_entries`.
-/
import DensityAlgebra.Proofs.Renewing

namespace DensityAlgebra

variable {α : Type}

/-- The cell with a value, and with an error if one is given. -/
def Cell.take (x : Cell α) (v : Content α) (e : Option α) : Cell α :=
  { x with value := v, error := (e.map .scalar).getD x.error }

/-- The cells that a registry holds under some names. -/
def Registry.cellsOf (r : Registry) (names : List String) : Set CellId :=
  {c | ∃ n ∈ names, r.find? n = some c}

theorem Registry.cellsOf_subset {r : Registry} {xs ys : List String} (h : xs ⊆ ys) :
    r.cellsOf xs ⊆ r.cellsOf ys := by
  rintro c ⟨n, hn, hc⟩
  exact ⟨n, h hn, hc⟩

variable [Scalar α]

namespace Entry

/-- What an entry brings by itself: a value, and perhaps an error. -/
def own? : Entry α → Option (Content α × Option α)
  | .given g => some (g.content, none)
  | .measured v e => e.error?.toOption.map (v, ·)
  | .cell _ => none

/-- The error that an entry brings where cells are read by `cell`, if it can be read. -/
def error? (cell : CellId → Cell α) : Entry α → Except (Fault α) (Option α)
  | .given _ => .ok none
  | .measured _ e => e.error?
  | .cell d => (cell d).error.error?

/-- What an entry brings where cells are read by `cell`: a value, and an error if there is
one that can be read. -/
def reads (cell : CellId → Cell α) (e : Entry α) : Content α × Option α :=
  (match e with
    | .given g => g.content
    | .measured v _ => v
    | .cell d => (cell d).value, (e.error? cell).toOption.join)

/-- What an entry brings by itself is what it brings. -/
theorem reads_of_own? {e : Entry α} {v : Content α} {err : Option α}
    (h : e.own? = some (v, err)) (cell : CellId → Cell α) : e.reads cell = (v, err) := by
  cases e with
  | given g => exact Option.some.inj h
  | measured w e =>
    obtain ⟨err', herr, heq⟩ := Option.map_eq_some_iff.mp h
    rw [← heq]
    simp only [reads, error?, herr, Option.join_some]
  | cell d => cases h

end Entry

/-- The cell with what an entry brings. -/
def Cell.takes (x : Cell α) (p : Content α × Option α) : Cell α := x.take p.1 p.2

/-- The entries have written what they bring to the cells of their names, between the two
stores. -/
def Store.Written (s t : Store α) (r : Registry) (es : List (String × Entry α)) : Prop :=
  ∀ e ∈ es, ∀ c v err, r.find? e.1 = some c → e.2.own? = some (v, err) →
    t.cell c = (s.cell c).take v err

/-- A cell under another name is another cell. -/
theorem Store.Holds.not_mem_cellsOf {s : Store α} {r : Registry} (hr : s.Holds r) {n : String}
    {c : CellId} (hc : r.find? n = some c) {names : List String} (hn : n ∉ names) :
    c ∉ r.cellsOf names := by
  rintro ⟨m, hm, hc'⟩
  have hname : m = n := (hr.find?_named hc').symm.trans (hr.find?_named hc)
  exact hn (hname ▸ hm)

/-! ### One entry after the other -/

namespace Run

theorem outcome_setCell (c : CellId) (v : Content α) (e : Option α) (s : Store α) :
    (setCell c v e).outcome s = (.ok (), s.putCell c ((s.cell c).take v e)) := rfl

omit [Scalar α] in
/-- The last content of a cell counts. -/
theorem putCell_putCell (s : Store α) (c : CellId) (x y : Cell α) :
    (s.putCell c x).putCell c y = s.putCell c y := by
  unfold Store.putCell
  simp only [Array.setIfInBounds_setIfInBounds]

/-- **A cell takes a value and an error**, or the value alone where the error is no number. -/
theorem outcome_setMeasured (c : CellId) (v e : Content α) (s : Store α) :
    (setMeasured c v e).outcome s =
      (e.error?.map fun _ => (), s.putCell c ((s.cell c).take v e.error?.toOption.join)) := by
  have hagain : ∀ err, ((s.putCell c ((s.cell c).take v none)).putCell c
      (((s.putCell c ((s.cell c).take v none)).cell c).take v err)) =
        s.putCell c ((s.cell c).take v err) := by
    intro err
    rw [putCell_putCell, Store.cell_putCell]
    split_ifs with hc
    · rfl
    · -- nothing is written outside of the store
      have hout : s.cells.size ≤ c.index := not_lt.mp fun h => hc ⟨rfl, h⟩
      unfold Store.putCell
      simp only [Array.setIfInBounds_eq_of_size_le hout]
  unfold setMeasured
  rw [outcome_bind_ok _ (outcome_setCell c v none s)]
  cases he : e.error? with
  | error f => exact outcome_bind_error _ (outcome_reading _ _)
  | ok err =>
    refine (outcome_bind_ok _ (outcome_reading _ _)).trans ?_
    exact congrArg (Prod.mk (Except.ok ())) (hagain err)

/-- **An entry is written as it is in the store**, up to an error that is no number. -/
theorem outcome_setEntry (s : Store α) (c : CellId) : ∀ e : Entry α,
    (setEntry c e).outcome s =
      ((e.error? s.cell).map fun _ => (), s.putCell c ((s.cell c).takes (e.reads s.cell)))
  | .given g => outcome_setCell c g.content none s
  | .measured v e => outcome_setMeasured c v e s
  | .cell _ => (outcome_bind_ok _ (outcome_get s)).trans (outcome_setMeasured c _ _ s)

/-- An entry writes what it brings. -/
theorem setEntry_writes {s : Store α} (hs : s.Sound) {c : CellId} (hc : c.index < s.cells.size)
    (e : Entry α) :
    (setEntry c e).Ends s (fun _ t => s.Inside {c} ∅ t ∧
      ∀ v err, e.own? = some (v, err) → t.cell c = (s.cell c).take v err) fun _ => True := by
  have hkeeps := (setEntry_keeps (D := ∅) (Set.mem_singleton c) e) s (Store.Inside.refl hs)
  have hwrites : (setEntry c e).Ends s (fun _ t =>
      ∀ v err, e.own? = some (v, err) → t.cell c = (s.cell c).take v err) fun _ => True := by
    refine (ends_iff ..).mpr ⟨fun _ t ht v err hown => ?_, fun _ _ _ => trivial⟩
    obtain ⟨-, rfl⟩ := Prod.mk.inj ((outcome_setEntry s c e).symm.trans ht)
    rw [Store.cell_putCell, if_pos ⟨rfl, hc⟩, Entry.reads_of_own? hown]
    rfl
  exact (hkeeps.and hwrites).mono (fun _ _ h => h) fun _ _ => trivial

/-- **Entries under different names all stay written**, and change no other cell. -/
theorem setEntries_writes {r : Registry} : ∀ (es : List (String × Entry α)) {s : Store α},
    s.Sound → s.Holds r → (es.map (·.1)).Nodup →
    (setEntries r es).Ends s (fun _ t =>
      s.Inside (r.cellsOf (es.map (·.1))) ∅ t ∧ s.Written t r es) fun _ => True
  | [], s, hs, _, _ => ends_pure ⟨Store.Inside.refl hs, fun _ h => absurd h List.not_mem_nil⟩
  | (n, e) :: rest, s, hs, hr, hd => by
    rw [List.map_cons, List.nodup_cons] at hd
    have hrest : r.cellsOf (rest.map (·.1)) ⊆ r.cellsOf (((n, e) :: rest).map (·.1)) :=
      Registry.cellsOf_subset (List.subset_cons_self _ _)
    unfold setEntries
    cases hc : r.find? n with
    | none =>
      refine (setEntries_writes rest hs hr hd.2).mono (fun _ t ht => ?_) fun _ h => h
      refine ⟨ht.1.mono hrest (Set.Subset.refl _), List.forall_mem_cons.mpr ⟨?_, ht.2⟩⟩
      intro c v err hfind
      rw [hc] at hfind
      cases hfind
    | some c =>
      have hbounded := hr.find?_bounded hc
      refine (setEntry_writes hs hbounded e).bind fun _ u hu => ?_
      obtain ⟨hsu, hwritten⟩ := hu
      refine (setEntries_writes rest hsu.sound (hsu.toGrows.holds hr) hd.2).mono
        (fun _ t ht => ⟨?_, ?_⟩) fun _ h => h
      · have hfirst : ({c} : Set CellId) ⊆ r.cellsOf (((n, e) :: rest).map (·.1)) := by
          rintro d rfl
          exact ⟨n, List.mem_cons_self, hc⟩
        exact (hsu.mono hfirst (Set.Subset.refl _)).trans (ht.1.mono hrest (Set.Subset.refl _))
      · refine List.forall_mem_cons.mpr
          ⟨fun d v err hd' hown => ?_, fun e' he' d v err hd' hown => ?_⟩
        · -- the later entries have other names
          obtain rfl : c = d := Option.some.inj (hc.symm.trans hd')
          have hlast := ht.1.cells c (hbounded.trans_le hsu.moreCells)
            (hr.not_mem_cellsOf hc hd.1)
          exact hlast.trans (hwritten v err hown)
        · have hne : d ∉ ({c} : Set CellId) := by
            rintro rfl
            have hname : e'.1 = n := (hr.find?_named hd').symm.trans (hr.find?_named hc)
            exact hd.1 (hname ▸ List.mem_map_of_mem (f := (·.1)) he')
          rw [ht.2 e' he' d v err hd' hown, hsu.cells d (hr.find?_bounded hd') hne]

theorem assign_writes {s : Store α} (hs : s.Sound) (r : RegistryId)
    {es : List (String × Entry α)} (hd : (es.map (·.1)).Nodup) (kind : String) :
    (assign r (.mapping es) kind).Ends s (fun _ t =>
      s.Inside ((s.registry r).cellsOf (es.map (·.1))) ∅ t ∧ s.Written t (s.registry r) es)
      fun _ => True := by
  unfold assign
  refine ends_get_bind (ends_ite (fun _ => ?_) fun _ => ends_throw trivial)
  exact setEntries_writes es hs (hs r) hd

end Run

/-! ### Parameters -/

namespace Density

/-- **What setting parameters from a mapping leaves**: what its entries bring, and right
normalizations. -/
theorem setPars_writes {s : Store α} {d : Density α} (hs : s.Sound) (hd : d.Valid s)
    {es : List (String × Entry α)} (hes : (es.map (·.1)).Nodup) :
    (d.setPars (.mapping es)).Ends s (fun _ t =>
      s.Written t (s.registry d.pars) es ∧ ∀ m ∈ d.models, m.Fresh t) fun _ => True := by
  refine (Run.assign_writes hs d.pars hes _).bind fun _ u ⟨hsu, hwritten⟩ => ?_
  have hkeeps : Run.Keeps (u.Inside ∅ Set.univ) d.cache := cache_keeps fun _ _ => Set.mem_univ _
  have hcache := hkeeps u (Store.Inside.refl hsu.sound)
  have hfresh := cache_fresh hsu.sound (hd.grows hsu.toGrows)
  refine (hcache.and hfresh).mono (fun _ t ht => ⟨fun e he c v err hc hown => ?_, ht.2⟩)
    fun _ _ => trivial
  have hbounded := ((hs d.pars).find?_bounded hc).trans_le hsu.moreCells
  rw [ht.1.cells c hbounded (Set.notMem_empty c)]
  exact hwritten e he c v err hc hown

omit [Scalar α] in
theorem fst_zip_sublist {β : Type} : ∀ (names : List String) (es : List β),
    ((names.zip es).map (·.1)).Sublist names
  | [], _ => List.Sublist.refl _
  | _ :: _, [] => List.nil_sublist _
  | n :: names, _ :: es => (fst_zip_sublist names es).cons_cons n

/-- Where entries are brought to names by position, only cells under these names change. -/
theorem setPars_zip_keeps {b : Store α} {d : Density α} {D : Set StateId}
    (hp : d.pars.index < b.registries.size) (hD : ∀ e ∈ d.states, e ∈ D) (names : List String)
    (es : List (Entry α)) :
    Run.Keeps (b.Inside ((b.registry d.pars).cellsOf names) D)
      (d.setPars (.mapping (names.zip es))) := by
  refine Run.Keeps.bind (fun s hs => ?_) fun _ => cache_keeps hD
  refine Run.ends_get_bind (Run.ends_ite (fun _ => ?_) fun _ => Run.ends_throw hs)
  refine Run.setEntries_keeps _ (fun e he c hc => ?_) s hs
  rw [hs.registries _ hp] at hc
  exact ⟨e.1, (fst_zip_sublist names es).subset (List.mem_map_of_mem he), hc⟩

/-- **Names and entries correspond by position**: each cell has what is brought at the
position of its name. -/
theorem setPars_zip {s : Store α} {d : Density α} (hs : s.Sound) (hd : d.Valid s)
    {names : List String} {es : List (Entry α)} (hn : names.Nodup)
    (he : es.length = names.length) :
    (d.setPars (.mapping (names.zip es))).Ends s (fun _ t =>
      (∀ (i : Nat) n c e v err, names[i]? = some n → (s.registry d.pars).find? n = some c →
        es[i]? = some e → e.own? = some (v, err) → t.cell c = (s.cell c).take v err) ∧
      ∀ m ∈ d.models, m.Fresh t) fun _ => True := by
  have hnames : (names.zip es).map (·.1) = names := List.map_fst_zip he.ge
  refine (setPars_writes hs hd (hnames.symm ▸ hn)).mono (fun _ t ht => ⟨?_, ht.2⟩) fun _ h => h
  intro i n c e v err hi hc hei hown
  have hmem : (n, e) ∈ names.zip es :=
    List.mem_of_getElem? (List.getElem?_zip_eq_some.mpr ⟨hi, hei⟩)
  exact ht.1 (n, e) hmem c v err hc hown

end Density

/-! ### Results as mappings -/

namespace FitResult

omit [Scalar α] in
/-- Where no name comes twice, all entries count. -/
theorem byName_of_nodup {β : Type} {entries : List (String × β)}
    (h : (entries.map (·.1)).Nodup) : byName entries = entries := by
  suffices hfold : ∀ (acc es : List (String × β)), ((acc ++ es).map (·.1)).Nodup →
      es.foldl (fun acc e =>
        if acc.any (·.1 = e.1) then acc.map fun old => if old.1 = e.1 then e else old
        else acc ++ [e]) acc = acc ++ es from hfold [] entries h
  intro acc es
  induction es generalizing acc with
  | nil => intro _; simp
  | cons e rest ih =>
    intro hd
    have hnew : acc.any (·.1 = e.1) = false := by
      rw [List.any_eq_false]
      intro old hold heq
      rw [List.map_append, List.map_cons, List.nodup_append] at hd
      exact hd.2.2 old.1 (List.mem_map_of_mem hold) e.1 List.mem_cons_self (by simpa using heq)
    rw [List.foldl_cons, hnew, if_neg Bool.false_ne_true, ih]
    · simp
    · simpa using hd

/-- What a result brings: values with their errors. -/
def entries (r : FitResult α) : List (Entry α) :=
  (r.values.zip r.errors).map fun e => .measured (.scalar e.1) (.scalar e.2)

omit [Scalar α] in
/-- **A result is read position by position**, if its names are different. -/
theorem measured_eq_entries {r : FitResult α} (hn : r.names.Nodup) :
    (Input.result r).measured = .mapping (r.names.zip r.entries) := by
  have hread : r.measurements = r.names.zip (r.values.zip r.errors) :=
    byName_of_nodup ((Density.fst_zip_sublist _ _).nodup hn)
  unfold Input.measured entries
  show Input.mapping (r.measurements.map _) = _
  rw [hread]
  exact congrArg Input.mapping (List.zip_map_right
    (f := fun e : α × α => (.measured (.scalar e.1) (.scalar e.2) : Entry α))).symm

end FitResult

/-- Setting parameters from a result sets them from its entries. -/
theorem Density.setPars_result (d : Density α) {r : FitResult α} (hn : r.names.Nodup) :
    d.setPars (.result r) = d.setPars (.mapping (r.names.zip r.entries)) := by
  unfold setPars
  rw [FitResult.measured_eq_entries hn]
  rfl

end DensityAlgebra
