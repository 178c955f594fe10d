/-
# When an assignment is accepted

An assignment is checked before anything is written. A row is accepted if it is as long as
the names are many, a mapping if it has no name that the registry lacks, and nothing else is.
What is refused leaves the store as it was.

What is accepted is written entry by entry. A row is then nothing but a mapping from the
names in ascending order. Values can be written whatever they are, and errors if they can be
read as numbers; where all of them can, an accepted assignment does not fail. An error that
can be read stays so while others are written, since what is written is a number.

Key definitions: `Input.Matches`, `Input.Proper`, `Input.entries`, `Entry.Readable`.
Key theorems: `Run.setValues_eq_setEntries`, `Run.assign_refused`, `Run.setEntries_readable`,
`Run.assign_accepted`.
-/
import DensityAlgebra.Proofs.Assigning

namespace DensityAlgebra

variable {α : Type}

/-! ### Forms that fit a registry -/

namespace Input

/-- The names that values go to, each with what it takes. -/
def entries (r : Registry) : Input α → List (String × Entry α)
  | .mapping es => es
  | .row gs => r.sortedNames.zip (gs.map Entry.given)
  | _ => []

/-- The form is accepted for the cells of a registry. -/
def Matches (r : Registry) : Input α → Prop
  | .mapping es => ∀ e ∈ es, e.1 ∈ r.names
  | .row gs => gs.length = r.sortedNames.length
  | _ => False

/-- A mapping has different names. -/
def Proper : Input α → Prop
  | .mapping es => (es.map (·.1)).Nodup
  | _ => True

theorem matches_single {r : Registry} {name : String} {x : Entry α} :
    (mapping [(name, x)]).Matches r ↔ name ∈ r.names :=
  List.forall_mem_singleton (p := fun e : String × Entry α => e.1 ∈ r.names)

/-- A row goes to the names of a registry. -/
theorem entries_row_fst {r : Registry} {gs : List (Given α)} (h : (row gs).Matches r) :
    ((row gs).entries r).map (·.1) = r.sortedNames :=
  List.map_fst_zip (by rw [List.length_map]; exact h.ge)

/-- Entries of a proper form have different names. -/
theorem Proper.nodup_entries {r : Registry} (hr : r.names.Nodup) : ∀ {input : Input α},
    input.Proper → input.Matches r → ((input.entries r).map (·.1)).Nodup
  | .mapping _, hp, _ => hp
  | .row _, _, h => by
    rw [entries_row_fst h]
    exact Registry.nodup_sortedNames hr

theorem Matches.entries {r : Registry} : ∀ {input : Input α}, input.Matches r →
    ∀ e ∈ input.entries r, e.1 ∈ r.names
  | .mapping _, h => h
  | .row _, _ => fun _ he => Registry.mem_sortNames.mp (List.of_mem_zip he).1

end Input

/-- By name, every name comes once. -/
theorem FitResult.nodup_byName {β : Type} (es : List (String × β)) :
    ((byName es).map (·.1)).Nodup := by
  suffices hfold : ∀ acc : List (String × β), (acc.map (·.1)).Nodup →
      ((es.foldl (fun acc e =>
        if acc.any (·.1 = e.1) then acc.map fun old => if old.1 = e.1 then e else old
        else acc ++ [e]) acc).map (·.1)).Nodup from hfold [] List.nodup_nil
  induction es with
  | nil => exact fun _ h => h
  | cons e rest ih =>
    intro acc hacc
    refine ih _ ?_
    beta_reduce
    by_cases hmem : acc.any (·.1 = e.1) = true
    · -- an entry takes the place of one of its own name
      have hnames : (acc.map fun old => if old.1 = e.1 then e else old).map (·.1) =
          acc.map (·.1) := by
        rw [List.map_map]
        refine List.map_congr_left fun old _ => ?_
        show (if old.1 = e.1 then e else old).1 = old.1
        split_ifs with heq
        · exact heq.symm
        · rfl
      rwa [if_pos hmem, hnames]
    · have hnew : e.1 ∉ acc.map (·.1) := by simpa using hmem
      rw [if_neg hmem, List.map_append, List.nodup_append]
      refine ⟨hacc, List.nodup_singleton _, fun n hn m hm heq => hnew ?_⟩
      obtain rfl : m = e.1 := List.mem_singleton.mp hm
      exact heq ▸ hn

/-- The result of a fit gives values under different names. -/
theorem Input.Proper.measured {input : Input α} (h : input.Proper) : input.measured.Proper := by
  cases input with
  | result r =>
    rw [Input.measured, Proper, List.map_map]
    exact FitResult.nodup_byName _
  | _ => exact h

/-! ### Errors that can be read -/

variable [Scalar α]

/-- The error that an entry brings can be read. -/
def Entry.Readable (s : Store α) (e : Entry α) : Prop := ∃ err, e.error? s.cell = .ok err

/-- An error that can be read still can after a cell took something. -/
theorem Entry.Readable.putCell {s : Store α} {e : Entry α} (h : e.Readable s) (c : CellId)
    (p : Content α × Option α) : e.Readable (s.putCell c ((s.cell c).takes p)) := by
  cases e with
  | cell d =>
    show ∃ err, ((s.putCell c ((s.cell c).takes p)).cell d).error.error? = .ok err
    rw [Store.cell_putCell]
    split_ifs with hd
    · -- a number was written, or the error stays
      obtain ⟨v, - | y⟩ := p
      · exact hd.1 ▸ h
      · exact ⟨some y, rfl⟩
    · exact h
  | _ => exact h

/-- The errors that a mapping brings can be read. -/
def Input.Readable (s : Store α) : Input α → Prop
  | .mapping es => ∀ e ∈ es, e.2.Readable s
  | _ => True

theorem Input.Readable.entries {s : Store α} (r : Registry) : ∀ {input : Input α},
    input.Readable s → ∀ e ∈ input.entries r, e.2.Readable s
  | .mapping _, h => h
  | .row _, _ => fun e he => by
    obtain ⟨g, -, hg⟩ := List.mem_map.mp (List.of_mem_zip he).2
    exact ⟨none, hg ▸ rfl⟩
  | .nothing, _ | .text _, _ | .result _, _ | .single _, _ => fun e he => absurd he List.not_mem_nil

/-! ### Writing what is accepted -/

namespace Run

/-- A row is written like a mapping from the names. -/
theorem setValues_eq_setEntries {r : Registry} : ∀ {names : List String} (gs : List (Given α)),
    names ⊆ r.names →
    setValues (names.filterMap r.find?) gs = setEntries r (names.zip (gs.map Entry.given))
  | [], _, _ => rfl
  | n :: names, gs, h => by
    rw [List.cons_subset] at h
    obtain ⟨c, hc⟩ := Registry.find?_eq_some_of_mem h.1
    rw [List.filterMap_cons_some hc]
    cases gs with
    | nil => rfl
    | cons g gs =>
      rw [List.map_cons, List.zip_cons_cons]
      unfold setValues setEntries
      rw [hc, setValues_eq_setEntries gs h.2]
      rfl

/-- An accepted form is written by its entries. -/
theorem assign_eq_setEntries {s : Store α} {r : RegistryId} {input : Input α}
    (h : input.Matches (s.registry r)) (kind : String) :
    (assign r input kind).outcome s =
      (setEntries (s.registry r) (input.entries (s.registry r))).outcome s := by
  have hget : (assign r input kind).outcome s = _ := outcome_bind_ok _ (outcome_get s)
  rw [hget]
  cases input with
  | mapping es =>
    have hknown : (es.map (·.1)).filter (fun n => !(s.registry r).contains n) = [] := by
      rw [List.filter_eq_nil_iff]
      intro n hn
      obtain ⟨e, he, rfl⟩ := List.mem_map.mp hn
      simpa using Registry.contains_iff.mpr (h e he)
    simp only [hknown, List.isEmpty_nil, if_true]
    rfl
  | row gs =>
    have hlength : gs.length = (s.registry r).sortedNames.length := h
    simp only [hlength, if_true]
    have hnames : (s.registry r).sortedNames ⊆ (s.registry r).names := fun _ =>
      Registry.mem_sortNames.mp
    rw [setValues_eq_setEntries gs hnames]
    rfl
  | _ => exact absurd h id

/-- **What is not accepted is refused**, and nothing is written. -/
theorem assign_refused {s : Store α} {r : RegistryId} {input : Input α}
    (h : ¬ input.Matches (s.registry r)) (kind : String) :
    ∃ e, (assign r input kind).outcome s = (.error e, s) := by
  have hget : (assign r input kind).outcome s = _ := outcome_bind_ok _ (outcome_get s)
  rw [hget]
  cases input with
  | mapping es =>
    have hunknown : ((es.map (·.1)).filter fun n => !(s.registry r).contains n).isEmpty = false := by
      rw [← Bool.not_eq_true, List.isEmpty_iff, List.filter_eq_nil_iff]
      refine fun hknown => h fun e he => ?_
      simpa using Registry.contains_iff.mp (by simpa using hknown e.1 (List.mem_map_of_mem he))
    simp only [hunknown, Bool.false_eq_true, if_false]
    exact ⟨_, rfl⟩
  | row gs =>
    have hlength : ¬ gs.length = (s.registry r).sortedNames.length := h
    simp only [hlength, if_false]
    exact ⟨_, rfl⟩
  | _ => exact ⟨_, rfl⟩

theorem outcome_setEntry_of_readable {s : Store α} {e : Entry α} (h : e.Readable s) (c : CellId) :
    (setEntry c e).outcome s = (.ok (), s.putCell c ((s.cell c).takes (e.reads s.cell))) := by
  obtain ⟨err, herr⟩ := h
  rw [outcome_setEntry, herr]
  rfl

/-- **Entries whose errors can be read are written to the end.** -/
theorem setEntries_readable {r : Registry} : ∀ (es : List (String × Entry α)) {s : Store α},
    (∀ e ∈ es, e.2.Readable s) → (setEntries r es).Ends s (fun _ _ => True) fun _ => False
  | [], _, _ => ends_pure trivial
  | (n, e) :: rest, s, h => by
    rw [List.forall_mem_cons] at h
    unfold setEntries
    cases r.find? n with
    | none => exact setEntries_readable rest h.2
    | some c =>
      have hrest := setEntries_readable (r := r) rest fun e' he' =>
        (h.2 e' he').putCell c (e.reads s.cell)
      exact hrest.congr (outcome_bind_ok _ (outcome_setEntry_of_readable h.1 c))

/-- **What is accepted is written**, and nothing else is. -/
theorem assign_accepted {s : Store α} (hs : s.Sound) {r : RegistryId} {input : Input α}
    (h : input.Matches (s.registry r)) (hp : input.Proper) (hread : input.Readable s)
    (kind : String) :
    (assign r input kind).Ends s (fun _ t =>
      s.Inside ((s.registry r).cellsOf ((input.entries (s.registry r)).map (·.1))) ∅ t ∧
        s.Written t (s.registry r) (input.entries (s.registry r))) fun _ => False := by
  have hwrites := (setEntries_writes _ hs (hs r) (hp.nodup_entries (hs r).distinct h)).and
    (setEntries_readable (r := s.registry r) _ (hread.entries _))
  obtain ⟨_, t, ht, hwritten, -⟩ :=
    (hwrites.mono (fun _ _ h => h) fun _ h => h.2).exists_ok
  exact ends_of_ok ((assign_eq_setEntries h kind).trans ht) hwritten

end Run

end DensityAlgebra
