/-
# Mappings that read the cells they write

An entry of a mapping may name a cell, and that cell may be one that the mapping writes.
The entries are written one after the other, and an entry reads its cell when its turn comes:
what an earlier entry has written there is what it reads. So a mapping that swaps two cells
leaves both with the content of one of them.

The mapping is an assignment at once of all that its entries hold when the call begins exactly
if every cell that is read after it was written has kept its value and its error. Where no
entry reads a cell that another one writes, this is so in every order.

The writing stops at an entry whose error cannot be read. Its value is written by then, and so
are the entries before it.

Key definitions: `Store.Keyed`, `Store.InTurn`, `Store.AtOnce`, `Store.Halted`.
Key theorems: `Run.setEntries_outcome`, `Store.InTurn.atOnce_iff`, `Run.assign_inTurn`.
-/
import DensityAlgebra.Proofs.Accepting
import DensityAlgebra.Proofs.Rational

namespace DensityAlgebra

variable {α : Type}

/-! ### What is written, and when it is read -/

/-- The registry has a cell of the store under each name, and none under two. -/
structure Store.Keyed (s : Store α) (r : Registry) : Prop where
  bounded : ∀ {n c}, r.find? n = some c → c.index < s.cells.size
  single : ∀ {n m c}, r.find? n = some c → r.find? m = some c → n = m

/-- The error of the cell is a number. -/
def Cell.Measured (x : Cell α) : Prop := ∃ e, x.error = .scalar e

theorem Registry.not_mem_cellsOf_cons {r : Registry} {n : String} {names : List String}
    {c d : CellId} (hc : r.find? n = some c) (hd : d ∉ r.cellsOf (n :: names)) :
    d ≠ c ∧ d ∉ r.cellsOf names := by
  refine ⟨?_, fun hmem => hd (cellsOf_subset (List.subset_cons_self _ _) hmem)⟩
  rintro rfl
  exact hd ⟨n, List.mem_cons_self, hc⟩

variable [Scalar α]

theorem Entry.reads_congr {cell cell' : CellId → Cell α} {e : Entry α}
    (h : ∀ d, e = .cell d → cell' d = cell d) : e.reads cell' = e.reads cell := by
  cases e with
  | cell d =>
    unfold reads error?
    simp only [h d rfl]
  | _ => rfl

namespace Cell

omit [Scalar α] in
theorem Measured.takes {x : Cell α} (h : x.Measured) : ∀ p, (x.takes p).Measured
  | (_, none) => h
  | (_, some y) => ⟨y, rfl⟩

theorem Measured.readable {s : Store α} {d : CellId} (h : (s.cell d).Measured) :
    (Entry.cell d).Readable s := by
  obtain ⟨e, he⟩ := h
  exact ⟨some e, congrArg Content.error? he⟩

/-- What a cell takes from one whose error is a number is its content. -/
theorem Measured.content_takes {cell : CellId → Cell α} {d : CellId} (h : (cell d).Measured)
    (x : Cell α) : (x.takes (Entry.reads cell (.cell d))).content = (cell d).content := by
  obtain ⟨e, he⟩ := h
  unfold Entry.reads Entry.error? content Cell.takes take
  simp only [he]
  rfl

end Cell

theorem Store.Holds.keyed {s : Store α} {r : Registry} (h : s.Holds r) : s.Keyed r where
  bounded := h.find?_bounded
  single hc hc' := (h.find?_named hc).symm.trans (h.find?_named hc')

namespace Store

variable {s t u : Store α} {r : Registry} {es : List (String × Entry α)}

omit [Scalar α] in
theorem Keyed.not_mem_cellsOf (h : s.Keyed r) {n : String} {c : CellId}
    (hc : r.find? n = some c) {names : List String} (hn : n ∉ names) : c ∉ r.cellsOf names := by
  rintro ⟨m, hm, hc'⟩
  exact hn (h.single hc' hc ▸ hm)

/-- The entries were written in order, each as it was when its turn came: cells of earlier
entries are read as they are in the end, all others as they were in the beginning. -/
structure InTurn (s t : Store α) (r : Registry) (es : List (String × Entry α)) : Prop where
  size : t.cells.size = s.cells.size
  registries : t.registries = s.registries
  states : t.states = s.states
  others : ∀ c, c ∉ r.cellsOf (es.map (·.1)) → t.cell c = s.cell c
  early : ∀ {before after n e c}, es = before ++ (n, e) :: after → r.find? n = some c →
    (∀ d, e = .cell d → d ∉ r.cellsOf (before.map (·.1))) →
      t.cell c = (s.cell c).takes (e.reads s.cell)
  late : ∀ {before after n d c}, es = before ++ (n, .cell d) :: after → r.find? n = some c →
    d ∈ r.cellsOf (before.map (·.1)) → t.cell c = (s.cell c).takes (Entry.reads t.cell (.cell d))

/-- Every entry was written as it was in the beginning. -/
def AtOnce (s t : Store α) (r : Registry) (es : List (String × Entry α)) : Prop :=
  ∀ n e c, (n, e) ∈ es → r.find? n = some c → t.cell c = (s.cell c).takes (e.reads s.cell)

/-- The writing of the entries has stopped at one whose error cannot be read: it and those
before it were written in turn, but for that error. -/
def Halted (s t : Store α) (r : Registry) (es : List (String × Entry α)) (e : Fault α) : Prop :=
  ∃ before n x after, es = before ++ (n, x) :: after ∧ s.InTurn t r (before ++ [(n, x)]) ∧
    x.error? t.cell = .error e

theorem InTurn.nil (s : Store α) (r : Registry) : s.InTurn s r [] where
  size := rfl
  registries := rfl
  states := rfl
  others _ _ := rfl
  early h := absurd h.symm (List.append_ne_nil_of_right_ne_nil _ (List.cons_ne_nil _ _))
  late h := absurd h.symm (List.append_ne_nil_of_right_ne_nil _ (List.cons_ne_nil _ _))

/-- One entry, and then the others. -/
theorem InTurn.cons {n : String} {e : Entry α} {c : CellId} (hs : s.Keyed r)
    (hc : r.find? n = some c) (hn : n ∉ es.map (·.1))
    (h : (s.putCell c ((s.cell c).takes (e.reads s.cell))).InTurn t r es) :
    s.InTurn t r ((n, e) :: es) := by
  have hfirst : t.cell c = (s.cell c).takes (e.reads s.cell) := by
    rw [h.others c (hs.not_mem_cellsOf hc hn), cell_putCell, if_pos ⟨rfl, hs.bounded hc⟩]
  have hother : ∀ d, d ≠ c → (s.putCell c ((s.cell c).takes (e.reads s.cell))).cell d = s.cell d :=
    fun d hne => by rw [cell_putCell, if_neg fun h => hne h.1]
  -- a later entry has another cell
  have hlater : ∀ {before after : List (String × Entry α)} {m e' c'},
      es = before ++ (m, e') :: after → r.find? m = some c' → c' ≠ c := by
    rintro before after m e' c' rfl hc' rfl
    have hmem : m ∈ (before ++ (m, e') :: after).map (·.1) := by simp
    exact hn (hs.single hc' hc ▸ hmem)
  refine
    { size := h.size.trans (Array.size_setIfInBounds ..)
      registries := h.registries
      states := h.states
      others := fun d hd => ?_
      early := fun {before after m e' c'} hes hc' hread => ?_
      late := fun {before after m d c'} hes hc' hread => ?_ }
  · obtain ⟨hne, hrest⟩ := Registry.not_mem_cellsOf_cons hc hd
    rw [h.others d hrest, hother d hne]
  · cases before with
    | nil =>
      obtain ⟨⟨rfl, rfl⟩, -⟩ : (n = m ∧ e = e') ∧ es = after := by simpa using hes
      obtain rfl : c = c' := Option.some.inj (hc.symm.trans hc')
      exact hfirst
    | cons x before =>
      obtain ⟨rfl, hrest⟩ := List.cons.inj hes
      have hreads : ∀ d, e' = .cell d → d ≠ c ∧ d ∉ r.cellsOf (before.map (·.1)) :=
        fun d he' => Registry.not_mem_cellsOf_cons hc (hread d he')
      rw [h.early hrest hc' fun d he' => (hreads d he').2, hother c' (hlater hrest hc'),
        Entry.reads_congr fun d he' => hother d (hreads d he').1]
  · cases before with
    | nil =>
      obtain ⟨_, hm, -⟩ := hread
      cases hm
    | cons x before =>
      obtain ⟨rfl, hrest⟩ := List.cons.inj hes
      by_cases hd : d ∈ r.cellsOf (before.map (·.1))
      · rw [h.late hrest hc' hd, hother c' (hlater hrest hc')]
      · -- only the first entry has written there
        obtain ⟨k, hk, hdk⟩ := hread
        obtain rfl : k = n := by
          by_contra hne
          exact hd ⟨k, (List.mem_cons.mp hk).resolve_left hne, hdk⟩
        obtain rfl : c = d := Option.some.inj (hc.symm.trans hdk)
        have hunread : ∀ d', Entry.cell c = (.cell d' : Entry α) →
            d' ∉ r.cellsOf (before.map (·.1)) := by
          rintro _ ⟨⟩
          exact hd
        rw [h.early hrest hc' hunread, hother c' (hlater hrest hc')]
        refine congrArg _ (Entry.reads_congr fun d' hd' => ?_).symm
        obtain rfl : c = d' := Entry.cell.inj hd'
        exact h.others c (hs.not_mem_cellsOf hc hn)

/-- An error that is a number is one after the entries were written. -/
theorem InTurn.measured (h : s.InTurn t r es) {c : CellId} (hc : (s.cell c).Measured) :
    (t.cell c).Measured := by
  by_cases hmem : c ∈ r.cellsOf (es.map (·.1))
  · obtain ⟨n, hn, hfind⟩ := hmem
    obtain ⟨⟨n, e⟩, he, rfl⟩ := List.mem_map.mp hn
    obtain ⟨before, after, hsplit⟩ := List.append_of_mem he
    by_cases hread : ∃ d, e = .cell d ∧ d ∈ r.cellsOf (before.map (·.1))
    · obtain ⟨d, rfl, hd⟩ := hread
      exact h.late hsplit hfind hd ▸ hc.takes _
    · exact h.early hsplit hfind (fun d he hd => hread ⟨d, he, hd⟩) ▸ hc.takes _
  · exact h.others c hmem ▸ hc

/-- **Entries that were written in turn were written at once** exactly if the cells that are
read after they were written have kept value and error, where errors are numbers. -/
theorem InTurn.atOnce_iff (h : s.InTurn t r es) (hes : ∀ e ∈ es, e.1 ∈ r.names)
    (hcells : ∀ n d, (n, .cell d) ∈ es → (s.cell d).Measured) :
    s.AtOnce t r es ↔ ∀ before after n d, es = before ++ (n, .cell d) :: after →
      d ∈ r.cellsOf (before.map (·.1)) →
        (t.cell d).content = (s.cell d).content := by
  constructor
  · intro hat before after n d hsplit hd
    have hmem : (n, .cell d) ∈ es := by simp [hsplit]
    obtain ⟨c, hc⟩ := Registry.find?_eq_some_of_mem (hes _ hmem)
    have hmeasured := hcells n d hmem
    calc (t.cell d).content
        = ((s.cell c).takes (Entry.reads t.cell (.cell d))).content :=
          ((h.measured hmeasured).content_takes _).symm
      _ = ((s.cell c).takes (Entry.reads s.cell (.cell d))).content :=
          congrArg Cell.content ((h.late hsplit hc hd).symm.trans (hat n _ c hmem hc))
      _ = (s.cell d).content := hmeasured.content_takes _
  · intro hkept n e c hmem hc
    obtain ⟨before, after, hsplit⟩ := List.append_of_mem hmem
    by_cases hread : ∃ d, e = .cell d ∧ d ∈ r.cellsOf (before.map (·.1))
    · obtain ⟨d, rfl, hd⟩ := hread
      have hcontent := hkept before after n d hsplit hd
      rw [h.late hsplit hc hd]
      exact congrArg (fun p : Content α × Content α =>
        (s.cell c).takes (p.1, p.2.error?.toOption.join)) hcontent
    · exact h.early hsplit hc fun d he hd => hread ⟨d, he, hd⟩

omit [Scalar α] in
theorem cellsOf_perm {es es' : List (String × Entry α)} (h : es'.Perm es) :
    r.cellsOf (es'.map (·.1)) = r.cellsOf (es.map (·.1)) :=
  Set.Subset.antisymm (Registry.cellsOf_subset (h.map _).subset)
    (Registry.cellsOf_subset (h.map _).symm.subset)

/-- No entry reads a cell that another one writes. -/
def Unread (r : Registry) (es : List (String × Entry α)) : Prop :=
  ∀ n d, (n, .cell d) ∈ es → d ∈ r.cellsOf (es.map (·.1)) → r.find? n = some d

omit [Scalar α] in
theorem Unread.perm {es' : List (String × Entry α)} (h : Unread r es) (hp : es'.Perm es) :
    Unread r es' := fun n d hmem hd => h n d (hp.subset hmem) (cellsOf_perm hp ▸ hd)

theorem InTurn.atOnce_of_unread (h : s.InTurn t r es) (hs : s.Keyed r)
    (hd : (es.map (·.1)).Nodup) (hu : Unread r es) : s.AtOnce t r es := by
  intro n e c hmem hc
  obtain ⟨before, after, rfl⟩ := List.append_of_mem hmem
  refine h.early rfl hc ?_
  rintro d rfl ⟨m, hm, hmd⟩
  have hown : r.find? n = some d := by
    refine hu n d hmem ⟨m, ?_, hmd⟩
    rw [List.map_append]
    exact List.mem_append_left _ hm
  obtain rfl : m = n := hs.single hmd hown
  rw [List.map_append, List.map_cons, List.nodup_append] at hd
  exact hd.2.2 m hm m List.mem_cons_self rfl

/-- What is written at once does not depend on the order. -/
theorem AtOnce.cell_eq {es' : List (String × Entry α)} (h : s.AtOnce t r es)
    (h' : s.AtOnce u r es') (ht : s.InTurn t r es) (hu : s.InTurn u r es') (hp : es'.Perm es)
    (c : CellId) : u.cell c = t.cell c := by
  by_cases hc : c ∈ r.cellsOf (es.map (·.1))
  · obtain ⟨n, hn, hfind⟩ := hc
    obtain ⟨⟨n, e⟩, hmem, rfl⟩ := List.mem_map.mp hn
    rw [h n e c hmem hfind, h' n e c (hp.symm.subset hmem) hfind]
  · rw [ht.others c hc, hu.others c (cellsOf_perm hp ▸ hc)]

end Store

namespace Sample

/-- A normal density with parameters a and b. -/
def crossed : List (Call ℚ) :=
  [ .cell ⟨.variable, "x", .scalar 0, .scalar 0⟩,
    .cell ⟨.parameter, "a", .scalar 1, .scalar (1 / 10)⟩,
    .cell ⟨.parameter, "b", .scalar 2, .scalar (1 / 5)⟩,
    .gaussian "Gaussian" 0 1 2 ]

/-- Each of the two names has the cell of the other one. -/
def swap : List (String × Entry ℚ) := [("a", .cell ⟨2⟩), ("b", .cell ⟨1⟩)]

theorem crossed_pars :
    (Session.after crossed).store.registry ⟨1⟩ = ⟨[("a", ⟨1⟩), ("b", ⟨2⟩)]⟩ := by
  decide +kernel

theorem crossed_contents :
    ((Session.after crossed).store.cell ⟨1⟩).content = (.scalar 1, .scalar (1 / 10)) ∧
      ((Session.after crossed).store.cell ⟨2⟩).content = (.scalar 2, .scalar (1 / 5)) := by
  decide +kernel

end Sample

/-! ### Assigning from a mapping -/

namespace Run

/-- An error that cannot be read is not written. -/
theorem error?_putCell {s : Store α} {x : Entry α} {e : Fault α} (h : x.error? s.cell = .error e)
    (c : CellId) : x.error? (s.putCell c ((s.cell c).takes (x.reads s.cell))).cell = .error e := by
  cases x with
  | cell d =>
    have hkept : (((s.cell c).takes (Entry.reads s.cell (.cell d)))).error = (s.cell c).error := by
      unfold Entry.reads
      rw [h]
      rfl
    show (Store.cell _ d).error.error? = _
    rw [Store.cell_putCell]
    split_ifs with hd
    · rw [hkept, ← hd.1]
      exact h
    · exact h
  | _ => exact h

/-- **The entries of a mapping are written in turn**, up to one whose error cannot be read. -/
theorem setEntries_outcome {r : Registry} : ∀ (es : List (String × Entry α)) {s : Store α},
    s.Keyed r → (∀ e ∈ es, e.1 ∈ r.names) → (es.map (·.1)).Nodup →
    (∃ t, (setEntries r es).outcome s = (.ok (), t) ∧ s.InTurn t r es) ∨
      ∃ e t, (setEntries r es).outcome s = (.error e, t) ∧ s.Halted t r es e
  | [], s, _, _, _ => .inl ⟨s, rfl, .nil s r⟩
  | (n, x) :: rest, s, hs, hnames, hd => by
    rw [List.forall_mem_cons] at hnames
    rw [List.map_cons, List.nodup_cons] at hd
    obtain ⟨c, hc⟩ := Registry.find?_eq_some_of_mem hnames.1
    have hkeyed : (s.putCell c ((s.cell c).takes (x.reads s.cell))).Keyed r :=
      ⟨fun h => (hs.bounded h).trans_eq (Array.size_setIfInBounds ..).symm, hs.single⟩
    have hset := outcome_setEntry s c x
    unfold setEntries
    rw [hc]
    cases hx : x.error? s.cell with
    | error e =>
      rw [hx] at hset
      refine .inr ⟨e, _, outcome_bind_error _ hset, [], n, x, rest, rfl, ?_, error?_putCell hx c⟩
      exact (Store.InTurn.nil _ r).cons hs hc List.not_mem_nil
    | ok err =>
      rw [hx] at hset
      rcases setEntries_outcome rest hkeyed hnames.2 hd.2 with
        ⟨t, ht, hturn⟩ | ⟨e, t, ht, before, m, y, after, rfl, hturn, hy⟩
      · exact .inl ⟨t, (outcome_bind_ok _ hset).trans ht, hturn.cons hs hc hd.1⟩
      · refine .inr ⟨e, t, (outcome_bind_ok _ hset).trans ht, (n, x) :: before, m, y, after, rfl,
          ?_, hy⟩
        have hnew : n ∉ (before ++ [(m, y)]).map (·.1) := by
          simp only [List.map_append, List.map_cons, List.mem_append, List.mem_cons, List.map_nil,
            List.not_mem_nil, or_false, not_or] at hd ⊢
          exact ⟨hd.1.1, hd.1.2.1⟩
        exact hturn.cons hs hc hnew

/-- Where all errors can be read, a mapping is written in turn to its end. -/
theorem assign_mapping {s : Store α} {r : RegistryId} (hr : s.Keyed (s.registry r))
    {es : List (String × Entry α)} (hes : (Input.mapping es).Matches (s.registry r))
    (hp : (Input.mapping es).Proper) (hread : (Input.mapping es).Readable s) (kind : String) :
    ∃ t, (assign r (.mapping es) kind).outcome s = (.ok (), t) ∧
      s.InTurn t (s.registry r) es := by
  rw [assign_eq_setEntries hes]
  rcases setEntries_outcome es hr hes hp with hturn | ⟨e, t, ht, -⟩
  · exact hturn
  · exact absurd ((setEntries_readable es hread).error ht) id

/-- **An accepted mapping is written in turn**, if its errors can be read. Where they are
numbers, it is written at once exactly if no cell that is read after it was written has changed;
if no entry reads a cell that another one writes, every order of the entries leaves the same
cells. -/
theorem assign_inTurn {s : Store α} {r : RegistryId} (hr : s.Keyed (s.registry r))
    {es : List (String × Entry α)} (hes : (Input.mapping es).Matches (s.registry r))
    (hp : (Input.mapping es).Proper) (hread : (Input.mapping es).Readable s) (kind : String) :
    ∃ t, (assign r (.mapping es) kind).outcome s = (.ok (), t) ∧
      s.InTurn t (s.registry r) es ∧
      ((∀ n d, (n, .cell d) ∈ es → (s.cell d).Measured) →
        (s.AtOnce t (s.registry r) es ↔ ∀ before after n d, es = before ++ (n, .cell d) :: after →
          d ∈ (s.registry r).cellsOf (before.map (·.1)) →
            (t.cell d).content = (s.cell d).content)) ∧
      (Store.Unread (s.registry r) es → s.AtOnce t (s.registry r) es ∧
        ∀ es', es'.Perm es → ∃ u, (assign r (.mapping es') kind).outcome s = (.ok (), u) ∧
          ∀ c, u.cell c = t.cell c) := by
  obtain ⟨t, ht, hturn⟩ := assign_mapping hr hes hp hread kind
  refine ⟨t, ht, hturn, hturn.atOnce_iff hes, fun hunread => ?_⟩
  have hnodup : (es.map (·.1)).Nodup := hp
  have hat := hturn.atOnce_of_unread hr hnodup hunread
  refine ⟨hat, fun es' hperm => ?_⟩
  have hd : (es'.map (·.1)).Nodup := (hperm.map (·.1)).nodup_iff.mpr hnodup
  have hes' : (Input.mapping es').Matches (s.registry r) := fun e he => hes e (hperm.subset he)
  have hread' : (Input.mapping es').Readable s := fun e he => hread e (hperm.subset he)
  obtain ⟨u, hu, hturn'⟩ := assign_mapping hr hes' hd hread' kind
  exact ⟨u, hu, hat.cell_eq (hturn'.atOnce_of_unread hr hd (hunread.perm hperm)) hturn hturn' hperm⟩

/-- Two parameters that are to be swapped both end with the content of the second. -/
theorem assign_inTurn_swap :
    (Input.mapping Sample.swap).Matches ((Session.after Sample.crossed).store.registry ⟨1⟩) ∧
    (Input.mapping Sample.swap).Proper ∧
    (Input.mapping Sample.swap).Readable (Session.after Sample.crossed).store ∧
    ∃ t, (assign ⟨1⟩ (.mapping Sample.swap) "parameter").outcome
        (Session.after Sample.crossed).store = (.ok (), t) ∧
      (t.cell ⟨1⟩).content = (.scalar 2, .scalar (1 / 5)) ∧
      (t.cell ⟨2⟩).content = (.scalar 2, .scalar (1 / 5)) ∧
      ¬ (Session.after Sample.crossed).store.AtOnce t
        ((Session.after Sample.crossed).store.registry ⟨1⟩) Sample.swap := by
  obtain ⟨hfirst, hsecond⟩ := Sample.crossed_contents
  have hmeasured₁ : ((Session.after Sample.crossed).store.cell ⟨1⟩).Measured :=
    ⟨_, (Prod.mk.inj hfirst).2⟩
  have hmeasured₂ : ((Session.after Sample.crossed).store.cell ⟨2⟩).Measured :=
    ⟨_, (Prod.mk.inj hsecond).2⟩
  have hcells : ∀ n d, (n, .cell d) ∈ Sample.swap →
      ((Session.after Sample.crossed).store.cell d).Measured := by
    intro n d hmem
    obtain ⟨rfl, rfl⟩ | ⟨rfl, rfl⟩ : (n = "a" ∧ d = ⟨2⟩) ∨ (n = "b" ∧ d = ⟨1⟩) := by
      simpa [Sample.swap] using hmem
    · exact hmeasured₂
    · exact hmeasured₁
  have hr := (Session.after_valid Sample.crossed).sound ⟨1⟩
  have hes : (Input.mapping Sample.swap).Matches
      ((Session.after Sample.crossed).store.registry ⟨1⟩) := by
    rw [Sample.crossed_pars]
    unfold Sample.swap Input.Matches
    decide
  have hp : (Input.mapping Sample.swap).Proper := by
    unfold Input.Proper
    decide
  have hread : (Input.mapping Sample.swap).Readable (Session.after Sample.crossed).store := by
    intro e he
    obtain rfl | rfl : e = ("a", .cell ⟨2⟩) ∨ e = ("b", .cell ⟨1⟩) := by
      simpa [Sample.swap] using he
    · exact hmeasured₂.readable
    · exact hmeasured₁.readable
  obtain ⟨t, ht, hturn, hiff, -⟩ := assign_inTurn hr.keyed hes hp hread "parameter"
  have hatOnce := hiff hcells
  rw [Sample.crossed_pars] at hturn hatOnce ⊢
  have ha : (t.cell ⟨1⟩).content = (.scalar 2, .scalar (1 / 5)) := by
    have hsplit : Sample.swap = [] ++ ("a", .cell ⟨2⟩) :: [("b", .cell ⟨1⟩)] := rfl
    have hearly := hturn.early (c := ⟨1⟩) hsplit (by decide) fun d _ ⟨m, hm, _⟩ =>
      List.not_mem_nil hm
    rw [hearly, hmeasured₂.content_takes, hsecond]
  have hlater : (⟨1⟩ : CellId) ∈ Registry.cellsOf ⟨[("a", ⟨1⟩), ("b", ⟨2⟩)]⟩ ["a"] :=
    ⟨"a", List.mem_singleton_self _, by decide⟩
  have hb : (t.cell ⟨2⟩).content = (.scalar 2, .scalar (1 / 5)) := by
    have hsplit : Sample.swap = [("a", .cell ⟨2⟩)] ++ ("b", .cell ⟨1⟩) :: [] := rfl
    have hlate := hturn.late (c := ⟨2⟩) hsplit (by decide) hlater
    rw [hlate, (hturn.measured hmeasured₁).content_takes, ha]
  refine ⟨hes, hp, hread, t, ht, ha, hb, fun hat => ?_⟩
  have hkept := hatOnce.mp hat [("a", .cell ⟨2⟩)] [] "b" ⟨1⟩ rfl hlater
  rw [ha, hfirst] at hkept
  exact absurd hkept (by decide)

end Run

end DensityAlgebra
