/-
# What a fit leaves behind

A fit moves the density to one point after the other: where the minimizer probes it, where
second derivatives are taken, and in the end to the point that the minimizer has reported.
Every move is a mapping from the names of the free parameters, so no move touches a cell
under another name; and the last one writes all of them, so nothing of the earlier moves is
left. The minimum was computed at the same point before: the parameters have the same
values again, the normalizations are again the integrals there, and so the events are again
as likely as they were.

The minimizer is a tree of probes of any size. What it asks for may depend on the answers,
and the points that it asks for need not even have the right length; only the one that it
reports has.

Key definitions: `Fit.coordinates`, `Fit.Course`, `Fit.Leaves`.
Key theorems: `hessian_length`, `fit_eq_ok`, `Density.evaluate_of_values`,
`Fit.Course.leaves`, `Session.fit_leaves`.
-/
import DensityAlgebra.Proofs.Assigning
import DensityAlgebra.Proofs.Restoring

namespace DensityAlgebra

variable {α : Type} [Scalar α]

/-! ### Sizes -/

namespace SymmetricMatrix

omit [Scalar α] in
theorem build_length (n : Nat) (f : Nat → Nat → α) : (build n f).length = n := by
  simp [build]

theorem pseudoInverse?_length {a b : Matrix α} (h : pseudoInverse? a = some b) :
    b.length = a.length := by
  unfold pseudoInverse? at h
  split_ifs at h with hone hfinite
  · obtain rfl := Option.some.inj h
    simp only [Bool.and_eq_true, decide_eq_true_eq] at hone
    exact hone.1.1.symm
  · obtain rfl := Option.some.inj h
    exact build_length _ _

end SymmetricMatrix

/-- The matrix of second derivatives has a row for every coordinate. -/
theorem hessian_length (f : List α → Run α α) (x : List α) (f0 : α) (bounds : List (Bounds α))
    (relative : Option α) (s : Store α) :
    (hessian f x f0 bounds relative).Ends s
      (fun h _ => ∀ m, h = .ok (some m) → m.length = x.length) fun _ => True := by
  unfold hessian
  cases Hessian.steps (relative.getD 1e-4) x bounds with
  | error e => exact Run.ends_pure fun _ h => by cases h
  | ok eps =>
    refine Run.ends_ite (fun _ => Run.ends_pure fun _ h => by cases h) fun _ => ?_
    refine (Run.ends_mapM_length _ _ s).bind fun lower t hlower => Run.ends_pure fun m h => ?_
    obtain rfl := Option.some.inj (Except.ok.inj h)
    simpa [Hessian.full] using hlower

namespace Fit

theorem covariance_length {jitter : α} {h c : List (List α)} (hc : covariance jitter h = some c) :
    c.length = h.length := by
  unfold covariance at hc
  split_ifs at hc
  · rw [SymmetricMatrix.pseudoInverse?_length hc, SymmetricMatrix.build_length]
  · exact SymmetricMatrix.pseudoInverse?_length hc

theorem errorsOf_length (cov : List (List α)) : (errorsOf cov).length = cov.length := by
  simp [errorsOf, SymmetricMatrix.diagonalOf]

/-! ### The course of a fit -/

omit [Scalar α] in
theorem freeNames_eq_ok {s : Store α} {d : Density α} {fixed names : List String}
    (h : freeNames s d fixed = .ok names) :
    names = (d.parNames s).filter fun n => !fixed.contains n := by
  unfold freeNames at h
  extract_lets unknown names' at h
  split_ifs at h
  exact (Except.ok.inj h).symm

omit [Scalar α] in
theorem mem_freeNames {s : Store α} {d : Density α} {fixed names : List String}
    (h : freeNames s d fixed = .ok names) (n : String) :
    n ∈ names ↔ n ∈ (s.registry d.pars).names ∧ n ∉ fixed := by
  rw [freeNames_eq_ok h, List.mem_filter]
  refine and_congr Registry.mem_sortNames ?_
  simp

theorem ascending_freeNames {s : Store α} (hs : s.Sound) {d : Density α}
    {fixed names : List String} (h : freeNames s d fixed = .ok names) :
    names.Pairwise (· < ·) := by
  rw [freeNames_eq_ok h]
  exact (Registry.ascending_sortNames (hs d.pars).distinct).filter _

theorem nodup_freeNames {s : Store α} (hs : s.Sound) {d : Density α}
    {fixed names : List String} (h : freeNames s d fixed = .ok names) : names.Nodup :=
  (ascending_freeNames hs h).imp fun hlt heq => by
    subst heq
    exact String.lt_irrefl _ hlt

omit [Scalar α] in
/-- What a point brings: a coordinate to each name. -/
def coordinates (x : List α) : List (Entry α) := x.map fun v => .raw (.scalar v)

/-- A probe brings the coordinates of its point to the names. -/
theorem objective_eq (d : Density α) (names : List String) (columns : List (Value α))
    (x : List α) : objective d names columns x = (do
      d.setPars (.mapping (names.zip (coordinates x)))
      Run.reading fun s => d.lossOf s columns floor) := by
  unfold coordinates
  rw [List.zip_map_right]
  rfl

/-- The value at a point is the loss after the density was moved there. -/
theorem objective_eq_ok {d : Density α} {names : List String} {columns : List (Value α)}
    {x : List α} {s t : Store α} {y : α}
    (h : (objective d names columns x).outcome s = (.ok y, t)) :
    (d.setPars (.mapping (names.zip (coordinates x)))).outcome s = (.ok (), t) ∧
      d.lossOf t columns floor = .ok y := by
  obtain ⟨⟨⟩, u, hset, hread⟩ := Run.outcome_bind_eq_ok (objective_eq d names columns x ▸ h)
  rw [Run.outcome_reading] at hread
  obtain ⟨hloss, rfl⟩ := Prod.mk.inj hread
  exact ⟨hset, hloss⟩

/-- A fit that has come to its end: the stores before the minimum, at the minimum, after
the second derivatives were taken, and at the end. -/
structure Course {β : Type} (minimizer : Minimizer α β) (d : Density α) (data : Input α)
    (options : Options α) (s s₁ s₂ s₃ t : Store α) (columns : List (Value α)) (report : Report α)
    (r : FitResult α) (problem : Problem α) (extra : β) : Prop where
  names : freeNames s d options.fixed = .ok r.names
  events : d.columns s data = .ok columns
  search : ((minimizer problem).run (objective d r.names columns)).outcome s =
    (.ok (report, extra), s₁)
  values : r.values = report.x
  minimum : (objective d r.names columns r.values).outcome s₁ = (.ok r.nll, s₂)
  derivatives : ∃ bounds h, (hessian (objective d r.names columns) r.values r.nll bounds
    options.step).outcome s₂ = (.ok h, s₃)
  errors : r.errors.length = r.values.length
  last : ∃ s₄, s₃.Same s₄ ∧ (d.setPars (.result r)).outcome s₄ = (.ok (), t)

end Fit

/-- **What a fit goes through** if it yields a result. -/
theorem fit_eq_ok {β : Type} {minimizer : Minimizer α β} {d : Density α} {data : Input α}
    {options : Fit.Options α} {s t : Store α} {r : FitResult α} {problem : Problem α} {extra : β}
    (h : (fit minimizer d data options).outcome s = (.ok (r, problem, extra), t)) :
    ∃ s₁ s₂ s₃ columns report, Fit.Course minimizer d data options s s₁ s₂ s₃ t columns report r
      problem extra := by
  unfold fit at h
  obtain ⟨names, hnames, h⟩ := Run.outcome_reading_bind_eq_ok h
  obtain ⟨start, -, h⟩ := Run.outcome_reading_bind_eq_ok h
  obtain ⟨bounds, -, h⟩ := Run.outcome_reading_bind_eq_ok h
  obtain ⟨columns, hcolumns, h⟩ := Run.outcome_reading_bind_eq_ok h
  obtain ⟨⟨report, extra'⟩, s₁, hsearch, h⟩ := Run.outcome_bind_eq_ok h
  obtain ⟨nll, s₂, hminimum, h⟩ := Run.outcome_bind_eq_ok h
  obtain ⟨hess, s₃, hhess, h⟩ := Run.outcome_bind_eq_ok h
  obtain ⟨matrix, hmatrix, h⟩ := Run.outcome_reading_bind_eq_ok h
  have hlength : ∀ m, matrix = some m → m.length = report.x.length := fun m hm =>
    (hessian_length _ _ _ _ _ _).ok hhess m (by rw [hmatrix, hm])
  extract_lets cov finish at h
  -- what is left to do when the errors are known
  have hfinish : ∀ errors s₄, s₃.Same s₄ → errors.length = report.x.length →
      (finish errors).outcome s₄ = (.ok (r, problem, extra), t) →
        ∃ s₁ s₂ s₃ columns report, Fit.Course minimizer d data options s s₁ s₂ s₃ t columns report
          r problem extra := by
    intro errors s₄ hsame herrors hlast
    obtain ⟨⟨⟩, u, hset, hlast⟩ := Run.outcome_bind_eq_ok hlast
    obtain ⟨heq, rfl⟩ := Prod.mk.inj hlast
    obtain ⟨rfl, hrest⟩ := Prod.mk.inj (Except.ok.inj heq)
    obtain ⟨rfl, rfl⟩ := Prod.mk.inj hrest
    exact ⟨s₁, s₂, s₃, columns, report, hnames, hcolumns, hsearch, rfl, hminimum,
      ⟨bounds, hess, hhess⟩, herrors, s₄, hsame, hset⟩
  cases hcov : cov with
  | some c =>
    rw [hcov] at h
    obtain ⟨m, hm, hc⟩ := Option.bind_eq_some_iff.mp hcov
    refine hfinish (Fit.errorsOf c) s₃ ⟨rfl, rfl, rfl⟩ ?_ h
    rw [Fit.errorsOf_length, Fit.covariance_length hc, hlength m hm]
  | none =>
    rw [hcov] at h
    obtain ⟨⟨⟩, s₄, hnote, h⟩ := Run.outcome_bind_eq_ok h
    obtain ⟨-, rfl⟩ := Prod.mk.inj hnote
    refine hfinish (report.x.map fun _ => Scalar.undefined) _ ?_ ?_ h
    · exact ⟨rfl, rfl, rfl⟩
    · exact List.length_map _

/-! ### What a point writes -/

omit [Scalar α] in
/-- A list that is as long as another one has something where the other one has. -/
theorem exists_getElem?_of_length {β γ : Type} {xs : List β} {ys : List γ} {i : Nat} {x : β}
    (h : ys.length = xs.length) (hi : xs[i]? = some x) : ∃ y, ys[i]? = some y := by
  obtain ⟨hlt, -⟩ := List.getElem?_eq_some_iff.mp hi
  exact ⟨_, List.getElem?_eq_getElem (h.symm ▸ hlt)⟩

namespace Density

variable {s : Store α} {d : Density α}

/-- After the density was moved to a point, each name has its coordinate. -/
theorem setPars_point (hs : s.Sound) (hd : d.Valid s) {names : List String} {x : List α}
    (hn : names.Nodup) (hx : x.length = names.length) :
    (d.setPars (.mapping (names.zip (Fit.coordinates x)))).Ends s (fun _ t =>
      (∀ (i : Nat) n c, names[i]? = some n → (s.registry d.pars).find? n = some c →
        ∃ v, x[i]? = some v ∧ (t.cell c).value = .scalar v) ∧
      ∀ m ∈ d.models, m.Fresh t) fun _ => True := by
  have hlength : (Fit.coordinates x).length = names.length := by
    rwa [Fit.coordinates, List.length_map]
  refine (setPars_zip hs hd hn hlength).mono (fun _ t ht => ⟨fun i n c hi hc => ?_, ht.2⟩)
    fun _ h => h
  obtain ⟨v, hv⟩ := exists_getElem?_of_length hx hi
  have hentry : (Fit.coordinates x)[i]? = some (.raw (.scalar v)) := by
    rw [Fit.coordinates, List.getElem?_map, hv]
    rfl
  have hcell := ht.1 i n c _ _ _ hi hc hentry rfl
  exact ⟨v, hv, by rw [hcell]; rfl⟩

/-- After the entries of a result were set, each name has its value and its error. -/
theorem setPars_entries (hs : s.Sound) (hd : d.Valid s) {r : FitResult α} (hn : r.names.Nodup)
    (hv : r.values.length = r.names.length) (he : r.errors.length = r.names.length) :
    (d.setPars (.mapping (r.names.zip r.entries))).Ends s (fun _ t =>
      (∀ (i : Nat) n c, r.names[i]? = some n → (s.registry d.pars).find? n = some c →
        ∃ v e, r.values[i]? = some v ∧ r.errors[i]? = some e ∧
          (t.cell c).value = .scalar v ∧ (t.cell c).error = .scalar e) ∧
      ∀ m ∈ d.models, m.Fresh t) fun _ => True := by
  have hlength : r.entries.length = r.names.length := by
    rw [FitResult.entries, List.length_map, List.length_zip]
    omega
  refine (setPars_zip hs hd hn hlength).mono (fun _ t ht => ⟨fun i n c hi hc => ?_, ht.2⟩)
    fun _ h => h
  obtain ⟨v, hvi⟩ := exists_getElem?_of_length hv hi
  obtain ⟨e, hei⟩ := exists_getElem?_of_length he hi
  have hboth : (r.values.zip r.errors)[i]? = some (v, e) :=
    List.getElem?_zip_eq_some.mpr ⟨hvi, hei⟩
  have hentry : r.entries[i]? = some (.measured (.scalar v) (.scalar e)) := by
    rw [FitResult.entries, List.getElem?_map, hboth]
    rfl
  have hcell := ht.1 i n c _ _ _ hi hc hentry rfl
  exact ⟨v, e, hvi, hei, by rw [hcell]; rfl, by rw [hcell]; rfl⟩

/-! ### The same value again -/

/-- **A density has the same value at a point once its parameters have the same values
again**, if its normalizations are right both times. -/
theorem evaluate_of_values {t : Store α} {C : Set CellId} {D : Set StateId} (h : s.Within C D t)
    (hd : d.Valid s) (hvalues : ∀ n, t.value? d.pars n = s.value? d.pars n)
    (hs : ∀ m ∈ d.models, m.Fresh s) (ht : ∀ m ∈ d.models, m.Fresh t) (vs : List (Value α)) :
    d.evaluate t (.sequence vs) = d.evaluate s (.sequence vs) := by
  have halike : ∀ m ∈ d.models, m.Alike s t m := alike_of_values h hd hvalues
  exact evaluate_congr h hd hvalues
    (fun m hm => ((halike m hm).norms_eq (hd.models m hm) (hs m hm) (ht m hm)).symm) nofun

/-- So the events are as likely again. -/
theorem lossOf_of_values {t : Store α} {C : Set CellId} {D : Set StateId} (h : s.Within C D t)
    (hd : d.Valid s) (hvalues : ∀ n, t.value? d.pars n = s.value? d.pars n)
    (hs : ∀ m ∈ d.models, m.Fresh s) (ht : ∀ m ∈ d.models, m.Fresh t) (columns : List (Value α))
    (floor : α) : d.lossOf t columns floor = d.lossOf s columns floor := by
  unfold lossOf
  rw [evaluate_of_values h hd hvalues hs ht]

/-- The columns of events depend on the names of the variables only. -/
theorem columns_congr {t : Store α} (h : d.varNames t = d.varNames s)
    (data : Input α) : d.columns t data = d.columns s data := by
  cases data <;> simp only [columns, h]

end Density

namespace Fit

/-! ### What is left -/

/-- What a fit leaves behind in `t` of what there was in `s`. -/
structure Leaves (d : Density α) (data : Input α) (fixed : List String) (s : Store α)
    (r : FitResult α) (t : Store α) : Prop where
  /-- The result has the names of the free parameters, in ascending order. -/
  ascending : r.names.Pairwise (· < ·)
  names : ∀ n, n ∈ r.names ↔ n ∈ (s.registry d.pars).names ∧ n ∉ fixed
  registries : t.registry d.vars = s.registry d.vars ∧ t.registry d.pars = s.registry d.pars
  /-- The cell of a free parameter has the value and the error of its position. -/
  free : ∀ (i : Nat) n, r.names[i]? = some n → ∃ c v e, (s.registry d.pars).find? n = some c ∧
    r.values[i]? = some v ∧ r.errors[i]? = some e ∧
      (t.cell c).value = .scalar v ∧ (t.cell c).error = .scalar e
  fixed : ∀ n ∈ fixed, ∀ c, (s.registry d.pars).find? n = some c → t.cell c = s.cell c
  vars : ∀ c ∈ (s.registry d.vars).cells, t.cell c = s.cell c
  norms : ∀ m ∈ d.models, m.Fresh t
  nll : d.negLogLike t data floor = .ok r.nll

/-- Only cells of free parameters change at a probe. -/
theorem objective_keeps {b : Store α} {d : Density α} (hp : d.pars.index < b.registries.size)
    (names : List String) (columns : List (Value α)) (x : List α) :
    Run.Keeps (b.Inside ((b.registry d.pars).cellsOf names) Set.univ)
      (objective d names columns x) := by
  rw [objective_eq]
  exact (Density.setPars_zip_keeps hp (fun _ _ => Set.mem_univ _) names _).bind
    fun _ => Run.Keeps.reading _

namespace Course

variable {β : Type} {minimizer : Minimizer α β} {d : Density α} {data : Input α}
  {options : Options α} {s s₁ s₂ s₃ t : Store α} {columns : List (Value α)} {report : Report α}
  {r : FitResult α} {problem : Problem α} {extra : β}

variable (h : Course minimizer d data options s s₁ s₂ s₃ t columns report r problem extra)
  (hs : s.Sound)

include h hs

theorem nodup : r.names.Nodup := nodup_freeNames hs h.names

variable (hd : d.Valid s)

include hd

/-- Up to the minimum, only cells of free parameters have changed. -/
theorem inside_minimum : s.Inside ((s.registry d.pars).cellsOf r.names) Set.univ s₁ ∧
    s.Inside ((s.registry d.pars).cellsOf r.names) Set.univ s₂ := by
  have hprobe := objective_keeps hd.pars_bounded r.names columns
  have hsearch := ((Search.run_calling _ _).keeps hprobe s (Store.Inside.refl hs)).ok h.search
  exact ⟨hsearch, (hprobe _ s₁ hsearch).ok h.minimum⟩

variable (hv : r.values.length = r.names.length)

include hv

/-- At the minimum, the free parameters have the values of the result. -/
theorem at_minimum :
    (∀ (i : Nat) n c, r.names[i]? = some n → (s.registry d.pars).find? n = some c →
      ∃ v, r.values[i]? = some v ∧ (s₂.cell c).value = .scalar v) ∧
    (∀ m ∈ d.models, m.Fresh s₂) ∧ d.lossOf s₂ columns floor = .ok r.nll := by
  have h₁ := (h.inside_minimum hs hd).1
  obtain ⟨hset, hloss⟩ := objective_eq_ok h.minimum
  have hmoved := (Density.setPars_point h₁.sound (hd.grows h₁.toGrows) (h.nodup hs) hv).ok hset
  rw [h₁.registries _ hd.pars_bounded] at hmoved
  exact ⟨hmoved.1, hmoved.2, hloss⟩

/-- From the minimum on, only cells of free parameters change, and in the end they have the
values and the errors of the result. -/
theorem at_end : s₂.Inside ((s.registry d.pars).cellsOf r.names) Set.univ t ∧
    (∀ (i : Nat) n c, r.names[i]? = some n → (s.registry d.pars).find? n = some c →
      ∃ v e, r.values[i]? = some v ∧ r.errors[i]? = some e ∧
        (t.cell c).value = .scalar v ∧ (t.cell c).error = .scalar e) ∧
    ∀ m ∈ d.models, m.Fresh t := by
  have h₂ := (h.inside_minimum hs hd).2
  have hd₂ := hd.grows h₂.toGrows
  have hn := h.nodup hs
  obtain ⟨bounds, hess, hhess⟩ := h.derivatives
  obtain ⟨s₄, hsame, hlast⟩ := h.last
  rw [← h₂.registries _ hd.pars_bounded]
  rw [d.setPars_result hn] at hlast
  have hprobe := objective_keeps hd₂.pars_bounded r.names columns
  have h₃ := ((hessian_calling _ _ _ _ _).keeps hprobe s₂ (Store.Inside.refl h₂.sound)).ok hhess
  have h₄ := h₃.of_same hsame
  have hwritten := (Density.setPars_entries h₄.sound (hd₂.grows h₄.toGrows) hn hv
    (h.errors.trans hv)).ok hlast
  rw [h₄.registries _ hd₂.pars_bounded] at hwritten
  refine ⟨?_, hwritten⟩
  exact (Density.setPars_zip_keeps hd₂.pars_bounded (fun _ _ => Set.mem_univ _) r.names r.entries
    s₄ h₄).ok hlast

/-- In the end, all parameters have the values that they had at the minimum. -/
theorem same_values (n : String) : t.value? d.pars n = s₂.value? d.pars n := by
  have h₂ := (h.inside_minimum hs hd).2
  obtain ⟨h₂t, hend, -⟩ := h.at_end hs hd hv
  have hpars₂ := h₂.registries _ hd.pars_bounded
  have hpars := (h₂t.registries _ (hd.grows h₂.toGrows).pars_bounded).trans hpars₂
  unfold Store.value?
  rw [hpars, hpars₂]
  cases hc : (s.registry d.pars).find? n with
  | none => rfl
  | some c =>
    have hvalue : (t.cell c).value = (s₂.cell c).value := by
      by_cases hn : n ∈ r.names
      · obtain ⟨i, hi⟩ := List.getElem?_of_mem hn
        obtain ⟨v, hvi, hv₂⟩ := (h.at_minimum hs hd hv).1 i n c hi hc
        obtain ⟨v', e, hvi', -, hvt, -⟩ := hend i n c hi hc
        rw [hv₂, hvt, Option.some.inj (hvi.symm.trans hvi')]
      · have hmiss := (hs d.pars).not_mem_cellsOf hc hn
        rw [h₂t.cells c (((hs d.pars).find?_bounded hc).trans_le h₂.moreCells) hmiss]
    exact congrArg some hvalue

/-- **The events are as likely as the result says.** -/
theorem same_loss : d.negLogLike t data floor = .ok r.nll := by
  have h₂ := (h.inside_minimum hs hd).2
  obtain ⟨h₂t, -, hfresh⟩ := h.at_end hs hd hv
  obtain ⟨-, hfresh₂, hloss⟩ := h.at_minimum hs hd hv
  have hcolumns : d.columns t data = .ok columns := by
    rw [← h.events]
    refine Density.columns_congr ?_ data
    unfold Density.varNames
    rw [(h₂.trans h₂t).registries _ hd.covers.1.bounded]
  calc d.negLogLike t data floor = d.lossOf t columns floor := by
        unfold Density.negLogLike
        rw [hcolumns]
        rfl
    _ = d.lossOf s₂ columns floor :=
        Density.lossOf_of_values h₂t.toWithin (hd.grows h₂.toGrows) (h.same_values hs hd hv)
          hfresh₂ hfresh columns floor
    _ = .ok r.nll := hloss

/-- **A fit leaves the density at its result.** -/
theorem leaves (hun : d.Unmixed s) : Leaves d data options.fixed s r t := by
  have h₂ := (h.inside_minimum hs hd).2
  obtain ⟨h₂t, hend, hfresh⟩ := h.at_end hs hd hv
  have hst := h₂.trans h₂t
  refine
    { ascending := ascending_freeNames hs h.names
      names := mem_freeNames h.names
      registries := ⟨hst.registries _ hd.covers.1.bounded, hst.registries _ hd.pars_bounded⟩
      free := fun i n hi => ?_
      fixed := fun n hn c hc => ?_
      vars := fun c hc => ?_
      norms := hfresh
      nll := h.same_loss hs hd hv }
  · obtain ⟨c, hc⟩ := Registry.find?_eq_some_of_mem
      ((mem_freeNames h.names n).mp (List.mem_of_getElem? hi)).1
    obtain ⟨v, e, hrest⟩ := hend i n c hi hc
    exact ⟨c, v, e, hc, hrest⟩
  · refine hst.cells c ((hs d.pars).find?_bounded hc) ((hs d.pars).not_mem_cellsOf hc ?_)
    exact fun hfree => ((mem_freeNames h.names n).mp hfree).2 hn
  · obtain ⟨n, hmem⟩ := Registry.mem_cells_iff.mp hc
    refine hst.cells c ((hs d.vars).bounded n c hmem) ?_
    rintro ⟨m, -, hm⟩
    exact hun c hc (Registry.mem_cells_of_find? hm)

end Course

end Fit

/-- **What a fit leaves behind, for every minimizer.** In every session, a fit of a density of
which no cell is a variable and a parameter at once has its values from the report of the
minimizer, and if there is one for each free parameter, it leaves the free parameters at
these values with the errors of the result, fixed parameters and variables as they were, all
normalizations right, and the events exactly as likely as the result says. -/
theorem Session.fit_leaves {calls : List (Call α)} {d : Density α} {β : Type}
    {minimizer : Minimizer α β} {data : Input α} {options : Fit.Options α} {r : FitResult α}
    {problem : Problem α} {extra : β} {t : Store α}
    (hd : .density d ∈ (Session.after calls).objects)
    (hun : d.Unmixed (Session.after calls).store)
    (h : (fit minimizer d data options).outcome (Session.after calls).store =
      (.ok (r, problem, extra), t)) :
    (∃ columns report u, d.columns (Session.after calls).store data = .ok columns ∧
      ((minimizer problem).run (Fit.objective d r.names columns)).outcome
        (Session.after calls).store = (.ok (report, extra), u) ∧ r.values = report.x) ∧
    (r.values.length = r.names.length →
      Fit.Leaves d data options.fixed (Session.after calls).store r t) := by
  have hvalid := Session.after_valid calls
  obtain ⟨s₁, s₂, s₃, columns, report, hcourse⟩ := fit_eq_ok h
  refine ⟨⟨columns, report, s₁, hcourse.events, hcourse.search, hcourse.values⟩, fun hlength => ?_⟩
  exact hcourse.leaves hvalid.sound (hvalid.objects _ hd) hlength hun

namespace Sample

/-- One event, as columns for the variables of the product. -/
def event : Input ℚ := .sequence [.column [3], .column [4], .column [5], .column [5 / 2]]

/-- A fit of the product to the event, with its parameter w fixed; the minimizer probes the
point 5 and reports the point 2. -/
def fitProduct (p : Composite ℚ) : Run ℚ (FitResult ℚ × Problem ℚ × List ℚ) :=
  fit (Search.scripted [[5]] ⟨[2], true, "", 1⟩) (.composite p) event ⟨[], ["w"], none, 0⟩

/-- What an action has yielded, with the store after it, if it has succeeded. -/
def yielded? {β : Type} : Except (Fault ℚ) β × Store ℚ → Option (β × Store ℚ)
  | (.ok x, t) => some (x, t)
  | _ => none

theorem outcome_of_yielded? {β : Type} {y : Except (Fault ℚ) β × Store ℚ} {x : β × Store ℚ}
    (h : x ∈ yielded? y) : y = (.ok x.1, x.2) := by
  unfold yielded? at h
  split at h
  · obtain rfl := Option.some.inj h
    rfl
  · cases h

end Sample

/-- The product of the sample session is fitted; its decay density, whose normalization
depends on the free parameter, was moved to four other points on the way. -/
theorem Session.fit_leaves_product : ∃ p r problem extra t,
    .density (.composite p) ∈ (Session.after Sample.calls).objects ∧
    (Density.composite p).Unmixed (Session.after Sample.calls).store ∧
    (Sample.fitProduct p).outcome (Session.after Sample.calls).store =
      (.ok (r, problem, extra), t) ∧
    r.names = ["a"] ∧ r.values = [2] ∧
    Fit.Leaves (.composite p) Sample.event ["w"] (Session.after Sample.calls).store r t := by
  have hrun : ∃ p ∈ (Held.composite (Session.after Sample.calls).objects 13).toOption,
      (∀ c ∈ ((Session.after Sample.calls).store.registry p.vars).cells,
        c ∉ ((Session.after Sample.calls).store.registry p.pars).cells) ∧
      ∃ x ∈ Sample.yielded? ((Sample.fitProduct p).outcome (Session.after Sample.calls).store),
        x.1.1.names = ["a"] ∧ x.1.1.values = [2] := by
    decide +kernel
  obtain ⟨p, hp, hun, ⟨⟨r, problem, extra⟩, t⟩, hx, hnames, hvalues⟩ := hrun
  have hmem : .density (.composite p) ∈ (Session.after Sample.calls).objects :=
    List.mem_of_getElem? (Held.composite_eq_ok (Sample.eq_ok_of_toOption hp))
  have hfit := Sample.outcome_of_yielded? hx
  refine ⟨p, r, problem, extra, t, hmem, hun, hfit, hnames, hvalues, ?_⟩
  refine (Session.fit_leaves hmem hun hfit).2 ?_
  rw [show r.values = [2] from hvalues, show r.names = ["a"] from hnames]
  rfl

end DensityAlgebra
