/-
# What a failing fit leaves

A fit looks at its arguments, at the values that it starts from and at the data first. Where
these are refused nothing has changed. From then on it moves the density from point to point
and takes no move back: where the minimizer probes, at the minimum, at a point displaced for
a second derivative, or where the result is written, it may be that an integral or the density
fails, and then the density stays where that move has put it, as far as it was renewed.

What has happened before the last move matters little. All moves write to free parameters
only, and all but the one that writes the result keep the errors, so of the earlier ones only
coordinates can be left that the last point does not bring.

If all normalizations were right and the events had a likelihood when the fit was called, then
a move that fails never ends where the fit has begun: some parameter has another value. The
only other failure is a report of a point that does not fit the free parameters.

Key definitions: `Density.Takes`, `Fit.Probed`, `Fit.Interrupted`,
`Fit.Refused`, `Fit.Stopped`.
Key theorems: `hessian_eq_refused`, `fit_eq_error`, `Fit.Interrupted.stopped`,
`Fit.Stopped.moved`, `Session.fit_fails`.
-/
import DensityAlgebra.Proofs.Displacing
import DensityAlgebra.Proofs.Failing
import DensityAlgebra.Proofs.Fitting

namespace DensityAlgebra

variable {α : Type} [Scalar α]

/-! ### One move -/

namespace Density

/-- The entries were written to parameters, and beside their cells only normalizations of the
density have changed. -/
structure Takes (d : Density α) (es : List (String × Entry α)) (s t : Store α) : Prop where
  inside : s.Inside ((s.registry d.pars).cellsOf (es.map (·.1))) {x | x ∈ d.states} t
  written : s.Written t (s.registry d.pars) es

variable {d : Density α} {s t : Store α} {es : List (String × Entry α)}

/-- **Accepted entries are written, whether renewing succeeds or not.** -/
theorem setPars_takes (hs : s.Sound) (hes : (Input.mapping es).Proper)
    (hacc : (Input.mapping es).Matches (s.registry d.pars))
    (hread : (Input.mapping es).Readable s) :
    (d.setPars (.mapping es)).Ends s (fun _ t => d.Takes es s t) fun t => d.Takes es s t := by
  have hassign := Run.assign_accepted hs hacc hes hread CellKind.parameter.word
  refine (hassign.mono (fun _ _ h => h) fun _ h => h.elim).bind fun _ u hu => ?_
  obtain ⟨hsu, hwritten⟩ := hu
  have htakes : ∀ t, u.Inside ∅ {x | x ∈ d.states} t → d.Takes es s t := by
    refine fun t hut => ⟨?_, fun e he c v err hc hown => ?_⟩
    · exact (hsu.mono (Set.Subset.refl _) (Set.empty_subset _)).trans
        (hut.mono (Set.empty_subset _) (Set.Subset.refl _))
    · have hbounded := ((hs d.pars).find?_bounded hc).trans_le hsu.moreCells
      rw [hut.cells c hbounded (Set.notMem_empty c)]
      exact hwritten e he c v err hc hown
  have hcache : Run.Keeps (u.Inside ∅ {x | x ∈ d.states}) d.cache := cache_keeps fun _ h => h
  exact (hcache u (Store.Inside.refl hsu.sound)).mono (fun _ t => htakes t) htakes

/-- A move with accepted entries fails only where an integral does. -/
theorem setPars_stuck (hs : s.Sound) (hd : d.Valid s) (hes : (Input.mapping es).Proper)
    (hacc : (Input.mapping es).Matches (s.registry d.pars))
    (hread : (Input.mapping es).Readable s) {e : Fault α}
    (h : (d.setPars (.mapping es)).outcome s = (.error e, t)) : d.Stuck t e := by
  have hassign := Run.assign_accepted hs hacc hes hread CellKind.parameter.word
  rcases Setter.perform_eq_error (σ := .setPars (.mapping es)) h with hfail | ⟨u, hok, -, hcache⟩
  · exact absurd (hassign.error hfail) id
  · rw [Density.cache_eq] at hcache
    have hsu := (hassign.ok hok).1
    have hdu := hd.grows hsu.toGrows
    obtain ⟨done, x, rest, hmodels, -, hdone, hintegral⟩ :=
      Composite.cacheModels_eq_error hsu.sound hdu.models hdu.distinct hcache
    exact ⟨done, x, rest, hmodels, hdone, hintegral⟩

end Density

namespace Fit

/-! ### Probes -/

/-- What there may be after some probes: free parameters with other values, and other
normalizations. -/
structure Probed (d : Density α) (names : List String) (s t : Store α) : Prop
    extends s.Inside ((s.registry d.pars).cellsOf names) {x | x ∈ d.states} t where
  /-- A cell differs in its value at most. -/
  only : ∀ c : CellId, c.index < s.cells.size →
    t.cell c = { s.cell c with value := (t.cell c).value }

variable {d : Density α} {names : List String} {s t u : Store α}

theorem Probed.refl (hs : s.Sound) : Probed d names s s :=
  { Store.Inside.refl hs with only := fun _ _ => rfl }

/-- What is brought after some probes is as if it was brought before them. -/
theorem Probed.takes {es : List (Entry α)} (h : Probed d names s u) (hs : s.Sound)
    (hd : d.Valid s) (ht : d.Takes (names.zip es) u t) :
    s.Inside ((s.registry d.pars).cellsOf names) {x | x ∈ d.states} t ∧
      s.Written t (s.registry d.pars) (names.zip es) := by
  have hregistry := h.registries _ hd.pars_bounded
  obtain ⟨hut, hwritten⟩ := ht
  rw [hregistry] at hut hwritten
  have hnames := Registry.cellsOf_subset (r := s.registry d.pars)
    (Density.fst_zip_sublist names es).subset
  refine ⟨h.toInside.trans (hut.mono hnames (Set.Subset.refl _)), fun e he c v err hc hown => ?_⟩
  rw [hwritten e he c v err hc hown, h.only c ((hs d.pars).find?_bounded hc)]
  rfl

variable (hnodup : names.Nodup) (hknown : names ⊆ (s.registry d.pars).names)

include hnodup in
omit [Scalar α] in
/-- Entries that bring values by position are a mapping of different names. -/
theorem proper_zip (es : List (Entry α)) : (Input.mapping (names.zip es)).Proper :=
  (Density.fst_zip_sublist names es).nodup hnodup

include hknown in
omit [Scalar α] in
theorem matches_zip (es : List (Entry α)) :
    (Input.mapping (names.zip es)).Matches (s.registry d.pars) :=
  fun _ he => hknown (List.of_mem_zip he).1

/-- Entries that bring values by position can be read if each of them can. -/
theorem readable_zip {es : List (Entry α)} (hes : ∀ e ∈ es, e.Readable s) :
    (Input.mapping (names.zip es)).Readable s :=
  fun _ he => hes _ (List.of_mem_zip he).2

theorem readable_coordinates (s : Store α) (x : List α) : ∀ e ∈ coordinates x, e.Readable s := by
  intro e he
  obtain ⟨v, -, rfl⟩ := List.mem_map.mp he
  exact ⟨none, rfl⟩

include hnodup hknown

/-- A probe writes its coordinates, whether it yields a value or fails. -/
theorem objective_takes (hs : s.Sound) (columns : List (Value α)) (x : List α) :
    (objective d names columns x).Ends s (fun _ t => d.Takes (names.zip (coordinates x)) s t)
      fun t => d.Takes (names.zip (coordinates x)) s t := by
  rw [objective_eq]
  refine (Density.setPars_takes hs (proper_zip hnodup _) (matches_zip hknown _)
    (readable_zip (readable_coordinates s x))).bind fun _ t ht => ?_
  exact Run.ends_reading (fun _ _ => ht) ht

/-- **Where a probe fails**, an integral has failed, or the density at the events. -/
theorem objective_eq_error (hs : s.Sound) (hd : d.Valid s) {columns : List (Value α)}
    {x : List α} {e : Fault α} (h : (objective d names columns x).outcome s = (.error e, t)) :
    d.Stuck t e ∨ ((∀ m ∈ d.models, m.Fresh t) ∧ d.lossOf t columns floor = .error e) := by
  have hproper := proper_zip hnodup (coordinates x)
  rw [objective_eq] at h
  rcases Run.outcome_bind_eq_error h with hset | ⟨⟨⟩, v, hset, hread⟩
  · exact .inl (Density.setPars_stuck hs hd hproper (matches_zip hknown _)
      (readable_zip (readable_coordinates s x)) hset)
  · rw [Run.outcome_reading] at hread
    obtain ⟨hloss, rfl⟩ := Prod.mk.inj hread
    exact .inr ⟨((Density.setPars_writes hs hd hproper).ok hset).2, hloss⟩

/-- **Probes only change values of free parameters, and normalizations.** -/
theorem objective_keeps_probed (hs : s.Sound) (hd : d.Valid s) (columns : List (Value α))
    (x : List α) :
    Run.Keeps (Probed d names s) (objective d names columns x) := by
  intro u hu
  have hknown' : names ⊆ (u.registry d.pars).names := by
    rwa [hu.registries _ hd.pars_bounded]
  have hprobed : ∀ t, d.Takes (names.zip (coordinates x)) u t → Probed d names s t := by
    intro t ht
    obtain ⟨hst, hwritten⟩ := hu.takes hs hd ht
    refine { hst with only := fun c hc => ?_ }
    by_cases hmem : c ∈ (s.registry d.pars).cellsOf ((names.zip (coordinates x)).map (·.1))
    · obtain ⟨n, hn, hfind⟩ := hmem
      obtain ⟨⟨_, e⟩, he, rfl⟩ := List.mem_map.mp hn
      obtain ⟨v, -, rfl⟩ := List.mem_map.mp (List.of_mem_zip he).2
      rw [hwritten _ he c (.scalar v) none hfind rfl]
      rfl
    · have hsame : t.cell c = u.cell c := by
        refine ht.inside.cells c (hc.trans_le hu.moreCells) ?_
        rwa [hu.registries _ hd.pars_bounded]
      rw [hsame]
      exact hu.only c hc
  exact (objective_takes hnodup hknown' hu.sound columns x).mono (fun _ t => hprobed t) hprobed

end Fit

/-- Second derivatives are refused before any of them is taken. -/
theorem hessian_eq_refused {f : List α → Run α α} {x : List α} {f0 : α}
    {bounds : List (Bounds α)} {relative : Option α} {s t : Store α} {e : Fault α}
    (h : (hessian f x f0 bounds relative).outcome s = (.ok (.error e), t)) :
    x.length ≠ bounds.length ∧ t = s := by
  unfold hessian at h
  cases hsteps : Hessian.steps (relative.getD 1e-4) x bounds with
  | error e' =>
    rw [hsteps] at h
    refine ⟨fun hlength => ?_, (Prod.mk.inj h).2.symm⟩
    have heps := (Hessian.Faces.of_length hlength).steps (relative.getD 1e-4)
    rw [hsteps] at heps
    cases heps
  | ok eps =>
    rw [hsteps] at h
    simp only at h
    split_ifs at h
    · cases h
    · obtain ⟨lower, u, -, hpure⟩ := Run.outcome_bind_eq_ok h
      cases hpure

namespace Fit

omit [Scalar α] in
theorem boundsOf_length {names : List String} {given : List (String × Bounds α)}
    {bounds : List (Bounds α)} (h : boundsOf names given = .ok bounds) :
    bounds.length = names.length := by
  unfold boundsOf at h
  extract_lets unknown at h
  split_ifs at h
  obtain rfl := Except.ok.inj h
  exact List.length_map _

/-! ### The course of a failing fit -/

/-- The fit fails before it moves the density. -/
inductive Refused (s : Store α) (d : Density α) (data : Input α) (options : Options α)
    (e : Fault α) : Prop
  /-- A name that is fixed is unknown, or all names are fixed. -/
  | fixed (h : freeNames s d options.fixed = .error e)
  /-- A free parameter is not a single number. -/
  | start {names : List String} (hn : freeNames s d options.fixed = .ok names)
      (h : (names.mapM fun n => do (← s.lookup d.pars n).given.single) = .error e)
  /-- A name with bounds is no free parameter. -/
  | bounds {names : List String} (hn : freeNames s d options.fixed = .ok names)
      (h : boundsOf names options.bounds = .error e)
  | data (h : d.columns s data = .error e)

/-- What the fit was about when it failed, in terms of the calls of its objective. -/
inductive Interrupted (d : Density α) (names : List String) (columns : List (Value α))
    (s t : Store α) (e : Fault α) : Prop
  | probe {u : Store α} (x : List α) (hu : Run.Reach (objective d names columns) s u)
      (h : (objective d names columns x).outcome u = (.error e, t))
  | misfit {u : Store α} {y : α} (x : List α) (hu : Run.Reach (objective d names columns) s u)
      (hx : (objective d names columns x).outcome u = (.ok y, t))
      (h : x.length ≠ names.length)
  | conclusion {u v : Store α} (r : FitResult α)
      (hu : Run.Reach (objective d names columns) s u) (hv : u.Same v) (hr : r.names = names)
      (h : (d.setPars (.result r)).outcome v = (.error e, t))

end Fit

/-- **Where a fit fails**: at its arguments, at a probe, at a report that does not fit, or when
the result is written. -/
theorem fit_eq_error {β : Type} {minimizer : Minimizer α β} {d : Density α} {data : Input α}
    {options : Fit.Options α} {s t : Store α} {e : Fault α}
    (h : (fit minimizer d data options).outcome s = (.error e, t)) :
    (t = s ∧ Fit.Refused s d data options e) ∨
      ∃ names columns, Fit.freeNames s d options.fixed = .ok names ∧
        d.columns s data = .ok columns ∧ Fit.Interrupted d names columns s t e := by
  unfold fit at h
  rcases Run.outcome_reading_bind_eq_error h with ⟨hnames, ht⟩ | ⟨names, hnames, h⟩
  · exact .inl ⟨ht, .fixed hnames⟩
  rcases Run.outcome_reading_bind_eq_error h with ⟨hstart, ht⟩ | ⟨start, -, h⟩
  · exact .inl ⟨ht, .start hnames hstart⟩
  rcases Run.outcome_reading_bind_eq_error h with ⟨hbounds, ht⟩ | ⟨bounds, hbounds, h⟩
  · exact .inl ⟨ht, .bounds hnames hbounds⟩
  rcases Run.outcome_reading_bind_eq_error h with ⟨hdata, ht⟩ | ⟨columns, hcolumns, h⟩
  · exact .inl ⟨ht, .data hdata⟩
  refine .inr ⟨names, columns, hnames, hcolumns, ?_⟩
  -- whatever fails while calling the objective is a failing probe
  have hprobe : ∀ {γ : Type} {x : Run α γ} {u : Store α},
      Run.Calling (Fit.objective d names columns) x →
      Run.Reach (Fit.objective d names columns) s u → x.outcome u = (.error e, t) →
        Fit.Interrupted d names columns s t e := by
    intro γ x u hx hu hfail
    obtain ⟨p, v, hv, hp⟩ := hx.failed hu hfail
    exact .probe p hv hp
  rcases Run.outcome_bind_eq_error h with h | ⟨⟨report, extra⟩, s₁, hsearch, h⟩
  · exact hprobe (Search.run_calling _ _) .refl h
  have h₁ := (Search.run_calling _ _).reach .refl hsearch
  rcases Run.outcome_bind_eq_error h with h | ⟨nll, s₂, hminimum, h⟩
  · exact .probe report.x h₁ h
  have h₂ := h₁.called hminimum
  rcases Run.outcome_bind_eq_error h with h | ⟨hess, s₃, hhess, h⟩
  · exact hprobe (hessian_calling _ _ _ _ _) h₂ h
  have h₃ := (hessian_calling _ _ _ _ _).reach h₂ hhess
  rcases Run.outcome_reading_bind_eq_error h with ⟨hrefused, rfl⟩ | ⟨matrix, -, h⟩
  · rw [hrefused] at hhess
    obtain ⟨hlength, rfl⟩ := hessian_eq_refused hhess
    rw [Fit.boundsOf_length hbounds] at hlength
    exact .misfit report.x h₁ hminimum hlength
  extract_lets cov finish at h
  -- once the errors are known, only writing the result can fail
  have hfinish : ∀ errors s₄, s₃.Same s₄ → (finish errors).outcome s₄ = (.error e, t) →
      Fit.Interrupted d names columns s t e := by
    intro errors s₄ hsame hlast
    rcases Run.outcome_bind_eq_error hlast with hset | ⟨_, _, -, hpure⟩
    · exact .conclusion _ h₃ hsame rfl hset
    · cases hpure
  cases hcov : cov with
  | some c =>
    rw [hcov] at h
    exact hfinish _ s₃ ⟨rfl, rfl, rfl⟩ h
  | none =>
    rw [hcov] at h
    rcases Run.outcome_bind_eq_error h with hnote | ⟨_, s₄, hnote, h⟩
    · cases hnote
    · obtain ⟨-, rfl⟩ := Prod.mk.inj hnote
      refine hfinish _ _ ?_ h
      exact ⟨rfl, rfl, rfl⟩

namespace Fit

variable {d : Density α} {names : List String} {columns : List (Value α)} {s t u : Store α}
  {e : Fault α}

/-! ### What is left -/

/-- What a fit that fails with `e` leaves in `t` of what there was in `s`. -/
inductive Stopped (d : Density α) (names : List String) (columns : List (Value α))
    (s t : Store α) (e : Fault α) : Prop
  /-- The free parameters have the coordinates of a point, with the errors of before. -/
  | point (x : List α) (probed : Probed d names s t)
      (written : s.Written t (s.registry d.pars) (names.zip (coordinates x)))
      (cause : d.Stuck t e ∨
        ((∀ m ∈ d.models, m.Fresh t) ∧
          (d.lossOf t columns floor = .error e ∨ x.length ≠ names.length)))
  /-- The free parameters have the values and errors of a result. -/
  | result (r : FitResult α) (hr : r.names = names)
      (inside : s.Inside ((s.registry d.pars).cellsOf names) {x | x ∈ d.states} t)
      (written : s.Written t (s.registry d.pars) (names.zip r.entries))
      (cause : d.Stuck t e)

theorem Probed.of_same {v : Store α} (h : Probed d names s u) (hv : u.Same v) :
    Probed d names s v :=
  { h.toInside.of_same hv with
    only := fun c hc => by
      rw [hv.cell]
      exact h.only c hc }

theorem readable_entries (s : Store α) (r : FitResult α) : ∀ e ∈ r.entries, e.Readable s := by
  intro e he
  obtain ⟨v, -, rfl⟩ := List.mem_map.mp he
  exact ⟨some v.2, rfl⟩

/-- **A fit that fails after it has accepted its arguments** leaves the density where the last
move has put it. -/
theorem Interrupted.stopped (h : Interrupted d names columns s t e) (hs : s.Sound)
    (hd : d.Valid s) (hnodup : names.Nodup) (hknown : names ⊆ (s.registry d.pars).names) :
    Stopped d names columns s t e := by
  have hkeeps := objective_keeps_probed hnodup hknown hs hd columns
  have hreached : ∀ {u}, Run.Reach (objective d names columns) s u → Probed d names s u :=
    fun hu => hu.keeps hkeeps (Probed.refl hs)
  have hstill : ∀ {u}, Probed d names s u → names ⊆ (u.registry d.pars).names := fun hu => by
    rwa [hu.registries _ hd.pars_bounded]
  cases h with
  | @probe u x hu h =>
    have hpu := hreached hu
    have htakes := (objective_takes hnodup (hstill hpu) hpu.sound columns x).error h
    refine .point x ((hkeeps x u hpu).error h) (hpu.takes hs hd htakes).2 ?_
    rcases objective_eq_error hnodup (hstill hpu) hpu.sound (hd.grows hpu.toGrows) h with
      hstuck | ⟨hfresh, hloss⟩
    · exact .inl hstuck
    · exact .inr ⟨hfresh, .inl hloss⟩
  | @misfit u y x hu hx h =>
    have hpu := hreached hu
    have htakes := (objective_takes hnodup (hstill hpu) hpu.sound columns x).ok hx
    have hproper := proper_zip hnodup (coordinates x)
    have hfresh := ((Density.setPars_writes hpu.sound (hd.grows hpu.toGrows) hproper).ok
      (objective_eq_ok hx).1).2
    exact .point x ((hkeeps x u hpu).ok hx) (hpu.takes hs hd htakes).2 (.inr ⟨hfresh, .inr h⟩)
  | @conclusion u v r hu hv hr h =>
    subst hr
    have hpv := (hreached hu).of_same hv
    have hproper := proper_zip hnodup r.entries
    have hmatches := matches_zip (hstill hpv) r.entries
    have hread : (Input.mapping (r.names.zip r.entries)).Readable v :=
      readable_zip (readable_entries v r)
    rw [d.setPars_result hnodup] at h
    obtain ⟨hinside, hwritten⟩ :=
      hpv.takes hs hd ((Density.setPars_takes hpv.sound hproper hmatches hread).error h)
    exact .result r rfl hinside hwritten
      (Density.setPars_stuck hpv.sound (hd.grows hpv.toGrows) hproper hmatches hread h)

/-- **A failing move does not end where the fit has begun**: if all normalizations were right
and the events had a likelihood there, some parameter has another value. -/
theorem Stopped.moved (h : Stopped d names columns s t e) (hd : d.Valid s)
    (hfresh : ∀ m ∈ d.models, m.Fresh s) {y : α} (hloss : d.lossOf s columns floor = .ok y) :
    (∃ n, t.value? d.pars n ≠ s.value? d.pars n) ∨
      ∃ x : List α, x.length ≠ names.length ∧
        s.Written t (s.registry d.pars) (names.zip (coordinates x)) ∧
          ∀ m ∈ d.models, m.Fresh t := by
  cases h with
  | result r _ inside _ cause => exact .inl (cause.moved inside.toWithin hd hfresh)
  | point x probed written cause =>
    rcases cause with hstuck | ⟨hfresh', hfail | hlength⟩
    · exact .inl (hstuck.moved probed.toWithin hd hfresh)
    · refine .inl ?_
      by_contra hsame
      push Not at hsame
      have hagain := Density.lossOf_of_values probed.toWithin hd hsame hfresh hfresh' columns floor
      rw [hfail, hloss] at hagain
      cases hagain
    · exact .inr ⟨x, hlength, written, hfresh'⟩

end Fit

/-- **What a failing fit leaves, for every minimizer.** For every density of a session, a fit
that fails has refused its arguments, its start or its data, and nothing has changed; or it has
moved the density, and it leaves the free parameters with the coordinates of the last point,
or the values of the result, all other cells as they were, and the normalizations renewed as
far as the last move has come. If all normalizations were right and the events had a
likelihood before, some parameter has another value then, unless the minimizer has reported a
point that has not one coordinate for each free parameter. -/
theorem Session.fit_fails {calls : List (Call α)} {d : Density α} {β : Type}
    {minimizer : Minimizer α β} {data : Input α} {options : Fit.Options α} {e : Fault α}
    {t : Store α} (hd : .density d ∈ (Session.after calls).objects)
    (h : (fit minimizer d data options).outcome (Session.after calls).store = (.error e, t)) :
    let s := (Session.after calls).store
    (t = s ∧ Fit.Refused s d data options e) ∨
      ∃ names columns, Fit.freeNames s d options.fixed = .ok names ∧
        d.columns s data = .ok columns ∧ Fit.Stopped d names columns s t e ∧
        ((∀ m ∈ d.models, m.Fresh s) → (∃ y, d.lossOf s columns Fit.floor = .ok y) →
          (∃ n, t.value? d.pars n ≠ s.value? d.pars n) ∨
            ∃ x : List α, x.length ≠ names.length ∧
              s.Written t (s.registry d.pars) (names.zip (Fit.coordinates x)) ∧
                ∀ m ∈ d.models, m.Fresh t) := by
  have hvalid := Session.after_valid calls
  have hdv : d.Valid (Session.after calls).store := hvalid.objects _ hd
  rcases fit_eq_error h with hrefused | ⟨names, columns, hnames, hcolumns, hinterrupted⟩
  · exact .inl hrefused
  · have hstopped := hinterrupted.stopped hvalid.sound hdv
      (Fit.nodup_freeNames hvalid.sound hnames)
      fun n hn => ((Fit.mem_freeNames hnames n).mp hn).1
    exact .inr ⟨names, columns, hnames, hcolumns, hstopped,
      fun hfresh ⟨_, hloss⟩ => hstopped.moved hdv hfresh hloss⟩

namespace Sample

/-- A decay density of one resonance, whose mass and width are 1. -/
def resonant : List (Call Limited) :=
  [ .cell ⟨.variable, "m12", .scalar (0 : ℚ), .scalar (0 : ℚ)⟩,
    .cell ⟨.variable, "m13", .scalar (0 : ℚ), .scalar (0 : ℚ)⟩,
    .cell ⟨.variable, "m23", .scalar (0 : ℚ), .scalar (0 : ℚ)⟩,
    .cell ⟨.parameter, "m", .scalar (1 : ℚ), .scalar (0 : ℚ)⟩,
    .cell ⟨.parameter, "g", .scalar (1 : ℚ), .scalar (0 : ℚ)⟩,
    .resonance 3 4 "12",
    .decay "Decay3Body" 0 1 2 5 ⟨(7 : ℚ), (0 : ℚ), (1 : ℚ), (0 : ℚ)⟩ (.ok 2) (14 : ℚ) (.ok 10) ⟨0⟩ ]

/-- One event for the decay. -/
def decayEvent : Input Limited :=
  .sequence [.column [(3 : ℚ)], .column [(4 : ℚ)], .column [(5 : ℚ)]]

/-- A fit whose minimizer probes width 2, and then a mass whose square is out of range. -/
def excessive (d : Density Limited) :
    Run Limited (FitResult Limited × Problem Limited × List Limited) :=
  fit (Search.scripted [[(2 : ℚ), (1 : ℚ)], [(1 : ℚ), (20 : ℚ)]] ⟨[(1 : ℚ), (1 : ℚ)], true, "", 2⟩)
    d decayEvent ⟨[], [], none, (0 : ℚ)⟩

end Sample

/-- The mass stays out of range. -/
theorem Session.fit_fails_excessive : ∃ d e t names columns y,
    let s := (Session.after Sample.resonant).store
    .density d ∈ (Session.after Sample.resonant).objects ∧
      (Sample.excessive d).outcome s = (.error e, t) ∧ Fit.Stopped d names columns s t e ∧
      (∀ m ∈ d.models, m.Fresh s) ∧ d.lossOf s columns Fit.floor = .ok y ∧
      s.value? d.pars "m" = some (.scalar (1 : ℚ)) ∧
      t.value? d.pars "m" = some (.scalar (20 : ℚ)) := by
  have hrun : ∃ x ∈ (Held.decay (Session.after Sample.resonant).objects 6).toOption,
      (x.integral (Session.after Sample.resonant).store).toOption =
        some ((Session.after Sample.resonant).store.state x.state).norm ∧
      (∃ columns ∈ ((Density.model (.decay x)).columns (Session.after Sample.resonant).store
          Sample.decayEvent).toOption,
        ∃ y ∈ ((Density.model (.decay x)).lossOf (Session.after Sample.resonant).store columns
          Fit.floor).toOption, True) ∧
      (Session.after Sample.resonant).store.value? x.head.pars "m" = some (.scalar (1 : ℚ)) ∧
      ((Sample.excessive (.model (.decay x))).outcome
        (Session.after Sample.resonant).store).1.isOk = false ∧
      ((Sample.excessive (.model (.decay x))).outcome
        (Session.after Sample.resonant).store).2.value? x.head.pars "m" =
          some (.scalar (20 : ℚ)) := by
    decide +kernel
  obtain ⟨x, hx, hnorm, ⟨columns, hcolumns, y, hy, -⟩, hbefore, hfail, hafter⟩ := hrun
  have hmem : .density (.model (.decay x)) ∈ (Session.after Sample.resonant).objects :=
    List.mem_of_getElem? (Held.decay_eq_ok (Sample.eq_ok_of_toOption hx))
  have hfresh : ∀ m ∈ (Density.model (.decay x)).models,
      m.Fresh (Session.after Sample.resonant).store := fun m hm => by
    rw [List.mem_singleton.mp hm]
    exact Sample.eq_ok_of_toOption hnorm
  rcases hout : (Sample.excessive (.model (.decay x))).outcome
      (Session.after Sample.resonant).store with ⟨e | r, t⟩
  · rw [hout] at hafter
    have hmass : t.value? x.head.pars "m" = some (.scalar (20 : ℚ)) := hafter
    rcases Session.fit_fails hmem hout with
      ⟨hsame, -⟩ | ⟨names, columns', -, hcolumns', hstopped, -⟩
    · -- the mass is another one, so that the fit was not refused
      rw [hsame] at hmass
      exact absurd (hbefore.symm.trans hmass) (by decide)
    · obtain rfl := Except.ok.inj ((Sample.eq_ok_of_toOption hcolumns).symm.trans hcolumns')
      exact ⟨_, e, t, names, columns, y, hmem, hout, hstopped, hfresh,
        Sample.eq_ok_of_toOption hy, hbefore, hmass⟩
  · rw [hout] at hfail
    cases hfail

end DensityAlgebra
