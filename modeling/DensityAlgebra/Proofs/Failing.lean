/-
# What a failing setter leaves

A setter assigns values first and then, if they are parameters, lets the models renew what
they derive from them, one after the other. It can fail at both. An assignment that is not
accepted is refused as a whole. Once it is accepted it is not taken back. Where an error that
is given with a value is no number, that value and those before it are written, and the
others are not. Where the integral of a decay density fails, all values stay in their cells,
the models before that density are renewed already, and that density and those after it keep
the normalizations that they had.

So a setter of variables that is accepted fails only at an error that is no number. A setter
of parameters that fails leaves things as they were only if it was refused: where all
normalizations were right before, a failing renewal always leaves another value in some
parameter.

Key definitions: `Setter.input`, `Setter.Accepted`, `Density.Stuck`, `Setter.Unfinished`.
Key theorems: `Composite.cacheModels_eq_error`, `Setter.perform_eq_error`,
`Setter.Unfinished.moved`, `Session.setter_fails`.
-/
import DensityAlgebra.Proofs.Aliasing
import DensityAlgebra.Proofs.Restoring

namespace DensityAlgebra

variable {α : Type}

/-! ### What a setter assigns -/

namespace Setter

/-- The values that a call brings, in the form in which they are assigned. -/
def input : Setter α → Input α
  | setVar name value error | setPar name value error => .mapping [(name, .measured value error)]
  | setVars input => input
  | setPars input => input.measured
  | cache => .mapping []

/-- The registry whose cells take the values. -/
def target (d : Density α) : Setter α → RegistryId
  | setVar .. | setVars _ => d.vars
  | setPar .. | setPars _ | cache => d.pars

/-- Whether the models renew what they derive from parameters. -/
def renews : Setter α → Bool
  | setVar .. | setVars _ => false
  | setPar .. | setPars _ | cache => true

/-- A mapping that is given has different names. -/
def Proper : Setter α → Prop
  | setVars input | setPars input => input.Proper
  | _ => True

theorem Proper.input : ∀ {σ : Setter α}, σ.Proper → σ.input.Proper
  | setVars _, h => h
  | setPars _, h => Input.Proper.measured h
  | setVar .., _ | setPar .., _ => List.nodup_singleton _
  | cache, _ => List.nodup_nil

variable [Scalar α]

/-- The values are accepted. -/
def Accepted (s : Store α) (d : Density α) (σ : Setter α) : Prop :=
  σ.input.Matches (s.registry (σ.target d))

/-- The names that take values, each with what it takes. -/
def entries (s : Store α) (d : Density α) (σ : Setter α) : List (String × Entry α) :=
  σ.input.entries (s.registry (σ.target d))

/-- The first half of a call. -/
def assign (d : Density α) : Setter α → Run α Unit
  | setVar name value error => Density.setNamed d.vars .variable name value error
  | setVars input => Run.assign d.vars input CellKind.variable.word
  | setPar name value error => Density.setNamed d.pars .parameter name value error
  | setPars input => Run.assign d.pars input.measured CellKind.parameter.word
  | cache => pure ()

/-- Setting one name is assigning a mapping of that name. -/
theorem setNamed_eq_assign {s : Store α} {r : RegistryId} {name : String} {value error : Content α}
    (h : name ∈ (s.registry r).names) (kind : CellKind) :
    (Density.setNamed r kind name value error).outcome s =
      (Run.assign r (.mapping [(name, .measured value error)]) kind.word).outcome s := by
  obtain ⟨c, hc⟩ := Registry.find?_eq_some_of_mem h
  have hset : (Density.setNamed r kind name value error).outcome s =
      (Run.setMeasured c value error).outcome s := by
    have hget : (Density.setNamed r kind name value error).outcome s = _ :=
      Run.outcome_bind_ok _ (Run.outcome_get s)
    rw [hget, hc]
  rw [hset, Run.assign_eq_setEntries (Input.matches_single.mpr h)]
  simp only [Input.entries, Run.setEntries, hc]
  exact (congrArg (fun x => x.outcome s) (bind_pure (Run.setMeasured c value error))).symm

theorem setNamed_refused {s : Store α} {r : RegistryId} {name : String} (value error : Content α)
    (h : name ∉ (s.registry r).names) (kind : CellKind) :
    ∃ e, (Density.setNamed r kind name value error).outcome s = (.error e, s) := by
  have hget : (Density.setNamed r kind name value error).outcome s = _ :=
    Run.outcome_bind_ok _ (Run.outcome_get s)
  rw [hget, Registry.find?_eq_none.mpr h]
  exact ⟨_, rfl⟩

variable {s : Store α} {d : Density α} {σ : Setter α}

/-- **Values that are not accepted are refused.** -/
theorem assign_refused (h : ¬ σ.Accepted s d) : ∃ e, (σ.assign d).outcome s = (.error e, s) := by
  cases σ with
  | setVar name value error =>
    exact setNamed_refused value error (fun hn => h (Input.matches_single.mpr hn)) _
  | setPar name value error =>
    exact setNamed_refused value error (fun hn => h (Input.matches_single.mpr hn)) _
  | setVars input => exact Run.assign_refused h _
  | setPars input => exact Run.assign_refused h _
  | cache => exact absurd (fun e he => absurd he List.not_mem_nil) h

/-- Accepted values are written entry by entry. -/
theorem assign_eq_setEntries (h : σ.Accepted s d) :
    (σ.assign d).outcome s =
      (Run.setEntries (s.registry (σ.target d)) (σ.entries s d)).outcome s := by
  cases σ with
  | setVar name value error =>
    exact (setNamed_eq_assign (Input.matches_single.mp h) _).trans (Run.assign_eq_setEntries h _)
  | setPar name value error =>
    exact (setNamed_eq_assign (Input.matches_single.mp h) _).trans (Run.assign_eq_setEntries h _)
  | setVars input => exact Run.assign_eq_setEntries h _
  | setPars input => exact Run.assign_eq_setEntries h _
  | cache => rfl

theorem Proper.nodup_entries (hσ : σ.Proper) (hs : s.Sound) (h : σ.Accepted s d) :
    ((σ.entries s d).map (·.1)).Nodup :=
  hσ.input.nodup_entries (hs (σ.target d)).distinct h

/-- **Accepted values are written**, if nothing fails. -/
theorem assign_accepted (hs : s.Sound) (h : σ.Accepted s d) (hσ : σ.Proper) :
    (σ.assign d).Ends s (fun _ t =>
      s.Inside ((s.registry (σ.target d)).cellsOf ((σ.entries s d).map (·.1))) ∅ t ∧
        s.Written t (s.registry (σ.target d)) (σ.entries s d)) fun _ => True :=
  (Run.setEntries_writes _ hs (hs (σ.target d)) (hσ.nodup_entries hs h)).congr
    (assign_eq_setEntries h)

/-- **Writing accepted values stops** where an error cannot be read, and only there. -/
theorem assign_halted (hs : s.Sound) (h : σ.Accepted s d) (hσ : σ.Proper) {e : Fault α}
    {t : Store α} (hfail : (σ.assign d).outcome s = (.error e, t)) :
    s.Halted t (s.registry (σ.target d)) (σ.entries s d) e := by
  rw [assign_eq_setEntries h] at hfail
  rcases Run.setEntries_outcome _ (hs (σ.target d)).keyed h.entries (hσ.nodup_entries hs h) with
    ⟨u, hok, -⟩ | ⟨e', u, herr, hhalted⟩
  · cases hok.symm.trans hfail
  · obtain ⟨he, rfl⟩ := Prod.mk.inj (herr.symm.trans hfail)
    exact Except.error.inj he ▸ hhalted

/-- A call that fails has failed to assign, or to renew after that. -/
theorem perform_eq_error {t : Store α} {e : Fault α}
    (h : (σ.perform d).outcome s = (.error e, t)) :
    (σ.assign d).outcome s = (.error e, t) ∨
      ∃ u, (σ.assign d).outcome s = (.ok (), u) ∧ σ.renews = true ∧
        d.cache.outcome u = (.error e, t) := by
  cases σ with
  | setVar name value error => exact .inl h
  | setVars input => exact .inl h
  | cache => exact .inr ⟨s, rfl, rfl, h⟩
  | setPar name value error =>
    rcases Run.outcome_bind_eq_error h with h | ⟨_, u, hset, hcache⟩
    · exact .inl h
    · exact .inr ⟨u, hset, rfl, hcache⟩
  | setPars input =>
    rcases Run.outcome_bind_eq_error h with h | ⟨_, u, hset, hcache⟩
    · exact .inl h
    · exact .inr ⟨u, hset, rfl, hcache⟩

theorem perform_refused (h : ¬ σ.Accepted s d) :
    ∃ e, (σ.perform d).outcome s = (.error e, s) := by
  obtain ⟨e, he⟩ := assign_refused h
  refine ⟨e, ?_⟩
  cases σ with
  | setVar name value error => exact he
  | setVars input => exact he
  | setPar name value error => exact Run.outcome_bind_error _ he
  | setPars input => exact Run.outcome_bind_error _ he
  | cache => exact absurd (fun e he => absurd he List.not_mem_nil) h

end Setter

/-! ### Where renewing stops -/

variable [Scalar α]

/-- Renewing only fails where an integral does, and then changes nothing. -/
theorem Model.cache_eq_error {m : Model α} {s t : Store α} {e : Fault α}
    (h : m.cache.outcome s = (.error e, t)) :
    ∃ d, m = .decay d ∧ d.integral s = .error e ∧ t = s := by
  cases m with
  | decay d =>
    refine ⟨d, rfl, ?_⟩
    rcases Run.outcome_bind_eq_error h with h | ⟨x, u, -, h⟩
    · rw [Run.outcome_reading] at h
      obtain ⟨hd, rfl⟩ := Prod.mk.inj h
      exact ⟨hd, rfl⟩
    · -- nothing fails any more once the integral is there
      split_ifs at h <;> cases h
  | formula head body c => cases h
  | _ => cases h

/-- Models are renewed up to the first one whose integral fails; that integral fails still
after the others were renewed. -/
theorem Composite.cacheModels_eq_error : ∀ {ms : List (Model α)} {s t : Store α} {e : Fault α},
    s.Sound → (∀ m ∈ ms, m.Valid s) → (ms.flatMap Model.states).Nodup →
    (cacheModels ms).outcome s = (.error e, t) →
    ∃ done d rest, ms = done ++ .decay d :: rest ∧
      s.Inside ∅ {x | x ∈ done.flatMap Model.states} t ∧
      (∀ m ∈ done, m.Fresh t) ∧ d.integral t = .error e
  | [], s, t, e, _, _, _, h => by cases h
  | m :: ms, s, t, e, hs, hv, hd, h => by
    rw [List.forall_mem_cons] at hv
    rw [List.flatMap_cons, List.nodup_append] at hd
    rcases Run.outcome_bind_eq_error h with h | ⟨_, u, hm, hrest⟩
    · obtain ⟨d, rfl, hintegral, rfl⟩ := Model.cache_eq_error h
      exact ⟨[], d, ms, rfl, Store.Inside.refl hs, by simp, hintegral⟩
    · obtain ⟨hsu, hfresh⟩ := (Model.cache_fresh hs hv.1).ok hm
      have hvalid : ∀ k ∈ ms, k.Valid u := fun k hk => (hv.2 k hk).grows hsu.toGrows
      obtain ⟨done, d, rest, rfl, hut, hdone, hintegral⟩ :=
        cacheModels_eq_error hsu.sound hvalid hd.2.1 hrest
      refine ⟨m :: done, d, rest, rfl, ?_, ?_, hintegral⟩
      · have h₁ : s.Inside ∅ {x | x ∈ (m :: done).flatMap Model.states} u :=
          hsu.mono (Set.Subset.refl _) fun x hx => List.mem_append_left _ hx
        exact h₁.trans (hut.mono (Set.Subset.refl _) fun x hx => List.mem_append_right _ hx)
      · refine List.forall_mem_cons.mpr ⟨?_, hdone⟩
        refine hfresh.within hut.toWithin hsu.sound (hv.1.grows hsu.toGrows)
          (Model.misses_empty u _) fun x hx hx' => hd.2.2 x hx x ?_ rfl
        rw [List.flatMap_append]
        exact List.mem_append_left _ hx'

/-- A density renews its models. -/
theorem Density.cache_eq (d : Density α) (s : Store α) :
    d.cache.outcome s = (Composite.cacheModels d.models).outcome s := by
  cases d with
  | composite p => rfl
  | model m =>
    show m.cache.outcome s = (m.cache >>= fun _ => pure ()).outcome s
    rw [Run.outcome_bind]
    rcases m.cache.outcome s with ⟨e | ⟨⟩, t⟩ <;> rfl

namespace Density

/-- The models are renewed up to one whose integral fails. -/
def Stuck (d : Density α) (t : Store α) (e : Fault α) : Prop :=
  ∃ done x rest, d.models = done ++ .decay x :: rest ∧ (∀ m ∈ done, m.Fresh t) ∧
    x.integral t = .error e

variable {d : Density α} {s t : Store α} {e : Fault α}

/-- An integral that fails now did not fail when the parameters had the same values. -/
theorem Stuck.moved {C : Set CellId} {D : Set StateId} (h : d.Stuck t e)
    (hst : s.Within C D t) (hd : d.Valid s) (hfresh : ∀ m ∈ d.models, m.Fresh s) :
    ∃ n, t.value? d.pars n ≠ s.value? d.pars n := by
  obtain ⟨done, x, rest, hmodels, -, hintegral⟩ := h
  have hx : Model.decay x ∈ d.models := by
    rw [hmodels]
    exact List.mem_append_right _ List.mem_cons_self
  by_contra hsame
  push Not at hsame
  have halike := alike_of_values hst hd hsame _ hx
  have hright : x.integral s = .ok (s.state x.state).norm := hfresh _ hx
  rw [halike.integral (hd.models _ hx), hintegral] at hright
  cases hright

end Density

/-! ### What is left -/

namespace Setter

/-- What a call with accepted values leaves in `t` of what there was in `s` when renewing
fails with `e`. -/
structure Unfinished (s t : Store α) (d : Density α) (σ : Setter α) (e : Fault α) : Prop where
  renews : σ.renews = true
  /-- The values are in the cells. -/
  written : s.Written t (s.registry d.pars) (σ.entries s d)
  /-- The models up to the one whose integral fails are renewed, and nothing else has
  changed. -/
  stopped : ∃ done x rest, d.models = done ++ .decay x :: rest ∧
    s.Within ((s.registry d.pars).cellsOf ((σ.entries s d).map (·.1)))
      {y | y ∈ done.flatMap Model.states} t ∧
    (∀ m ∈ done, m.Fresh t) ∧ x.integral t = .error e ∧
    ∀ m ∈ Model.decay x :: rest, m.norms t = m.norms s

variable {s t : Store α} {d : Density α} {σ : Setter α} {e : Fault α}

/-- **A call with accepted values that fails has halted or is unfinished**: nothing is taken
back. -/
theorem perform_unfinished (hs : s.Sound) (hd : d.Valid s) (hσ : σ.Proper)
    (hacc : σ.Accepted s d) (h : (σ.perform d).outcome s = (.error e, t)) :
    s.Halted t (s.registry (σ.target d)) (σ.entries s d) e ∨ σ.Unfinished s t d e := by
  have hassign := assign_accepted hs hacc hσ
  rcases perform_eq_error h with hfail | ⟨u, hok, hrenews, hcache⟩
  · exact .inl (assign_halted hs hacc hσ hfail)
  · right
    obtain ⟨hsu, hwritten⟩ := hassign.ok hok
    have htarget : σ.target d = d.pars := by cases σ <;> first | rfl | cases hrenews
    rw [htarget] at hsu hwritten
    have hdu := hd.grows hsu.toGrows
    rw [Density.cache_eq] at hcache
    obtain ⟨done, x, rest, hmodels, hut, hdone, hintegral⟩ :=
      Composite.cacheModels_eq_error hsu.sound hdu.models hdu.distinct hcache
    have hst : s.Within ((s.registry d.pars).cellsOf ((σ.entries s d).map (·.1)))
        {y | y ∈ done.flatMap Model.states} t :=
      (hsu.toWithin.mono (Set.Subset.refl _) (Set.empty_subset _)).trans
        (hut.toWithin.mono (Set.empty_subset _) (Set.Subset.refl _))
    refine ⟨hrenews, fun en hen c v err hc hown => ?_, done, x, rest, hmodels, hst, hdone,
      hintegral, fun m hm => ?_⟩
    · have hbounded := ((hs d.pars).find?_bounded hc).trans_le hsu.moreCells
      rw [hut.cells c hbounded (Set.notMem_empty c)]
      exact hwritten en hen c v err hc hown
    · have hmem : m ∈ d.models := by
        rw [hmodels]
        exact List.mem_append_right _ hm
      refine Model.norms_within hst (hd.models m hmem) fun y hy hy' => ?_
      -- the states of the models are all different
      have hdistinct := hd.distinct
      rw [hmodels, List.flatMap_append, List.nodup_append] at hdistinct
      exact hdistinct.2.2 y hy' y (List.mem_flatMap.mpr ⟨m, hm, hy⟩) rfl

theorem Unfinished.stuck (h : σ.Unfinished s t d e) : d.Stuck t e := by
  obtain ⟨done, x, rest, hmodels, -, hdone, hintegral, -⟩ := h.stopped
  exact ⟨done, x, rest, hmodels, hdone, hintegral⟩

/-- **A failing renewal leaves another value** in some parameter, if all normalizations were
right before. -/
theorem Unfinished.moved (h : σ.Unfinished s t d e) (hd : d.Valid s)
    (hfresh : ∀ m ∈ d.models, m.Fresh s) : ∃ n, t.value? d.pars n ≠ s.value? d.pars n := by
  obtain ⟨_, _, _, -, hst, -⟩ := h.stopped
  exact h.stuck.moved hst hd hfresh

end Setter

/-- **What a failing setter leaves**, for every density of a session and every setter. Values
that are not accepted are refused, and nothing changes. With accepted values a call fails at an
error that cannot be read: then the entries up to that one are written, but for this error, and
all normalizations are the old ones. Or a setter of parameters fails to renew: then the values
stay written, the models before the failing one are renewed, and it and the others have their
old normalizations. Some parameter has another value then, if all normalizations were right
before. -/
theorem Session.setter_fails {calls : List (Call α)} {d : Density α} {σ : Setter α}
    (hd : .density d ∈ (Session.after calls).objects) (hσ : σ.Proper) :
    let s := (Session.after calls).store
    (¬ σ.Accepted s d → ∃ e, (σ.perform d).outcome s = (.error e, s)) ∧
    ∀ e t, σ.Accepted s d → (σ.perform d).outcome s = (.error e, t) →
      s.Halted t (s.registry (σ.target d)) (σ.entries s d) e ∨
      σ.Unfinished s t d e ∧
        ((∀ m ∈ d.models, m.Fresh s) → ∃ n, t.value? d.pars n ≠ s.value? d.pars n) := by
  have hvalid := Session.after_valid calls
  have hdv : d.Valid (Session.after calls).store := hvalid.objects _ hd
  refine ⟨Setter.perform_refused, fun e t hacc hfail => ?_⟩
  exact (Setter.perform_unfinished hvalid.sound hdv hσ hacc hfail).imp_right fun hunfinished =>
    ⟨hunfinished, hunfinished.moved hdv⟩

namespace Sample

/-- The decay density of the sample session, with two bins per axis and its normalization
renewed. -/
def finer : List (Call ℚ) := cells ++ decay ++ [.tune 10 2 1 10, .set 10 .cache]

/-- Two values for a parameter that the density multiplies three points with. -/
def twoValues : Setter ℚ := .setPar "a" (.value (.column [1, 2])) (.scalar 0)

/-- A value for a variable, with a list as its error. -/
def listedError : Setter ℚ := .setVar "m12" (.scalar 5) (.datum (.list (.cons (.whole 1) .nil)))

end Sample

/-- The two values stay in the cell of the parameter, though they do not fit the three points; the
value 5 stays in the cell of the variable, though a list is no number. -/
theorem Session.setter_fails_finer : ∃ d,
    let s := (Session.after Sample.finer).store
    .density d ∈ (Session.after Sample.finer).objects ∧ (∀ m ∈ d.models, m.Fresh s) ∧
      (Sample.twoValues.Proper ∧ Sample.twoValues.Accepted s d ∧
        ∃ e t, (Sample.twoValues.perform d).outcome s = (.error e, t) ∧
          Sample.twoValues.Unfinished s t d e ∧ ∃ n, t.value? d.pars n ≠ s.value? d.pars n) ∧
      Sample.listedError.Proper ∧ Sample.listedError.Accepted s d ∧
        ∃ e t c, (Sample.listedError.perform d).outcome s = (.error e, t) ∧
          s.Halted t (s.registry d.vars) (Sample.listedError.entries s d) e ∧
          (s.registry d.vars).find? "m12" = some c ∧ (t.cell c).value = .scalar 5 := by
  have hrun : ∃ x ∈ (Held.decay (Session.after Sample.finer).objects 10).toOption,
      (x.integral (Session.after Sample.finer).store).toOption =
        some ((Session.after Sample.finer).store.state x.state).norm ∧
      ("a" ∈ ((Session.after Sample.finer).store.registry x.head.pars).names ∧
        ((Sample.twoValues.perform (.model (.decay x))).outcome
          (Session.after Sample.finer).store).1.isOk = false) ∧
      ∃ c ∈ ((Session.after Sample.finer).store.registry x.head.vars).find? "m12",
        ((Sample.listedError.perform (.model (.decay x))).outcome
          (Session.after Sample.finer).store).1.isOk = false ∧
        (((Sample.listedError.perform (.model (.decay x))).outcome
          (Session.after Sample.finer).store).2.cell c).value = .scalar 5 := by
    decide +kernel
  obtain ⟨x, hx, hnorm, ⟨hname, htwo⟩, c, hc, hlisted, hvalue⟩ := hrun
  have hmem : .density (.model (.decay x)) ∈ (Session.after Sample.finer).objects :=
    List.mem_of_getElem? (Held.decay_eq_ok (Sample.eq_ok_of_toOption hx))
  have hfresh : ∀ m ∈ (Density.model (.decay x)).models,
      m.Fresh (Session.after Sample.finer).store := by
    intro m hm
    rw [List.mem_singleton.mp hm]
    exact Sample.eq_ok_of_toOption hnorm
  have haccepted : Sample.twoValues.Accepted (Session.after Sample.finer).store
      (.model (.decay x)) := Input.matches_single.mpr hname
  have haccepted' : Sample.listedError.Accepted (Session.after Sample.finer).store
      (.model (.decay x)) := Input.matches_single.mpr (Registry.mem_names_of_find? hc)
  refine ⟨.model (.decay x), hmem, hfresh, ⟨trivial, haccepted, ?_⟩, trivial, haccepted', ?_⟩
  · rcases hout : (Sample.twoValues.perform (.model (.decay x))).outcome
        (Session.after Sample.finer).store with ⟨e | y, t⟩
    · rcases (Session.setter_fails (σ := Sample.twoValues) hmem trivial).2 e t haccepted hout with
        ⟨before, n, y, after, hentries, -, herror⟩ | hleft
      · -- the error that is given is zero
        obtain ⟨-, rfl⟩ : n = "a" ∧ y = .measured (.value (.column [1, 2])) (.scalar 0) := by
          have hy : (n, y) ∈ Sample.twoValues.entries (Session.after Sample.finer).store
              (.model (.decay x)) := hentries ▸ List.mem_append_right _ List.mem_cons_self
          exact Prod.mk.inj (List.mem_singleton.mp hy)
        cases herror
      · exact ⟨e, t, rfl, hleft.1, hleft.2 hfresh⟩
    · rw [hout] at htwo
      cases htwo
  · rcases hout : (Sample.listedError.perform (.model (.decay x))).outcome
        (Session.after Sample.finer).store with ⟨e | y, t⟩
    · rw [hout] at hvalue
      rcases (Session.setter_fails (σ := Sample.listedError) hmem trivial).2 e t haccepted' hout
        with hhalted | ⟨hleft, -⟩
      · exact ⟨e, t, c, rfl, hhalted, hc, hvalue⟩
      · -- a setter of variables renews nothing
        cases hleft.renews
    · rw [hout] at hlisted
      cases hlisted

end DensityAlgebra
