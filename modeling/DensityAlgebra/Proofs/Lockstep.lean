/-
# Two densities in step

Two densities that have the same under every name, the same stored integral, and one numerator
wherever they have the same values are the same to every reader. If they share no cell, this
stays so as long as what is done to the one is done to the other: their parameters are set to the
same values, whether these are given as such, as the values of cells that the call does not set,
or as the values of their own cells of one name.

A cell of one of them that the call sets is not the same for both: it is read once before it was
set and once after that.

Key definitions: `Run.Paired`, `Setter.SameFor`, `Decay.Twins`, `Decay.Level`,
`Decay.afterCalls`, `Decay.Indistinct`.
Key theorems: `Run.Paired.bind`, `Decay.perform_inside`, `Decay.Twins.setEntries_paired`,
`Decay.Twins.cache_paired`, `Decay.Twins.perform_paired`, `Decay.Twins.afterCalls_twins`.
-/
import DensityAlgebra.Proofs.Aliasing
import DensityAlgebra.Proofs.Commuting
import DensityAlgebra.Proofs.Failing

namespace DensityAlgebra

variable {α : Type}

/-! ### Pairs of actions -/

namespace Run

variable {β γ : Type} {R : Store α → Store α → Prop}

/-- From related stores the two actions lead to related stores, and both yield the same or both
fail. -/
def Paired (R : Store α → Store α → Prop) (x y : Run α β) : Prop :=
  ∀ t u, R t u →
    R (x.outcome t).2 (y.outcome u).2 ∧ (x.outcome t).1.toOption = (y.outcome u).1.toOption

/-- Sequences are paired if their parts are. -/
theorem Paired.bind {x y : Run α β} {f g : β → Run α γ} (hxy : Paired R x y)
    (hfg : ∀ b, Paired R (f b) (g b)) : Paired R (x >>= f) (y >>= g) := by
  intro t u h
  have hfirst := hxy t u h
  rw [outcome_bind, outcome_bind]
  rcases hx : x.outcome t with ⟨e | b, t'⟩ <;> rcases hy : y.outcome u with ⟨e' | b', u'⟩ <;>
    rw [hx, hy] at hfirst
  · exact ⟨hfirst.1, rfl⟩
  · cases hfirst.2
  · cases hfirst.2
  · obtain rfl : b = b' := Option.some.inj hfirst.2
    exact hfg b t' u' hfirst.1

theorem Paired.pure (b : β) : Paired R (pure b : Run α β) (Pure.pure b) := fun _ _ h => ⟨h, rfl⟩

/-- What does not depend on the store is read alike. -/
theorem Paired.reading (r : Except (Fault α) β) :
    Paired R (reading fun _ => r) (Run.reading fun _ => r) := by
  intro t u h
  rw [outcome_reading, outcome_reading]
  exact ⟨h, rfl⟩

end Run

/-! ### The same call for two densities -/

/-- The same for a density with the parameters `p` and for one with the parameters `q`, in a call
that sets the parameters `names`: a value, a cell that the call sets in neither, or their own
cells of one name. -/
inductive Entry.SameFor (b : Store α) (names : List String) (p q : Registry) :
    Entry α → Entry α → Prop
  | given (g : Given α) : SameFor b names p q (.given g) (.given g)
  | measured (v error : Content α) : SameFor b names p q (.measured v error) (.measured v error)
  | unset {c : CellId} (bounded : c.index < b.cells.size) (first : c ∉ p.cellsOf names)
      (second : c ∉ q.cellsOf names) : SameFor b names p q (.cell c) (.cell c)
  | own {n : String} {c c' : CellId} (first : p.find? n = some c) (second : q.find? n = some c') :
      SameFor b names p q (.cell c) (.cell c')

/-- Mappings with the same under the same names. -/
def Input.SameEntries (b : Store α) (names : List String) (p q : Registry) :
    List (String × Entry α) → List (String × Entry α) → Prop :=
  List.Forall₂ fun e e' => e.1 = e'.1 ∧ e.2.SameFor b names p q e'.2

/-- A mapping has the same under the same names; anything else is the same. -/
inductive Input.SameFor (b : Store α) (p q : Registry) : Input α → Input α → Prop
  | mapping {es es' : List (String × Entry α)} (h : SameEntries b (es.map (·.1)) p q es es') :
      SameFor b p q (.mapping es) (.mapping es')
  | same {i : Input α} (h : ∀ es, i ≠ .mapping es) : SameFor b p q i i

/-- A call that sets parameters, and the same call for the other density. -/
inductive Setter.SameFor (b : Store α) (p q : Registry) : Setter α → Setter α → Prop
  | setPar (name : String) (value error : Content α) :
      SameFor b p q (.setPar name value error) (.setPar name value error)
  | setPars {i i' : Input α} (h : i.SameFor b p q i') : SameFor b p q (.setPars i) (.setPars i')

section

variable {b t : Store α} {names : List String} {p q : Registry}

/-- The same value under one name. -/
theorem Input.SameFor.single (b : Store α) (p q : Registry) (name : String)
    (value error : Content α) : (Input.mapping [(name, .measured value error)]).SameFor b p q
      (.mapping [(name, .measured value error)]) :=
  .mapping (.cons ⟨rfl, .measured value error⟩ .nil)

/-- The result of a fit gives both the same. -/
theorem Input.SameFor.measured {i i' : Input α} (h : i.SameFor b p q i') :
    i.measured.SameFor b p q i'.measured := by
  cases h with
  | mapping h => exact .mapping h
  | same h =>
    cases i with
    | mapping es => exact absurd rfl (h es)
    | result r =>
      refine .mapping (List.forall₂_same.mpr fun e he => ⟨rfl, ?_⟩)
      obtain ⟨m, -, rfl⟩ := List.mem_map.mp he
      exact .measured _ _
    | _ => exact .same h

theorem Entry.SameFor.grows [Scalar α] {e e' : Entry α} (h : e.SameFor b names p q e')
    (hbt : b.Grows t) : e.SameFor t names p q e' := by
  cases h with
  | given g => exact .given g
  | measured v error => exact .measured v error
  | unset hc hp hq => exact .unset (hc.trans_le hbt.moreCells) hp hq
  | own hc hc' => exact .own hc hc'

theorem Setter.SameFor.grows [Scalar α] {σ τ : Setter α} (h : σ.SameFor b p q τ)
    (hbt : b.Grows t) : σ.SameFor t p q τ := by
  cases h with
  | setPar name value error => exact .setPar name value error
  | setPars h =>
    cases h with
    | mapping h => exact .setPars (.mapping (h.imp fun _ _ he => ⟨he.1, he.2.grows hbt⟩))
    | same h => exact .setPars (.same h)

end

theorem Registry.mem_cells_of_cellsOf {r : Registry} {names : List String} {c : CellId}
    (h : c ∈ r.cellsOf names) : c ∈ r.cells := by
  obtain ⟨_, _, hc⟩ := h
  exact mem_cells_of_find? hc

/-- The names of parameters that a call sets. -/
def Setter.names (r : Registry) (σ : Setter α) : List String := (σ.input.entries r).map (·.1)

variable [Scalar α]

namespace Store

/-- What is under the names of a registry after one of its cells has got another content. -/
theorem content?_putCell {s : Store α} {r : Registry} (hr : s.Holds r) {n : String} {c : CellId}
    (hc : r.find? n = some c) (x : Cell α) (m : String) :
    (s.putCell c x).content? r m = if m = n then some x.content else s.content? r m := by
  unfold content?
  by_cases hm : m = n
  · rw [if_pos hm, hm, hc, Option.map_some, cell_putCell, if_pos ⟨rfl, hr.find?_bounded hc⟩]
  · rw [if_neg hm]
    cases hd : r.find? m with
    | none => rfl
    | some d =>
      have hne : d ≠ c := fun he =>
        hm ((hr.find?_named hd).symm.trans (he ▸ hr.find?_named hc))
      rw [Option.map_some, Option.map_some, cell_putCell, if_neg fun h => hne h.1]

/-- Under one name of two registries is the same. -/
theorem content_eq {s t : Store α} {p q : Registry} {n : String} {c c' : CellId}
    (h : s.content? p n = t.content? q n) (hc : p.find? n = some c) (hc' : q.find? n = some c') :
    (s.cell c).content = (t.cell c').content := by
  unfold content? at h
  rw [hc, hc'] at h
  exact Option.some.inj h

end Store

/-! ### What a call changes -/

namespace Run

/-- Assigning changes the cells of the names that take values. -/
theorem assign_inside {D : Set StateId} {s : Store α} (hs : s.Sound) (r : RegistryId)
    (input : Input α) (kind : String) :
    s.Inside ((s.registry r).cellsOf ((input.entries (s.registry r)).map (·.1))) D
      ((assign r input kind).outcome s).2 := by
  by_cases haccepted : input.Matches (s.registry r)
  · rw [assign_eq_setEntries haccepted]
    have hkeeps : Keeps (s.Inside ((s.registry r).cellsOf
        ((input.entries (s.registry r)).map (·.1))) D) (setEntries (s.registry r) _) :=
      setEntries_keeps _ fun e he c hc => ⟨e.1, List.mem_map_of_mem he, hc⟩
    exact hkeeps.after (Store.Inside.refl hs)
  · obtain ⟨e, he⟩ := assign_refused haccepted kind
    rw [he]
    exact Store.Inside.refl hs

end Run

namespace Setter

/-- A call that sets parameters assigns them. -/
theorem assign_inside {D : Set StateId} {s : Store α} {d : Density α} (hs : s.Sound)
    {σ : Setter α} (hσ : σ.setsPars = true) :
    s.Inside ((s.registry d.pars).cellsOf (σ.names (s.registry d.pars))) D
      ((σ.assign d).outcome s).2 := by
  cases σ with
  | setPars input => exact Run.assign_inside hs _ _ _
  | setPar name value error =>
    show s.Inside _ D ((Density.setNamed d.pars .parameter name value error).outcome s).2
    by_cases hname : name ∈ (s.registry d.pars).names
    · rw [setNamed_eq_assign hname]
      exact Run.assign_inside hs _ _ _
    · obtain ⟨e, he⟩ := setNamed_refused value error hname .parameter
      rw [he]
      exact Store.Inside.refl hs
  | _ => cases hσ

/-- It then renews normalizations. -/
theorem perform_eq_bind {d : Density α} {σ : Setter α} (hσ : σ.setsPars = true) :
    σ.perform d = σ.assign d >>= fun _ => d.cache := by
  cases σ with
  | setPar name value error => rfl
  | setPars input => rfl
  | _ => cases hσ

end Setter

namespace Decay

theorem pars_kept {b t : Store α} {x : Decay α} (hx : (Model.decay x).Valid b) (h : b.Grows t) :
    t.registry x.head.pars = b.registry x.head.pars :=
  h.registries _ (hx.linked.bounded _ x.head_pars_mem)

/-- **A call that sets parameters changes their cells**, and the normalization of the density. -/
theorem perform_inside {s : Store α} (x : Decay α) (hs : s.Sound) {σ : Setter α}
    (hσ : σ.setsPars = true) :
    s.Inside ((s.registry x.head.pars).cellsOf (σ.names (s.registry x.head.pars))) {x.state}
      ((σ.perform (.model (.decay x))).outcome s).2 := by
  have hassign := Setter.assign_inside (D := {x.state}) (d := .model (.decay x)) hs hσ
  have hcache : ∀ {C : Set CellId}, Run.Keeps (s.Inside C {x.state}) x.cache :=
    cache_keeps (Set.mem_singleton _)
  rw [Setter.perform_eq_bind hσ, Run.outcome_bind]
  rcases ho : (σ.assign (.model (.decay x))).outcome s with ⟨e | ⟨⟩, t⟩
  · rw [ho] at hassign
    exact hassign
  · rw [ho] at hassign
    exact hcache.after hassign

/-! ### Pairs of densities -/

/-- Two densities of the store `s` that have no cell in common, the same under every name, the
same stored integral, and one intensity wherever they have the same values. -/
structure Twins (s : Store α) (x y : Decay α) : Prop where
  sound : s.Sound
  first : (Model.decay x).Valid s
  second : (Model.decay y).Valid s
  cells : ∀ c ∈ (s.registry x.head.pars).cells, c ∉ (s.registry y.head.pars).cells
  states : x.state ≠ y.state
  space : x.space = y.space
  resolution : (s.state x.state).resolution = (s.state y.state).resolution
  interchangeable : Interchangeable s s x y
  contents : ∀ n, s.content? (s.registry x.head.pars) n = s.content? (s.registry y.head.pars) n
  norms : (s.state x.state).norm = (s.state y.state).norm

/-- During a call that sets the parameters `names` of both densities: what `x` has in the store
`t`, `y` has in the store `u`, and all else is as it was in `s`. -/
structure Level (s : Store α) (names : List String) (x y : Decay α) (t u : Store α) : Prop where
  first :
    s.Inside ((s.registry x.head.pars).cellsOf names ∪ (s.registry y.head.pars).cellsOf names)
      {x.state, y.state} t
  second :
    s.Inside ((s.registry x.head.pars).cellsOf names ∪ (s.registry y.head.pars).cellsOf names)
      {x.state, y.state} u
  contents : ∀ n, t.content? (s.registry x.head.pars) n = u.content? (s.registry y.head.pars) n
  norms : (t.state x.state).norm = (u.state y.state).norm

namespace Twins

variable {s t u : Store α} {names : List String} {x y : Decay α} (h : Twins s x y)

include h

/-- Both densities have a cell under a name, or none has. -/
theorem find?_isSome (n : String) : ((s.registry x.head.pars).find? n).isSome =
    ((s.registry y.head.pars).find? n).isSome := by
  have hsome := congrArg Option.isSome (h.contents n)
  unfold Store.content? at hsome
  rwa [Option.isSome_map, Option.isSome_map] at hsome

theorem mem_names_iff (n : String) : n ∈ (s.registry x.head.pars).names ↔
    n ∈ (s.registry y.head.pars).names := by
  rw [← Registry.isSome_find?, ← Registry.isSome_find?, h.find?_isSome]

theorem sortedNames_eq : (s.registry x.head.pars).sortedNames =
    (s.registry y.head.pars).sortedNames :=
  Registry.sortNames_eq_of_perm ((List.perm_ext_iff_of_nodup (h.sound _).distinct
    (h.sound _).distinct).mpr h.mem_names_iff)

/-! ### One call -/

omit h in
/-- A cell that is named has the same content in both stores. -/
theorem content_same (hlevel : Level s names x y t u) {d d' : CellId}
    (hd : Entry.SameFor s names (s.registry x.head.pars) (s.registry y.head.pars) (.cell d)
      (.cell d' : Entry α)) : (t.cell d).content = (u.cell d').content := by
  cases hd with
  | unset hbounded hx hy =>
    rw [hlevel.first.cells _ hbounded fun hc => hc.elim hx hy,
      hlevel.second.cells _ hbounded fun hc => hc.elim hx hy]
  | @own n _ _ hc hc' => exact Store.content_eq (hlevel.contents n) hc hc'

section

variable {n : String} {c c' : CellId} (hn : n ∈ names)
  (hc : (s.registry x.head.pars).find? n = some c)
  (hc' : (s.registry y.head.pars).find? n = some c')

include hn hc hc'

/-- The cells of one name get the same value, and the same error if one is given. -/
theorem setCell_paired (v : Content α) (e : Option α) :
    Run.Paired (Level s names x y) (Run.setCell c v e) (Run.setCell c' v e) := by
  intro t u hlevel
  have hfirst : t.Holds (s.registry x.head.pars) := hlevel.first.toGrows.holds (h.sound _)
  have hsecond : u.Holds (s.registry y.head.pars) := hlevel.second.toGrows.holds (h.sound _)
  have herror : (t.cell c).error = (u.cell c').error :=
    (Prod.mk.inj (Store.content_eq (hlevel.contents n) hc hc')).2
  refine ⟨⟨?_, ?_, fun m => ?_, hlevel.norms⟩, rfl⟩
  · exact (Run.setCell_keeps (.inl ⟨n, hn, hc⟩) v e).after hlevel.first
  · exact (Run.setCell_keeps (.inr ⟨n, hn, hc'⟩) v e).after hlevel.second
  · show (t.putCell c _).content? _ m = (u.putCell c' _).content? _ m
    rw [Store.content?_putCell hfirst hc, Store.content?_putCell hsecond hc', hlevel.contents m]
    show (if m = n then some (v, (e.map .scalar).getD (t.cell c).error) else _) =
      if m = n then some (v, (e.map .scalar).getD (u.cell c').error) else _
    rw [herror]

/-- Value and error are read and written alike. -/
theorem setMeasured_paired (v e : Content α) :
    Run.Paired (Level s names x y) (Run.setMeasured c v e) (Run.setMeasured c' v e) :=
  (h.setCell_paired hn hc hc' v none).bind fun _ =>
    (Run.Paired.reading _).bind fun err => h.setCell_paired hn hc hc' v err

/-- They take what the call gives. -/
theorem setEntry_paired {e e' : Entry α}
    (he : e.SameFor s names (s.registry x.head.pars) (s.registry y.head.pars) e') :
    Run.Paired (Level s names x y) (Run.setEntry c e) (Run.setEntry c' e') := by
  have hcell : ∀ {d d' : CellId}, Entry.SameFor s names (s.registry x.head.pars)
      (s.registry y.head.pars) (.cell d) (.cell d' : Entry α) →
      Run.Paired (Level s names x y) (Run.setEntry c (.cell d)) (Run.setEntry c' (.cell d')) := by
    intro d d' hd t u hlevel
    obtain ⟨hvalue, herror⟩ := Prod.mk.inj (content_same hlevel hd)
    have hpaired := h.setMeasured_paired hn hc hc' (t.cell d).value (t.cell d).error t u hlevel
    rw [show (Run.setMeasured c' (t.cell d).value (t.cell d).error).outcome u =
      (Run.setEntry c' (.cell d')).outcome u by rw [hvalue, herror]; rfl] at hpaired
    exact hpaired
  cases he with
  | given g => exact h.setCell_paired hn hc hc' g.content none
  | measured v e => exact h.setMeasured_paired hn hc hc' v e
  | unset hbounded hx hy => exact hcell (.unset hbounded hx hy)
  | own hd hd' => exact hcell (.own hd hd')

end

/-- **Mappings with the same under the same names are written alike.** -/
theorem setEntries_paired {es es' : List (String × Entry α)} (hnames : ∀ e ∈ es, e.1 ∈ names)
    (hes : Input.SameEntries s names (s.registry x.head.pars) (s.registry y.head.pars) es es') :
    Run.Paired (Level s names x y) (Run.setEntries (s.registry x.head.pars) es)
      (Run.setEntries (s.registry y.head.pars) es') := by
  induction hes with
  | nil => exact Run.Paired.pure ()
  | @cons e e' es es' he _ ih =>
    obtain ⟨n, e⟩ := e
    obtain ⟨n', e'⟩ := e'
    obtain ⟨rfl, he⟩ : n = n' ∧ _ := he
    rw [List.forall_mem_cons] at hnames
    have hsome := h.find?_isSome n
    unfold Run.setEntries
    cases hc : (s.registry x.head.pars).find? n with
    | none =>
      rw [hc] at hsome
      have hc' : (s.registry y.head.pars).find? n = none :=
        Option.isNone_iff_eq_none.mp (Option.isSome_eq_false_iff.mp hsome.symm)
      rw [hc']
      exact ih hnames.2
    | some c =>
      rw [hc] at hsome
      obtain ⟨c', hc'⟩ := Option.isSome_iff_exists.mp hsome.symm
      rw [hc']
      exact (h.setEntry_paired hnames.1 hc hc' he).bind fun _ => ih hnames.2

section

variable {i i' : Input α} (hi : i.SameFor s (s.registry x.head.pars) (s.registry y.head.pars) i')

include hi

/-- What is accepted for the one is accepted for the other. -/
theorem matches_iff :
    i.Matches (s.registry x.head.pars) ↔ i'.Matches (s.registry y.head.pars) := by
  cases hi with
  | mapping hes =>
    exact (forall_mem_iff_of_forall₂ hes fun e _ e' _ he => by
      rw [he.1, h.mem_names_iff]).symm
  | same hi =>
    cases i with
    | mapping es => exact absurd rfl (hi es)
    | row gs =>
      show gs.length = _ ↔ gs.length = _
      rw [h.sortedNames_eq]
    | _ => exact Iff.rfl

/-- Accepted values go to the same names. -/
theorem entries_same :
    Input.SameEntries s ((i.entries (s.registry x.head.pars)).map (·.1))
      (s.registry x.head.pars) (s.registry y.head.pars) (i.entries (s.registry x.head.pars))
      (i'.entries (s.registry y.head.pars)) := by
  cases hi with
  | mapping hes => exact hes
  | same hi =>
    cases i with
    | mapping es => exact absurd rfl (hi es)
    | row gs =>
      show List.Forall₂ _ (List.zip _ _) (List.zip _ _)
      rw [← h.sortedNames_eq]
      refine List.forall₂_same.mpr fun e he => ⟨rfl, ?_⟩
      obtain ⟨g, -, hg⟩ := List.mem_map.mp (List.of_mem_zip (a := e.1) (b := e.2) he).2
      exact hg ▸ .given g
    | _ => exact .nil

/-- **Parameters are assigned alike.** -/
theorem assign_paired (kind : String) :
    Run.Paired (Level s ((i.entries (s.registry x.head.pars)).map (·.1)) x y)
      (Run.assign x.head.pars i kind) (Run.assign y.head.pars i' kind) := by
  intro t u hlevel
  have hx := pars_kept h.first hlevel.first.toGrows
  have hy := pars_kept h.second hlevel.second.toGrows
  by_cases haccepted : i.Matches (s.registry x.head.pars)
  · have hother := (h.matches_iff hi).mp haccepted
    rw [Run.assign_eq_setEntries (by rwa [hx]), Run.assign_eq_setEntries (by rwa [hy]), hx, hy]
    exact h.setEntries_paired (fun e he => List.mem_map_of_mem he) (h.entries_same hi) t u hlevel
  · have hother := mt (h.matches_iff hi).mpr haccepted
    obtain ⟨e, he⟩ := Run.assign_refused (s := t) (by rwa [hx]) kind
    obtain ⟨e', he'⟩ := Run.assign_refused (s := u) (by rwa [hy]) kind
    rw [he, he']
    exact ⟨hlevel, rfl⟩

end

/-- One parameter is set alike. -/
theorem setNamed_paired (name : String) (value error : Content α) :
    Run.Paired (Level s [name] x y) (Density.setNamed x.head.pars .parameter name value error)
      (Density.setNamed y.head.pars .parameter name value error) := by
  intro t u hlevel
  have hx := pars_kept h.first hlevel.first.toGrows
  have hy := pars_kept h.second hlevel.second.toGrows
  by_cases hname : name ∈ (s.registry x.head.pars).names
  · have hother := (h.mem_names_iff name).mp hname
    rw [Setter.setNamed_eq_assign (by rwa [hx]), Setter.setNamed_eq_assign (by rwa [hy])]
    exact h.assign_paired (Input.SameFor.single s _ _ name value error) _ t u hlevel
  · have hother := mt (h.mem_names_iff name).mpr hname
    obtain ⟨e, he⟩ := Setter.setNamed_refused (s := t) value error (by rwa [hx]) .parameter
    obtain ⟨e', he'⟩ := Setter.setNamed_refused (s := u) value error (by rwa [hy]) .parameter
    rw [he, he']
    exact ⟨hlevel, rfl⟩

/-- The numerators are one function of the points. -/
theorem intensity_eq (hlevel : Level s names x y t u) (a₁ a₂ a₃ : Given α) :
    (x.intensity t a₁ a₂ a₃).toOption = (y.intensity u a₁ a₂ a₃).toOption := by
  refine h.interchangeable t u
    (fun r hr => hlevel.first.registries r (h.first.linked.bounded r hr))
    (fun r hr => hlevel.second.registries r (h.second.linked.bounded r hr)) (fun n => ?_) a₁ a₂ a₃
  rw [Store.value?_eq_content?, Store.value?_eq_content?, pars_kept h.first hlevel.first.toGrows,
    pars_kept h.second hlevel.second.toGrows, hlevel.contents]

/-- **Normalizations are renewed alike.** -/
theorem cache_paired : Run.Paired (Level s names x y) x.cache y.cache := by
  intro t u hlevel
  have hxs : x.state.index < s.states.size := h.first.states _ (List.mem_singleton_self _)
  have hys : y.state.index < s.states.size := h.second.states _ (List.mem_singleton_self _)
  have hresolution : (t.state x.state).resolution = (u.state y.state).resolution := by
    rw [hlevel.first.resolutions _ hxs, hlevel.second.resolutions _ hys, h.resolution]
  have hintegral := integral_toOption h.space hresolution (h.intensity_eq hlevel)
  cases hx : x.integral t with
  | error e =>
    cases hy : y.integral u with
    | error e' =>
      rw [cache_error hx, cache_error hy]
      exact ⟨hlevel, rfl⟩
    | ok norm =>
      rw [hx, hy] at hintegral
      cases hintegral
  | ok norm =>
    cases hy : y.integral u with
    | error e =>
      rw [hx, hy] at hintegral
      cases hintegral
    | ok norm' =>
      rw [hx, hy] at hintegral
      obtain rfl : norm = norm' := Option.some.inj hintegral
      obtain ⟨t', ht', htsame⟩ := cache_ok hx
      obtain ⟨u', hu', husame⟩ := cache_ok hy
      have hfirst := (cache_keeps (d := x) (.inl rfl)).after hlevel.first
      have hsecond := (cache_keeps (d := y) (.inr rfl)).after hlevel.second
      rw [ht', hu'] at *
      refine ⟨⟨hfirst, hsecond, fun n => ?_, ?_⟩, rfl⟩
      · show t'.content? _ n = u'.content? _ n
        rw [Store.content?_congr htsame.1, Store.content?_congr husame.1]
        exact hlevel.contents n
      · show (t'.state x.state).norm = (u'.state y.state).norm
        rw [htsame.state, husame.state, Store.state_withNorm (hxs.trans_le hlevel.first.moreStates),
          Store.state_withNorm (hys.trans_le hlevel.second.moreStates)]

/-- **A call for the one and the same call for the other** keep them level, and both fail or none
does. -/
theorem perform_paired {σ τ : Setter α}
    (hσ : σ.SameFor s (s.registry x.head.pars) (s.registry y.head.pars) τ) :
    Run.Paired (Level s (σ.names (s.registry x.head.pars)) x y)
      (σ.perform (.model (.decay x))) (τ.perform (.model (.decay y))) := by
  cases hσ with
  | setPar name value error =>
    exact (h.setNamed_paired name value error).bind fun _ => h.cache_paired
  | setPars hi => exact (h.assign_paired hi.measured _).bind fun _ => h.cache_paired

end Twins

/-! ### Calls for both -/

/-- The store after a call for the first density and one for the second. Calls that fail are
passed over. -/
def afterCall (x y : Decay α) (t : Store α) (call : Setter α × Setter α) : Store α :=
  ((call.2.perform (.model (.decay y))).outcome
    ((call.1.perform (.model (.decay x))).outcome t).2).2

/-- The store after calls for both densities, one after the other. -/
def afterCalls (x y : Decay α) (calls : List (Setter α × Setter α)) (t : Store α) : Store α :=
  calls.foldl (afterCall x y) t

/-- The two densities of a store are the same to every reader. -/
structure Indistinct (t : Store α) (x y : Decay α) : Prop where
  names : (Density.model (.decay x)).parNames t = (Density.model (.decay y)).parNames t
  /-- Value and error under every name. -/
  contents : ∀ n, t.content? (t.registry x.head.pars) n = t.content? (t.registry y.head.pars) n
  norms : (t.state x.state).norm = (t.state y.state).norm
  /-- The value at every point, or that there is none. -/
  points : ∀ m12 m13 m23,
    (x.evaluateAt t m12 m13 m23).toOption = (y.evaluateAt t m12 m13 m23).toOption

namespace Twins

variable {s t : Store α} {names : List String} {x y : Decay α} (h : Twins s x y)

include h

theorem level : Level s names x y s s where
  first := Store.Inside.refl h.sound
  second := Store.Inside.refl h.sound
  contents := h.contents
  norms := h.norms

/-- **Twins are indistinct.** -/
theorem indistinct : Indistinct s x y where
  names := h.sortedNames_eq
  contents := h.contents
  norms := h.norms
  points :=
    have hlevel : Level s [] x y s s := h.level
    evaluateAt_toOption h.space h.norms (h.intensity_eq hlevel)

/-- Densities that stay the same under every name stay twins. -/
theorem kept {C : Set CellId} {D : Set StateId} (hin : s.Inside C D t)
    (hcontents : ∀ n, t.content? (s.registry x.head.pars) n =
      t.content? (s.registry y.head.pars) n)
    (hnorms : (t.state x.state).norm = (t.state y.state).norm) : Twins t x y where
  sound := hin.sound
  first := h.first.grows hin.toGrows
  second := h.second.grows hin.toGrows
  cells := by
    rw [pars_kept h.first hin.toGrows, pars_kept h.second hin.toGrows]
    exact h.cells
  states := h.states
  space := h.space
  resolution := by
    rw [hin.resolutions _ (h.first.states _ (List.mem_singleton_self _)),
      hin.resolutions _ (h.second.states _ (List.mem_singleton_self _)), h.resolution]
  interchangeable t' u' ht hu := h.interchangeable t' u'
    (fun r hr => (ht r hr).trans (hin.registries r (h.first.linked.bounded r hr)))
    fun r hr => (hu r hr).trans (hin.registries r (h.second.linked.bounded r hr))
  contents := by
    rw [pars_kept h.first hin.toGrows, pars_kept h.second hin.toGrows]
    exact hcontents
  norms := hnorms

variable {σ τ : Setter α}

/-- **A call for both leaves twins**, in the store where both are. -/
theorem afterCall_twins
    (hσ : σ.SameFor s (s.registry x.head.pars) (s.registry y.head.pars) τ) :
    Twins (afterCall x y s (σ, τ)) x y ∧ s.Grows (afterCall x y s (σ, τ)) := by
  obtain ⟨hx, hy⟩ : σ.setsPars = true ∧ τ.setsPars = true := by
    cases hσ <;> exact ⟨rfl, rfl⟩
  have hxs : x.state.index < s.states.size := h.first.states _ (List.mem_singleton_self _)
  have hys : y.state.index < s.states.size := h.second.states _ (List.mem_singleton_self _)
  -- the call for the first density leaves the second one as it was
  have hfirst := perform_inside x h.sound hx
  set t₁ := ((σ.perform (.model (.decay x))).outcome s).2
  have hbefore : Level s (σ.names (s.registry x.head.pars)) x y s t₁ :=
    { first := Store.Inside.refl h.sound
      second := hfirst.mono Set.subset_union_left (Set.singleton_subset_iff.mpr (.inl rfl))
      contents := fun n => by
        rw [h.contents, Store.content?_unwritten (h.sound _) hfirst.toWithin fun c hc hc' =>
          h.cells c (Registry.mem_cells_of_cellsOf hc') hc]
      norms := by rw [hfirst.states _ hys (Ne.symm h.states), h.norms] }
  have hafter := (h.perform_paired hσ s t₁ hbefore).1
  -- and the call for the second one leaves the first one
  have hsecond := perform_inside y hfirst.sound hy
  have hpars := pars_kept h.first hfirst.toGrows
  set t₂ := ((τ.perform (.model (.decay y))).outcome t₁).2
  refine ⟨h.kept hafter.second (fun n => ?_) ?_, hafter.second.toGrows⟩
  · have hkept : t₂.content? (t₁.registry x.head.pars) n =
        t₁.content? (t₁.registry x.head.pars) n := by
      refine Store.content?_unwritten (hfirst.sound _) hsecond.toWithin (fun c hc hc' => ?_) n
      rw [pars_kept h.second hfirst.toGrows] at hc'
      exact h.cells c (hpars ▸ hc) (Registry.mem_cells_of_cellsOf hc')
    rw [hpars] at hkept
    exact hkept.trans (hafter.contents n)
  · show (t₂.state x.state).norm = (t₂.state y.state).norm
    rw [hsecond.states _ (hxs.trans_le hfirst.moreStates) h.states]
    exact hafter.norms

/-- **So do any calls.** -/
theorem afterCalls_twins (calls : List (Setter α × Setter α))
    (hcalls : ∀ call ∈ calls,
      call.1.SameFor s (s.registry x.head.pars) (s.registry y.head.pars) call.2) :
    Twins (afterCalls x y calls s) x y := by
  induction calls generalizing s with
  | nil => exact h
  | cons call calls ih =>
    rw [List.forall_mem_cons] at hcalls
    obtain ⟨htwins, hgrows⟩ := h.afterCall_twins hcalls.1
    refine ih htwins fun later hlater => ?_
    rw [pars_kept h.first hgrows, pars_kept h.second hgrows]
    exact (hcalls.2 later hlater).grows hgrows

end Twins

end Decay

end DensityAlgebra
