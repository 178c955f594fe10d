/-
# Auxiliary functions commute

A decay density times two functions, first in the one order of the functions and then in the
other: where products are exact and the functions have no parameter name in common, the two
products have the same names, contents and normalization, and the same values at all points.
The second product shares no cell with the first one. So the two stay the same whatever calls set
the parameters of both to the same values.

Key theorems: `Decay.JoinsBoth.twins`, `Session.weights_commute`.
-/
import DensityAlgebra.Proofs.Lockstep

namespace DensityAlgebra

variable {α : Type} [Scalar α]

namespace Decay

variable {s t u : Store α} {d x y : Decay α} {f g : Weight α}

/-- **The products in the two orders are twins**, if the functions have no name of a parameter in
common. -/
theorem JoinsBoth.twins (hα : Scalar.ExactProducts α) (ht : t.Sound) (htu : t.Apart u)
    (hx : JoinsBoth s t d f g x) (hy : JoinsBoth s u d g f y) (hbuilt : (Model.decay y).Built t u)
    (hdisjoint : (s.registry f.pars).names.Disjoint (s.registry g.pars).names)
    (hnorms : (t.state x.state).norm = (u.state y.state).norm) : Twins u x y := by
  have hpars := pars_kept hx.valid htu.toGrows
  have hstate : x.state.index < t.states.size := hx.valid.states _ (List.mem_singleton_self _)
  have hnew : t.states.size ≤ y.state.index := hbuilt.states _ (List.mem_singleton_self _)
  exact
    { sound := htu.sound
      first := hx.valid.grows htu.toGrows
      second := hy.valid
      cells := fun c hcx hcy => by
        obtain ⟨n, hn⟩ := Registry.exists_find?_of_mem_cells (htu.sound _).distinct hcx
        obtain ⟨m, hm⟩ := Registry.exists_find?_of_mem_cells (htu.sound _).distinct hcy
        rw [hpars] at hn
        -- the second product has new cells
        have hold := (ht _).find?_bounded hn
        have hfresh : t.cells.size ≤ c.index :=
          htu.detached _ (hbuilt.registries _ y.head_pars_mem) _ (Registry.mem_entries_of_find? hm)
        omega
      states := fun he => by
        rw [← he] at hnew
        omega
      space := hx.space.trans hy.space.symm
      resolution := by rw [htu.resolutions _ hstate, hx.resolution, hy.resolution]
      interchangeable := fun t' u' ht' hu' => hx.interchangeable hy hα t' u'
        (fun r hr => (ht' r hr).trans (htu.registries r (hx.valid.linked.bounded r hr))) hu'
      contents := fun n => by
        rw [hpars, Store.content?_within (ht _) htu.toWithin, hx.contents_eq hy hdisjoint]
      norms := by rw [htu.states _ hstate (Set.notMem_empty _), hnorms] }

end Decay

/-- **Auxiliary functions commute**, in every session where products are exact. A decay density
times `f` and then `g`, and the density times `g` and then `f`, for functions that the density
takes and that have no name of a parameter in common: either both fail, or both are there and
have the same names, values, errors, stored integral, and values at every point. This stays so
whatever calls set the parameters of the one and of the other to the same values. -/
theorem Session.weights_commute (hα : Scalar.ExactProducts α) {calls : List (Call α)}
    {d : Decay α} {f g : Weight α}
    (hd : .density (.model (.decay d)) ∈ (after calls).objects)
    (hf : .weight f ∈ (after calls).objects) (hg : .weight g ∈ (after calls).objects)
    (hdisjoint : ((after calls).store.registry f.pars).names.Disjoint
      ((after calls).store.registry g.pars).names)
    {p q : Decay α} {t₁ t u₁ u : Store α} {rx ry : Except (Fault α) (Decay α)}
    (hp : (d.withWeight f).outcome (after calls).store = (.ok p, t₁))
    (hx : (p.withWeight g).outcome t₁ = (rx, t))
    (hq : (d.withWeight g).outcome t = (.ok q, u₁))
    (hy : (q.withWeight f).outcome u₁ = (ry, u)) :
    (∃ e e', rx = .error e ∧ ry = .error e') ∨
    ∃ x y, rx = .ok x ∧ ry = .ok y ∧ ∀ setters : List (Setter α × Setter α),
      (∀ call ∈ setters,
        call.1.SameFor u (u.registry x.head.pars) (u.registry y.head.pars) call.2) →
      Decay.Indistinct (Decay.afterCalls x y setters u) x y := by
  obtain ⟨hs, hobjects⟩ := after_valid calls
  have hdv : (Model.decay d).Valid (after calls).store := hobjects _ hd
  have hfv : f.Valid (after calls).store := hobjects _ hf
  have hgv : g.Valid (after calls).store := hobjects _ hg
  -- the first product, which may fail at its second step
  obtain ⟨hst₁, hpb⟩ := (Decay.withWeight_spec (Store.Apart.refl hs) hdv hfv).ok hp
  have hsecond := Decay.withWeight_spec hst₁ hpb.valid (hgv.grows hst₁.toGrows)
  have hst : (after calls).store.Apart t := by
    cases rx with
    | error e => exact hsecond.error hx
    | ok x => exact (hsecond.ok hx).1
  -- the second product, which is new to the store after the first one
  obtain ⟨htu₁, hqb⟩ := (Decay.withWeight_spec (Store.Apart.refl hst.sound)
    (hdv.grows hst.toGrows) (hgv.grows hst.toGrows)).ok hq
  have hbuilt := Decay.withWeight_spec htu₁ hqb.valid (hfv.grows (hst.trans htu₁).toGrows)
  rcases Decay.withWeight_either hα hs hdv hfv hgv hdisjoint hst.toExtends hp hq with
    ⟨⟨e, t', he⟩, e', u', he'⟩ | ⟨x, t', y, u', hx', hy', hxj, hyj, hnorms⟩
  · exact .inl ⟨e, e', (Prod.mk.inj (hx.symm.trans he)).1, (Prod.mk.inj (hy.symm.trans he')).1⟩
  · obtain ⟨rfl, rfl⟩ := Prod.mk.inj (hx.symm.trans hx')
    obtain ⟨rfl, rfl⟩ := Prod.mk.inj (hy.symm.trans hy')
    obtain ⟨htu, hyb⟩ := hbuilt.ok hy
    have htwins := hxj.twins hα hst.sound htu hyj hyb hdisjoint hnorms
    exact .inr ⟨x, y, rfl, rfl, fun setters hsetters =>
      (htwins.afterCalls_twins setters hsetters).indistinct⟩

namespace Sample

/-- Products of rational numbers are exact. -/
theorem exactProducts : Scalar.ExactProducts ℚ where
  assoc := mul_assoc
  comm := mul_comm

/-- A decay density with a parameter called a of value 2, a function of a parameter of that name,
of value 1, and a function of a parameter called b of value 3. -/
def weighingTwice : List (Call ℚ) :=
  weighing ++ [.cell ⟨.parameter, "b", .scalar 3, .scalar 0⟩,
    .weight "scale" [⟨"b", .positionalOrNamed⟩] (.argument "b") [] [14]]

/-- The products with two functions, first in the one order and then in the other. -/
def bothOrders (d : Decay ℚ) (f g : Weight ℚ) : Run ℚ (Decay ℚ × Decay ℚ) := do
  let p ← d.withWeight f
  let x ← p.withWeight g
  let q ← d.withWeight g
  let y ← q.withWeight f
  return (x, y)

theorem bothOrders_eq_ok {d x y : Decay ℚ} {f g : Weight ℚ} {s u : Store ℚ}
    (h : (bothOrders d f g).outcome s = (.ok (x, y), u)) : ∃ p q t₁ t u₁,
      (d.withWeight f).outcome s = (.ok p, t₁) ∧ (p.withWeight g).outcome t₁ = (.ok x, t) ∧
      (d.withWeight g).outcome t = (.ok q, u₁) ∧ (q.withWeight f).outcome u₁ = (.ok y, u) := by
  obtain ⟨p, t₁, hp, hrest⟩ := Run.outcome_bind_eq_ok h
  obtain ⟨x', t, hx, hrest⟩ := Run.outcome_bind_eq_ok hrest
  obtain ⟨q, u₁, hq, hrest⟩ := Run.outcome_bind_eq_ok hrest
  obtain ⟨y', u', hy, hrest⟩ := Run.outcome_bind_eq_ok hrest
  obtain ⟨⟨rfl, rfl⟩, rfl⟩ : (x' = x ∧ y' = y) ∧ u' = u := by
    simpa using hrest
  exact ⟨p, q, t₁, t, u₁, hp, hx, hq, hy⟩

/-- One parameter is set to 2, and the other one to what the first one has. -/
def settings (c c' : CellId) : List (Setter ℚ × Setter ℚ) :=
  [(.setPar "a" (.scalar 2) (.scalar 0), .setPar "a" (.scalar 2) (.scalar 0)),
    (.setPars (.mapping [("b", .cell c)]), .setPars (.mapping [("b", .cell c')]))]

theorem settings_same {b : Store ℚ} {p q : Registry} {c c' : CellId} (hc : p.find? "a" = some c)
    (hc' : q.find? "a" = some c') : ∀ call ∈ settings c c', call.1.SameFor b p q call.2 :=
  List.forall_mem_cons.mpr ⟨.setPar .., List.forall_mem_singleton.mpr
    (.setPars (.mapping (.cons ⟨rfl, .own hc hc'⟩ .nil)))⟩

/-- One parameter is set to what a cell has, and the other one to 5. -/
def exchange (c : CellId) : Setter ℚ :=
  .setPars (.mapping [("a", .cell c), ("b", .raw (.scalar 5))])

/-- The density and the functions, their products in the two orders, and the store where these
are. -/
def weighedTwice :
    Except (Fault ℚ) ((Decay ℚ × Weight ℚ × Weight ℚ) × (Decay ℚ × Decay ℚ) × Store ℚ) := do
  let s := (Session.after weighingTwice).store
  let d ← Held.decay (Session.after weighingTwice).objects 10
  let f ← Held.weight (Session.after weighingTwice).objects 13
  let g ← Held.weight (Session.after weighingTwice).objects 15
  let xy ← ((bothOrders d f g).outcome s).1
  return ((d, f, g), xy, ((bothOrders d f g).outcome s).2)

theorem weighedTwice_eq_ok {d x y : Decay ℚ} {f g : Weight ℚ} {u : Store ℚ}
    (h : weighedTwice = .ok ((d, f, g), (x, y), u)) :
    .density (.model (.decay d)) ∈ (Session.after weighingTwice).objects ∧
      .weight f ∈ (Session.after weighingTwice).objects ∧
      .weight g ∈ (Session.after weighingTwice).objects ∧
      (bothOrders d f g).outcome (Session.after weighingTwice).store = (.ok (x, y), u) := by
  obtain ⟨d', hd, h⟩ := bind_eq_ok_iff.mp h
  obtain ⟨f', hf, h⟩ := bind_eq_ok_iff.mp h
  obtain ⟨g', hg, h⟩ := bind_eq_ok_iff.mp h
  obtain ⟨xy, hxy, h⟩ := bind_eq_ok_iff.mp h
  rcases hrun : (bothOrders d' f' g').outcome (Session.after weighingTwice).store with ⟨r, v⟩
  rw [hrun] at hxy h
  obtain ⟨⟨rfl, rfl, rfl⟩, rfl, rfl⟩ : (d' = d ∧ f' = f ∧ g' = g) ∧ xy = (x, y) ∧ v = u := by
    simpa only [pure, Except.pure, Except.ok.injEq, Prod.mk.injEq] using h
  obtain rfl : r = .ok (x, y) := hxy
  exact ⟨List.mem_of_getElem? (Held.decay_eq_ok hd), List.mem_of_getElem? (Held.weight_eq_ok hf),
    List.mem_of_getElem? (Held.weight_eq_ok hg), hrun⟩

/-- What is computed of the session: the parameters of both products, the integral that both
store, what the first one stores after the settings, and what both store after the exchange. -/
theorem weighedTwice_made : ∃ d f g x y u, weighedTwice = .ok ((d, f, g), (x, y), u) ∧
    ((Session.after weighingTwice).store.registry f.pars).names = ["a"] ∧
    ((Session.after weighingTwice).store.registry g.pars).names = ["b"] ∧
    u.registry x.head.pars = ⟨[("a", ⟨23⟩), ("b", ⟨24⟩)]⟩ ∧
    u.registry y.head.pars = ⟨[("a", ⟨35⟩), ("b", ⟨34⟩)]⟩ ∧ (u.state x.state).norm = 5184 ∧
    ((Decay.afterCalls x y (settings ⟨23⟩ ⟨35⟩) u).state x.state).norm = 13824 ∧
    ((Decay.afterCalls x y [(exchange ⟨24⟩, exchange ⟨24⟩)] u).state x.state).norm = 77760 ∧
    ((Decay.afterCalls x y [(exchange ⟨24⟩, exchange ⟨24⟩)] u).state y.state).norm = 216000 := by
  have hmade : ∃ r ∈ weighedTwice.toOption,
      ((Session.after weighingTwice).store.registry r.1.2.1.pars).names = ["a"] ∧
      ((Session.after weighingTwice).store.registry r.1.2.2.pars).names = ["b"] ∧
      r.2.2.registry r.2.1.1.head.pars = ⟨[("a", ⟨23⟩), ("b", ⟨24⟩)]⟩ ∧
      r.2.2.registry r.2.1.2.head.pars = ⟨[("a", ⟨35⟩), ("b", ⟨34⟩)]⟩ ∧
      (r.2.2.state r.2.1.1.state).norm = 5184 ∧
      ((Decay.afterCalls r.2.1.1 r.2.1.2 (settings ⟨23⟩ ⟨35⟩) r.2.2).state r.2.1.1.state).norm =
        13824 ∧
      ((Decay.afterCalls r.2.1.1 r.2.1.2 [(exchange ⟨24⟩, exchange ⟨24⟩)] r.2.2).state
        r.2.1.1.state).norm = 77760 ∧
      ((Decay.afterCalls r.2.1.1 r.2.1.2 [(exchange ⟨24⟩, exchange ⟨24⟩)] r.2.2).state
        r.2.1.2.state).norm = 216000 := by
    decide +kernel
  obtain ⟨⟨⟨d, f, g⟩, ⟨x, y⟩, u⟩, hr, hfacts⟩ := hmade
  exact ⟨d, f, g, x, y, u, eq_ok_of_toOption hr, hfacts⟩

end Sample

namespace Session

/-- Both products store 5184 at first, and 13824 after their parameters were set, one of them to
what the other one has. -/
theorem weights_commute_weighing : ∃ d f g p x q y t₁ t u₁ u,
    .density (.model (.decay d)) ∈ (after Sample.weighingTwice).objects ∧
    .weight f ∈ (after Sample.weighingTwice).objects ∧
    .weight g ∈ (after Sample.weighingTwice).objects ∧
    ((after Sample.weighingTwice).store.registry f.pars).names.Disjoint
      ((after Sample.weighingTwice).store.registry g.pars).names ∧
    (d.withWeight f).outcome (after Sample.weighingTwice).store = (.ok p, t₁) ∧
    (p.withWeight g).outcome t₁ = (.ok x, t) ∧ (d.withWeight g).outcome t = (.ok q, u₁) ∧
    (q.withWeight f).outcome u₁ = (.ok y, u) ∧ (u.state x.state).norm = 5184 ∧
    ((Decay.afterCalls x y (Sample.settings ⟨23⟩ ⟨35⟩) u).state x.state).norm = 13824 ∧
    Decay.Indistinct (Decay.afterCalls x y (Sample.settings ⟨23⟩ ⟨35⟩) u) x y := by
  obtain ⟨d, f, g, x, y, u, hmade, hf, hg, hxpars, hypars, hnorm, hlast, -⟩ :=
    Sample.weighedTwice_made
  obtain ⟨hmemd, hmemf, hmemg, hrun⟩ := Sample.weighedTwice_eq_ok hmade
  obtain ⟨p, q, t₁, t, u₁, hp, hx, hq, hy⟩ := Sample.bothOrders_eq_ok hrun
  have hdisjoint : ((after Sample.weighingTwice).store.registry f.pars).names.Disjoint
      ((after Sample.weighingTwice).store.registry g.pars).names := by
    rw [hf, hg]
    simp
  refine ⟨d, f, g, p, x, q, y, t₁, t, u₁, u, hmemd, hmemf, hmemg, hdisjoint, hp, hx, hq, hy,
    hnorm, hlast, ?_⟩
  rcases weights_commute Sample.exactProducts hmemd hmemf hmemg hdisjoint hp hx hq hy with
    ⟨e, -, he, -⟩ | ⟨x', y', hxok, hyok, hindistinct⟩
  · cases he
  · obtain rfl := Except.ok.inj hxok
    obtain rfl := Except.ok.inj hyok
    refine hindistinct _ (Sample.settings_same ?_ ?_)
    · rw [hxpars]
      rfl
    · rw [hypars]
      rfl

/-- A parameter of the first product that is handed over to both is read after the call for the
first one has set it. -/
theorem weights_not_commute_of_shared : ¬ ∀ (calls : List (Call ℚ)) (d : Decay ℚ) (f g : Weight ℚ),
    .density (.model (.decay d)) ∈ (after calls).objects →
    .weight f ∈ (after calls).objects → .weight g ∈ (after calls).objects →
    ((after calls).store.registry f.pars).names.Disjoint
      ((after calls).store.registry g.pars).names →
    ∀ (p x q y : Decay ℚ) (t₁ t u₁ u : Store ℚ),
      (d.withWeight f).outcome (after calls).store = (.ok p, t₁) →
      (p.withWeight g).outcome t₁ = (.ok x, t) → (d.withWeight g).outcome t = (.ok q, u₁) →
      (q.withWeight f).outcome u₁ = (.ok y, u) →
      ∀ setters : List (Setter ℚ), (∀ σ ∈ setters, σ.setsPars = true) →
        Decay.Indistinct (Decay.afterCalls x y (setters.map fun σ => (σ, σ)) u) x y := by
  intro hall
  obtain ⟨d, f, g, x, y, u, hmade, hf, hg, -, -, -, -, hxlast, hylast⟩ := Sample.weighedTwice_made
  obtain ⟨hmemd, hmemf, hmemg, hrun⟩ := Sample.weighedTwice_eq_ok hmade
  obtain ⟨p, q, t₁, t, u₁, hp, hx, hq, hy⟩ := Sample.bothOrders_eq_ok hrun
  have hsame := hall Sample.weighingTwice d f g hmemd hmemf hmemg (by rw [hf, hg]; simp) p x q y
    t₁ t u₁ u hp hx hq hy [Sample.exchange ⟨24⟩] (List.forall_mem_singleton.mpr rfl)
  have hnorms : (77760 : ℚ) = 216000 := hxlast.symm.trans (hsame.norms.trans hylast)
  exact absurd hnorms (by decide)

end Session

end DensityAlgebra
