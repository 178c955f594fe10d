/-
# Two functions in either order

A decay density times a function has copies of their parts, with the names that these have, and
all parts hold the cells of its head: under a name of the function the function's content, and
else the density's. So the product of the product with a second function has the parts of all
three. If the two functions have no name of a parameter in common, it does not matter which one
came first for what is under the names, and only the order of the weight functions differs.

What such a density comes to depends on what is under its names only: where products are exact,
the two are one function of their parameters.

Key definitions: `Weight.Namesake`, `Decay.Assembled`, `Decay.Joins`, `Decay.JoinsBoth`,
`Decay.Interchangeable`.
Key theorems: `Decay.Copying.joins`, `Decay.withWeight_joins`, `Decay.Joins.both`,
`Decay.Assembled.intensity_toOption`, `Decay.JoinsBoth.interchangeable`,
`Decay.withWeight_either`.
-/
import DensityAlgebra.Proofs.Inheriting
import DensityAlgebra.Proofs.Multiplying
import DensityAlgebra.Proofs.Permuting

namespace DensityAlgebra

variable {α : Type}

/-! ### Parts with the same names -/

/-- A function with the formula and the names of another one. -/
structure Weight.Namesake (s t : Store α) (w v : Weight α) : Prop where
  body : w.body = v.body
  vars : (s.registry w.vars).names = (t.registry v.vars).names
  pars : (s.registry w.pars).names = (t.registry v.pars).names

theorem Weight.Namesake.trans {s t u : Store α} {w v x : Weight α} (h : w.Namesake s t v)
    (h' : v.Namesake t u x) : w.Namesake s u x :=
  ⟨h.body.trans h'.body, h.vars.trans h'.vars, h.pars.trans h'.pars⟩

theorem Weight.Namesake.kept [Scalar α] {s t : Store α} {w : Weight α} (h : s.Grows t)
    (hw : ∀ r ∈ w.registries, r.index < s.registries.size) : w.Namesake s t w :=
  ⟨rfl, by rw [h.registries _ (hw _ w.vars_mem)], by rw [h.registries _ (hw _ w.pars_mem)]⟩

/-- An amplitude with the nodes of another one, and with their names. -/
def Amplitude.Namesake (s t : Store α) (a b : Amplitude α) : Prop :=
  ∃ φ, b = a.rename φ ∧ ∀ r ∈ a.registries, (t.registry (φ r)).names = (s.registry r).names

theorem Amplitude.Namesake.trans {s t u : Store α} {a b c : Amplitude α} (h : a.Namesake s t b)
    (h' : b.Namesake t u c) : a.Namesake s u c := by
  obtain ⟨φ, rfl, hφ⟩ := h
  obtain ⟨ψ, rfl, hψ⟩ := h'
  refine ⟨ψ ∘ φ, a.rename_rename φ ψ, fun r hr => (hψ (φ r) ?_).trans (hφ r hr)⟩
  rw [Amplitude.registries_rename]
  exact List.mem_map_of_mem hr

theorem Amplitude.Namesake.kept [Scalar α] {s t : Store α} {a : Amplitude α} (h : s.Grows t)
    (ha : ∀ r ∈ a.registries, r.index < s.registries.size) : a.Namesake s t a :=
  ⟨id, a.rename_id.symm, fun r hr => congrArg Registry.names (h.registries r (ha r hr))⟩

/-- What is under a name has the value that is part of the content. -/
theorem Store.value?_eq_content? [Scalar α] (s : Store α) (r : RegistryId) (n : String) :
    s.value? r n = (s.content? (s.registry r) n).map (·.1) := by
  unfold Store.value? Store.content?
  rw [Option.map_map]
  rfl

namespace Decay

/-- The density `x` has this amplitude and these functions of the store `s`, over cells of its
own: all parts hold the cells of its head. -/
structure Assembled (s t : Store α) (a : Amplitude α) (ws : List (Weight α)) (x : Decay α) :
    Prop where
  amplitude : a.Namesake s t x.amplitude
  weights : List.Forall₂ (Weight.Namesake s t) ws x.weights
  nodes : ∀ r ∈ x.amplitude.registries, (t.registry r).Under (t.registry x.head.pars)
  pars : ∀ v ∈ x.weights, (t.registry v.pars).Under (t.registry x.head.pars)
  covered : ∀ v ∈ x.weights, (t.registry v.vars).names ⊆ x.roles

namespace Assembled

variable {s t t' : Store α} {a : Amplitude α} {vs ws : List (Weight α)} {x y : Decay α}

/-- The registries of the density are all that is looked at. -/
theorem congr (h : Assembled s t a ws x)
    (heq : ∀ r ∈ (Model.decay x).registries, t'.registry r = t.registry r) :
    Assembled s t' a ws x := by
  have hhead := heq _ x.head_pars_mem
  have hnode : ∀ r ∈ x.amplitude.registries, t'.registry r = t.registry r := fun r hr =>
    heq r (Model.amplitude_subset x hr)
  have hvars : ∀ v ∈ x.weights, t'.registry v.vars = t.registry v.vars := fun v hv =>
    heq _ ((Model.decay x).varRegistries_subset
      ((Model.decay x).partVars_subset (List.mem_map_of_mem hv)))
  have hpars : ∀ v ∈ x.weights, t'.registry v.pars = t.registry v.pars := fun v hv =>
    heq _ ((Model.decay x).parRegistries_subset
      ((Model.decay x).partPars_subset (List.mem_append_right _ (List.mem_map_of_mem hv))))
  refine ⟨?_, ?_, fun r hr => ?_, fun v hv => ?_, fun v hv => ?_⟩
  · obtain ⟨φ, hφ, hnames⟩ := h.amplitude
    refine ⟨φ, hφ, fun r hr => ?_⟩
    rw [hnode, hnames r hr]
    rw [hφ, Amplitude.registries_rename]
    exact List.mem_map_of_mem hr
  · refine forall₂_of_mem h.weights fun w _ v hv hw => ⟨hw.body, ?_, ?_⟩
    · rw [hvars v hv, hw.vars]
    · rw [hpars v hv, hw.pars]
  · rw [hnode r hr, hhead]
    exact h.nodes r hr
  · rw [hpars v hv, hhead]
    exact h.pars v hv
  · rw [hvars v hv]
    exact h.covered v hv

variable [Scalar α]

/-- The parts were the same in an earlier store. -/
theorem before {b : Store α} (h : Assembled s t a ws x) (hbs : b.Grows s)
    (ha : ∀ r ∈ a.registries, r.index < b.registries.size)
    (hws : ∀ w ∈ ws, ∀ r ∈ w.registries, r.index < b.registries.size) : Assembled b t a ws x :=
  { h with
    amplitude := (Amplitude.Namesake.kept hbs ha).trans h.amplitude
    weights := forall₂_of_mem h.weights fun w hw _ _ hv =>
      (Weight.Namesake.kept hbs (hws w hw)).trans hv }

/-- What is under a name of a part is under it in the head. -/
theorem value?_part {r p q h h' : RegistryId} {b : Store α} (n : String)
    (hr : (t.registry r).names = (b.registry p).names)
    (hq : (t'.registry q).names = (b.registry p).names)
    (hunder : (t.registry r).Under (t.registry h))
    (hunder' : (t'.registry q).Under (t'.registry h'))
    (hvalues : t.value? h n = t'.value? h' n) : t.value? r n = t'.value? q n := by
  by_cases hn : n ∈ (b.registry p).names
  · rw [Store.value?_eq_of_under hunder (hr ▸ hn), Store.value?_eq_of_under hunder' (hq ▸ hn),
      hvalues]
  · rw [Store.value?_of_not_mem (hr ▸ hn), Store.value?_of_not_mem (hq ▸ hn)]

/-- Two densities of the same parts have one intensity where they have the same values. -/
theorem intensity_eq (hx : Assembled s t a ws x) (hy : Assembled s t' a ws y)
    (hroles : x.roles = y.roles) (hvalues : ∀ n, t.value? x.head.pars n = t'.value? y.head.pars n)
    (m12 m13 m23 : Given α) : x.intensity t m12 m13 m23 = y.intensity t' m12 m13 m23 := by
  obtain ⟨φ, hφ, hnames⟩ := hx.amplitude
  obtain ⟨ψ, hψ, hnames'⟩ := hy.amplitude
  refine intensity_of_parts hroles (fun _ _ _ => ?_) ?_ hx.covered m12 m13 m23
  · rw [hφ, hψ]
    refine Amplitude.evaluate_congr _ _ _ a fun r hr n => ?_
    have hmem : φ r ∈ x.amplitude.registries := by
      rw [hφ, Amplitude.registries_rename]
      exact List.mem_map_of_mem hr
    have hmem' : ψ r ∈ y.amplitude.registries := by
      rw [hψ, Amplitude.registries_rename]
      exact List.mem_map_of_mem hr
    exact value?_part n (hnames r hr) (hnames' r hr) (hx.nodes _ hmem) (hy.nodes _ hmem')
      (hvalues n)
  · refine forall₂_of_mem (forall₂_through hx.weights hy.weights) ?_
    rintro v hv v' hv' ⟨w, -, hw, hw'⟩
    refine ⟨hw.body.symm.trans hw'.body, hw.vars.symm.trans hw'.vars, fun n => ?_⟩
    exact value?_part n hw.pars.symm hw'.pars.symm (hx.pars v hv) (hy.pars v' hv') (hvalues n)

/-- **The order of the functions does not matter** for the intensity, where products are
exact. -/
theorem intensity_toOption (hα : Scalar.ExactProducts α) (hx : Assembled s t a vs x)
    (hy : Assembled s t' a ws y) (hperm : vs.Perm ws) (hroles : x.roles = y.roles)
    (hvalues : ∀ n, t.value? x.head.pars n = t'.value? y.head.pars n) (m12 m13 m23 : Given α) :
    (x.intensity t m12 m13 m23).toOption = (y.intensity t' m12 m13 m23).toOption := by
  obtain ⟨us, hus, hback⟩ := List.perm_comp_forall₂ hperm hy.weights
  have hordered : Assembled s t' a vs { y with weights := us } :=
    ⟨hy.amplitude, hus, hy.nodes, fun v hv => hy.pars v (hback.mem_iff.mp hv),
      fun v hv => hy.covered v (hback.mem_iff.mp hv)⟩
  rw [hx.intensity_eq hordered hroles hvalues, intensity_perm hα t' y hback]

end Assembled

variable [Scalar α]

/-! ### One product -/

/-- What the product `out` of a density and a function is made of, and what is under its
names. -/
structure Joins (s t : Store α) (d : Decay α) (w : Weight α) (out : Decay α) : Prop where
  valid : (Model.decay out).Valid t
  amplitude : d.amplitude.Namesake s t out.amplitude
  weights : List.Forall₂ (Weight.Namesake s t) (d.weights ++ [w]) out.weights
  roles : out.roles = d.roles
  space : out.space = d.space
  resolution : (t.state out.state).resolution = (s.state d.state).resolution
  contents : ∀ n, t.content? (t.registry out.head.pars) n =
    (s.content? (s.registry w.pars) n).or (s.content? (s.registry d.head.pars) n)

section

variable {s s₁ s₂ t : Store α} {d : Decay α} {w : Weight α} {f f' : RegistryId → RegistryId}
  {g g' : CellId → CellId} {state : StateId}

/-- **What was copied and rejoined is joined.** -/
theorem Copying.joins (h : Copying s s₁ s₂ d w f f' g g' state) (source : SourceId)
    (hcells : t.cells = (rejoined s₂ (d.moved f state source) (w.rename f')).cells)
    (hregistries : t.registries = (rejoined s₂ (d.moved f state source) (w.rename f')).registries)
    (hstates : (rejoined s₂ (d.moved f state source) (w.rename f')).states.size ≤ t.states.size)
    (hresolution : (t.state state).resolution = (s.state d.state).resolution) :
    Joins s t d w ((d.moved f state source).weighted (w.rename f')) := by
  set u := rejoined s₂ (d.moved f state source) (w.rename f') with hu
  have hregistry : ∀ r, t.registry r = u.registry r := Store.registry_congr hregistries
  have hcell : ∀ c, t.cell c = s₂.cell c := fun c =>
    (Store.cell_congr hcells c).trans (cell_rejoined s₂ (d.moved f state source) (w.rename f') c)
  have hpart : ∀ {r}, r ∈ (Model.decay d).registries → r ≠ d.head.pars →
      (t.registry (f r)).names = (s.registry r).names := fun hr hne =>
    (congrArg Registry.names (hregistry _)).trans (h.names_part source hr hne)
  have hweight : ∀ {r}, r ∈ w.registries →
      (t.registry (f' r)).names = (s.registry r).names := fun hr =>
    (congrArg Registry.names (hregistry _)).trans (h.names_weight source hr)
  have hnode : ∀ r ∈ d.amplitude.registries, r ≠ d.head.pars := fun r hr he =>
    h.valid.linked.parHead (List.mem_append_left _ (he ▸ hr))
  refine
    { valid := (weighted_valid (h.ready source)).of_registries
        (le_of_eq (congrArg Array.size hregistries.symm)) hstates
        fun r _ => hregistry r
      amplitude := ⟨f, rfl, fun r hr => hpart (Model.amplitude_subset d hr) (hnode r hr)⟩
      weights := List.rel_append ?_ (.cons ⟨rfl, (hweight w.vars_mem).symm,
        (hweight w.pars_mem).symm⟩ .nil)
      roles := rfl
      space := rfl
      resolution := hresolution
      contents := fun n => ?_ }
  · refine List.forall₂_map_right_iff.mpr (List.forall₂_same.mpr fun v hv => ⟨rfl, ?_, ?_⟩)
    · have hmem := (Model.decay d).partVars_subset (List.mem_map_of_mem hv)
      exact (hpart ((Model.decay d).varRegistries_subset hmem) fun he =>
        h.valid.linked.kinds _ hmem (he ▸ (Model.decay d).head_pars_mem)).symm
    · have hmem : v.pars ∈ (Model.decay d).partPars :=
        List.mem_append_right _ (List.mem_map_of_mem hv)
      exact (hpart ((Model.decay d).parRegistries_subset ((Model.decay d).partPars_subset hmem))
        fun he => h.valid.linked.parHead (he ▸ hmem)).symm
  · have hfind := (congrArg (Registry.find? · n) (hregistry _)).trans (h.find?_head source n)
    show ((t.registry (f d.head.pars)).find? n).map _ = _
    rw [show (t.registry (f d.head.pars)).find? n = _ from hfind]
    unfold Store.content?
    cases hcw : (s.registry w.pars).find? n with
    | some c => simp [hcell, h.cell_weight hcw]
    | none =>
      cases hcd : (s.registry d.head.pars).find? n with
      | some c => simp [hcell, h.cell_density d.head_pars_mem hcd]
      | none => rfl

/-- **A density times a function** joins the two, and stores its integral if that is there: only
this may fail if the density declares the function's variables. -/
theorem withWeight_joins (hs : s.Sound) (hd : (Model.decay d).Valid s) (hw : w.Valid s)
    (hvars : ∀ n ∈ (s.registry w.vars).names, n ∈ (s.registry d.head.vars).names) :
    ∃ out u, Joins s u d w out ∧
      (∀ e, out.integral u = .error e → ∃ t, (d.withWeight w).outcome s = (.error e, t)) ∧
      ∀ norm, out.integral u = .ok norm → ∃ t, (d.withWeight w).outcome s = (.ok out, t) ∧
        Joins s t d w out ∧ (t.state out.state).norm = norm := by
  obtain ⟨s₁, s₂, f, f', g, g', state, source, h, hstate, hfails, hmakes⟩ :=
    withWeight_stores hs hd hw hvars
  refine ⟨_, _, h.joins source rfl rfl le_rfl (by rw [hstate]), fun e he => ⟨_, hfails e he⟩,
    fun norm hnorm => ?_⟩
  obtain ⟨t, hrun, hcells, hregistries, hstates, hstored⟩ := hmakes norm hnorm
  refine ⟨t, hrun, h.joins source hcells hregistries hstates (by rw [hstored]), ?_⟩
  show (t.state state).norm = norm
  rw [hstored]

/-- What was made of a density and a function joins the two. -/
theorem joins_of_outcome {out : Decay α} (hs : s.Sound) (hd : (Model.decay d).Valid s)
    (hw : w.Valid s) (h : (d.withWeight w).outcome s = (.ok out, t)) :
    Joins s t d w out ∧ ∀ n ∈ (s.registry w.vars).names, n ∈ (s.registry d.head.vars).names := by
  have hvars : ∀ n ∈ (s.registry w.vars).names, n ∈ (s.registry d.head.vars).names := by
    obtain ⟨⟨⟩, hcheck, -⟩ := Run.outcome_reading_bind_eq_ok h
    exact fun n hn => names_of_checkDeclares hcheck n (Registry.mem_sortNames.mpr hn)
  obtain ⟨out', u, -, hfails, hmakes⟩ := withWeight_joins hs hd hw hvars
  cases hnorm : out'.integral u with
  | error e =>
    obtain ⟨t', ht'⟩ := hfails e hnorm
    cases (Prod.mk.inj (h.symm.trans ht')).1
  | ok norm =>
    obtain ⟨t', ht', hjoins, -⟩ := hmakes norm hnorm
    obtain ⟨hout, rfl⟩ := Prod.mk.inj (h.symm.trans ht')
    obtain rfl := Except.ok.inj hout
    exact ⟨hjoins, hvars⟩

end

/-! ### Two products -/

/-- What the product `x` with two functions, first `f` and then `g`, is made of, and what is
under its names. -/
structure JoinsBoth (s t : Store α) (d : Decay α) (f g : Weight α) (x : Decay α) : Prop where
  valid : (Model.decay x).Valid t
  assembled : Assembled s t d.amplitude (d.weights ++ [f] ++ [g]) x
  roles : x.roles = d.roles
  space : x.space = d.space
  resolution : (t.state x.state).resolution = (s.state d.state).resolution
  contents : ∀ n, t.content? (t.registry x.head.pars) n =
    (s.content? (s.registry g.pars) n).or ((s.content? (s.registry f.pars) n).or
      (s.content? (s.registry d.head.pars) n))

section

variable {s t₁ t u u₁ : Store α} {d p q x y : Decay α} {f g : Weight α}

/-- **A product that is joined to a second function** joins both. -/
theorem Joins.both (h : Joins s t₁ d f p) (h' : Joins t₁ t p g x) (hs : s.Sound) (hg : g.Valid s)
    (hin : Store.Within ∅ ∅ s t₁) : JoinsBoth s t d f g x where
  valid := h'.valid
  assembled :=
    { amplitude := h.amplitude.trans h'.amplitude
      weights := by
        have hfirst : List.Forall₂ (Weight.Namesake s t₁) (d.weights ++ [f] ++ [g])
            (p.weights ++ [g]) :=
          List.rel_append h.weights (.cons (Weight.Namesake.kept hin.toGrows hg.bounded) .nil)
        refine (forall₂_through hfirst.flip h'.weights).imp ?_
        rintro v w ⟨k, -, hvk, hkw⟩
        exact hvk.trans hkw
      nodes := fun r hr => h'.valid.linked.pars r
        ((Model.decay x).partPars_subset (List.mem_append_left _ hr))
      pars := fun v hv => h'.valid.linked.pars _
        ((Model.decay x).partPars_subset (List.mem_append_right _ (List.mem_map_of_mem hv)))
      covered := fun v hv => h'.valid.weight_names_subset hv }
  roles := h'.roles.trans h.roles
  space := h'.space.trans h.space
  resolution := h'.resolution.trans h.resolution
  contents n := by
    rw [h'.contents, h.contents, hin.registries _ (hg.bounded _ g.pars_mem),
      Store.content?_within (hs _) hin]

/-- The product is made of what there was in an earlier store. -/
theorem JoinsBoth.before {b : Store α} (h : JoinsBoth s t d f g x) (hb : b.Sound)
    (hbs : Store.Within ∅ ∅ b s) (hd : (Model.decay d).Valid b) (hf : f.Valid b)
    (hg : g.Valid b) : JoinsBoth b t d f g x :=
  { h with
    assembled := by
      refine h.assembled.before hbs.toGrows
        (fun r hr => hd.linked.bounded r (Model.amplitude_subset d hr)) ?_
      intro w hw
      rcases List.mem_append.mp hw with hw | hw
      · rcases List.mem_append.mp hw with hw | hw
        · exact fun r hr => hd.linked.bounded r
            (List.mem_append_right _ (List.mem_flatMap.mpr ⟨w, hw, hr⟩))
        · exact List.mem_singleton.mp hw ▸ hf.bounded
      · exact List.mem_singleton.mp hw ▸ hg.bounded
    resolution := h.resolution.trans
      (hbs.resolutions _ (hd.states _ (List.mem_singleton_self _)))
    contents := fun n => by
      rw [h.contents, hbs.registries _ (hg.bounded _ g.pars_mem),
        hbs.registries _ (hf.bounded _ f.pars_mem),
        hbs.registries _ (hd.linked.bounded _ d.head_pars_mem),
        Store.content?_within (hb _) hbs, Store.content?_within (hb _) hbs,
        Store.content?_within (hb _) hbs] }

/-- Two densities that have one intensity wherever they have the same values, whatever else
became of the two stores. -/
def Interchangeable (t u : Store α) (x y : Decay α) : Prop :=
  ∀ t' u' : Store α, (∀ r ∈ (Model.decay x).registries, t'.registry r = t.registry r) →
    (∀ r ∈ (Model.decay y).registries, u'.registry r = u.registry r) →
    (∀ n, t'.value? x.head.pars n = u'.value? y.head.pars n) →
    ∀ a b c, (x.intensity t' a b c).toOption = (y.intensity u' a b c).toOption

variable (hx : JoinsBoth s t d f g x) (hy : JoinsBoth s u d g f y)

include hx hy

/-- **The order of two functions does not matter** for the numerator, where products are exact. -/
theorem JoinsBoth.interchangeable (hα : Scalar.ExactProducts α) : Interchangeable t u x y := by
  intro t' u' ht hu hvalues a b c
  have hperm : (d.weights ++ [f] ++ [g]).Perm (d.weights ++ [g] ++ [f]) := by
    rw [List.append_assoc, List.append_assoc]
    exact (List.Perm.swap g f []).append_left _
  exact (hx.assembled.congr ht).intensity_toOption hα (hy.assembled.congr hu) hperm
    (hx.roles.trans hy.roles.symm) hvalues a b c

/-- **The same is under every name**, if the functions have no name in common. -/
theorem JoinsBoth.contents_eq
    (hdisjoint : (s.registry f.pars).names.Disjoint (s.registry g.pars).names) (n : String) :
    t.content? (t.registry x.head.pars) n = u.content? (u.registry y.head.pars) n := by
  rw [hx.contents, hy.contents]
  by_cases hn : n ∈ (s.registry f.pars).names
  · have hnone : s.content? (s.registry g.pars) n = none :=
      congrArg (Option.map _) (Registry.find?_eq_none.mpr (hdisjoint hn))
    rw [hnone, Option.none_or, Option.none_or]
  · have hnone : s.content? (s.registry f.pars) n = none :=
      congrArg (Option.map _) (Registry.find?_eq_none.mpr hn)
    rw [hnone, Option.none_or, Option.none_or]

omit hx hy in
/-- The product with a second function stores its integral, if that is there. -/
theorem withWeight_joins_both (hs : s.Sound) (hd : (Model.decay d).Valid s) (hf : f.Valid s)
    (hg : g.Valid s) (hvars : ∀ n ∈ (s.registry g.vars).names, n ∈ d.roles)
    (hp : (d.withWeight f).outcome s = (.ok p, t₁)) :
    ∃ x v, JoinsBoth s v d f g x ∧
      (∀ e, x.integral v = .error e → ∃ t, (p.withWeight g).outcome t₁ = (.error e, t)) ∧
      ∀ norm, x.integral v = .ok norm → ∃ t, (p.withWeight g).outcome t₁ = (.ok x, t) ∧
        JoinsBoth s t d f g x ∧ (t.state x.state).norm = norm := by
  obtain ⟨hap, hbuilt⟩ := (withWeight_spec (Store.Apart.refl hs) hd hf).ok hp
  have hfirst := (joins_of_outcome hs hd hf hp).1
  have hg₁ : g.Valid t₁ := hg.grows hap.toGrows
  have hcovered : ∀ n ∈ (t₁.registry g.vars).names, n ∈ (t₁.registry p.head.vars).names := by
    rw [hap.registries _ (hg.bounded _ g.vars_mem), hbuilt.valid.names_eq_roles, hfirst.roles]
    exact hvars
  obtain ⟨x, v, hv, hfails, hmakes⟩ := withWeight_joins hap.sound hbuilt.valid hg₁ hcovered
  refine ⟨x, v, hfirst.both hv hs hg hap.toWithin, hfails, fun norm hnorm => ?_⟩
  obtain ⟨t, ht, hjoins, hstored⟩ := hmakes norm hnorm
  exact ⟨t, ht, hfirst.both hjoins hs hg hap.toWithin, hstored⟩

omit hx hy in
/-- **Two functions can be multiplied in either order, or in none**, and what is stored is the
same. The other order may be tried later on. -/
theorem withWeight_either {s' : Store α} (hα : Scalar.ExactProducts α) (hs : s.Sound)
    (hd : (Model.decay d).Valid s) (hf : f.Valid s) (hg : g.Valid s)
    (hdisjoint : (s.registry f.pars).names.Disjoint (s.registry g.pars).names)
    (hlater : s.Extends s') (hp : (d.withWeight f).outcome s = (.ok p, t₁))
    (hq : (d.withWeight g).outcome s' = (.ok q, u₁)) :
    ((∃ e t, (p.withWeight g).outcome t₁ = (.error e, t)) ∧
      ∃ e u, (q.withWeight f).outcome u₁ = (.error e, u)) ∨
    ∃ x t y u, (p.withWeight g).outcome t₁ = (.ok x, t) ∧ (q.withWeight f).outcome u₁ = (.ok y, u) ∧
      JoinsBoth s t d f g x ∧ JoinsBoth s u d g f y ∧
      (t.state x.state).norm = (u.state y.state).norm := by
  have hd' : (Model.decay d).Valid s' := hd.grows hlater.toGrows
  have hf' : f.Valid s' := hf.grows hlater.toGrows
  have hg' : g.Valid s' := hg.grows hlater.toGrows
  have hfvars : ∀ n ∈ (s'.registry f.vars).names, n ∈ d.roles := by
    rw [hlater.registries _ (hf.bounded _ f.vars_mem)]
    exact hd.names_eq_roles ▸ (joins_of_outcome hs hd hf hp).2
  have hgvars : ∀ n ∈ (s.registry g.vars).names, n ∈ d.roles := by
    rw [← hlater.registries _ (hg.bounded _ g.vars_mem)]
    exact hd'.names_eq_roles ▸ (joins_of_outcome hlater.sound hd' hg' hq).2
  obtain ⟨x, v, hx, hxfails, hxmakes⟩ := withWeight_joins_both hs hd hf hg hgvars hp
  obtain ⟨y, w, hy, hyfails, hymakes⟩ :=
    withWeight_joins_both hlater.sound hd' hg' hf' hfvars hq
  have hearlier : ∀ {w}, JoinsBoth s' w d g f y → JoinsBoth s w d g f y := fun h =>
    h.before hs hlater.toWithin hd hg hf
  have hy := hearlier hy
  have hintegral : (x.integral v).toOption = (y.integral w).toOption :=
    integral_toOption (hx.space.trans hy.space.symm) (hx.resolution.trans hy.resolution.symm)
      (hx.interchangeable hy hα v w (fun _ _ => rfl) (fun _ _ => rfl) fun n => by
        rw [Store.value?_eq_content?, Store.value?_eq_content?, hx.contents_eq hy hdisjoint])
  cases hxnorm : x.integral v with
  | error e =>
    cases hynorm : y.integral w with
    | error e' => exact .inl ⟨⟨e, hxfails e hxnorm⟩, e', hyfails e' hynorm⟩
    | ok norm =>
      rw [hxnorm, hynorm] at hintegral
      cases hintegral
  | ok norm =>
    cases hynorm : y.integral w with
    | error e' =>
      rw [hxnorm, hynorm] at hintegral
      cases hintegral
    | ok norm' =>
      rw [hxnorm, hynorm] at hintegral
      obtain rfl : norm = norm' := Option.some.inj hintegral
      obtain ⟨t, ht, hxt, hxstored⟩ := hxmakes norm hxnorm
      obtain ⟨u, hu, hyu, hystored⟩ := hymakes norm hynorm
      exact .inr ⟨x, t, y, u, ht, hu, hxt, hearlier hyu, hxstored.trans hystored.symm⟩

end

end Decay

end DensityAlgebra
