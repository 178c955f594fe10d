/-
# Three ways to give a point

The values of the variables can be given in a row, in the ascending order of the names; by
name, in any order and beside other names; or they can be set, in either form, and are the
current values from then on. A density comes to the same each time.

A density looks its values up by name, so it does not matter in which order they stand.
Setting variables changes no parameter, unless a cell is both, and no normalization. The
models of a composite have no cells but those of the composite, under the same names: what
was set there are their own current values, and at given values each of them is worth what
it is worth at its own share of them, in its own order.

Key definitions: `Input.Fills`, `Density.valueAt`, `Composite.evaluateEach`.
Key theorems: `Model.density_lookup`, `Density.evaluate_assigned`, `Density.evaluate_current`,
`Density.setVars_fills`, `Density.evaluate_set`, `Session.points_agree`.
-/
import DensityAlgebra.Proofs.Accepting
import DensityAlgebra.Proofs.Composing
import DensityAlgebra.Proofs.Restoring

namespace DensityAlgebra

variable {α : Type}

/-! ### Values by name -/

/-- The values of `v` for exactly these names: in a row in their order, or under them in any
order. -/
def Input.Fills (names : List String) (v : String → Value α) : Input α → Prop
  | .row gs => gs = names.map fun n => .value (v n)
  | .mapping es => es.Perm (names.map fun n => (n, .raw (v n)))
  | _ => False

/-- Where all names are different, as many values as names are values of the names. -/
theorem exists_eq_map {β : Type} (default : β) {names : List String} (hn : names.Nodup)
    {vs : List β} (h : vs.length = names.length) : ∃ v : String → β, vs = names.map v := by
  refine ⟨fun n => vs.getD (names.idxOf n) default, ?_⟩
  refine List.ext_getElem (by rw [h, List.length_map]) fun i hi hi' => ?_
  have hlt : i < names.length := h ▸ hi
  rw [List.getElem_map, hn.idxOf_getElem i hlt, List.getD_eq_getElem?_getD,
    List.getElem?_eq_getElem hi, Option.getD_some]

theorem Input.Fills.matches {r : Registry} {v : String → Value α} {input : Input α}
    (h : input.Fills r.sortedNames v) : input.Matches r := by
  cases input with
  | row gs => exact (congrArg List.length h).trans (List.length_map _)
  | mapping es =>
    intro e he
    obtain ⟨n, hn, rfl⟩ := List.mem_map.mp (h.mem_iff.mp he)
    exact Registry.mem_sortNames.mp hn
  | _ => exact absurd h id

theorem Input.Fills.proper {r : Registry} (hr : r.names.Nodup) {v : String → Value α}
    {input : Input α} (h : input.Fills r.sortedNames v) : input.Proper := by
  cases input with
  | mapping es =>
    have hnames : (es.map (·.1)).Perm r.sortedNames := by
      have hfst := h.map (·.1)
      rwa [List.map_map, show (Prod.fst ∘ fun n => (n, Entry.raw (v n))) = id from rfl,
        List.map_id] at hfst
    exact hnames.nodup_iff.mpr (Registry.nodup_sortedNames hr)
  | row gs => trivial
  | _ => exact absurd h id

theorem Input.Fills.readable [Scalar α] (s : Store α) {names : List String} {v : String → Value α}
    {input : Input α} (h : input.Fills names v) : input.Readable s := by
  cases input with
  | mapping es =>
    intro e he
    obtain ⟨n, -, rfl⟩ := List.mem_map.mp (h.mem_iff.mp he)
    exact ⟨none, rfl⟩
  | _ => trivial

/-- Every name takes its value. -/
theorem Input.Fills.mem_entries {r : Registry} {v : String → Value α} {input : Input α}
    (h : input.Fills r.sortedNames v) {n : String} (hn : n ∈ r.names) :
    (n, .raw (v n)) ∈ input.entries r := by
  have hmem : (n, Entry.raw (v n)) ∈ r.sortedNames.map fun n => (n, Entry.raw (v n)) :=
    List.mem_map_of_mem (f := fun n => (n, Entry.raw (v n))) (Registry.mem_sortNames.mpr hn)
  cases input with
  | mapping es => exact h.mem_iff.mpr hmem
  | row gs =>
    have hzip : (Input.row gs).entries r = r.sortedNames.map fun n => (n, .raw (v n)) := by
      show r.sortedNames.zip (gs.map Entry.given) = _
      rw [show gs = r.sortedNames.map fun n => .value (v n) from h, List.map_map]
      exact List.map_prod_left_eq_zip.symm
    exact hzip ▸ hmem
  | _ => exact absurd h id

variable [Scalar α]

/-! ### Looking values up -/

/-- **A density only looks values up by name.** -/
theorem Model.density_lookup (s : Store α) (m : Model α) {p q : List (String × Given α)}
    (h : ∀ n, p.lookup n = q.lookup n) : m.density s p = m.density s q := by
  cases m <;> simp only [density, h]

omit [Scalar α] in
theorem lookup_assignedPoint_of_not_mem (v : String → Given α) {names : List String} {n : String}
    (h : n ∉ names) : (assignedPoint v names).lookup n = none := by
  rw [List.lookup_eq_none_iff]
  intro e he
  obtain ⟨m, hm, rfl⟩ := List.mem_map.mp he
  rw [bne_iff_ne]
  rintro rfl
  exact h hm

/-- The current values, looked up by name. -/
theorem Store.lookup_currentValues (t : Store α) (r : RegistryId) (n : String) :
    ((t.currentValues r).map fun e => (e.1, e.2.given)).lookup n =
      (t.value? r n).map Content.given := by
  rw [lookup_map_snd, Composite.value?_eq_lookup]

section

variable {s t : Store α} {d : Density α} {v : String → Value α} {input : Input α}

/-! ### Given values -/

/-- The value where the variables have their assigned values: for a composite what its
program makes of its models, each at the values of its own variables. -/
def Density.valueAt (s : Store α) (v : String → Given α) :
    Density α → Except (Fault α) (Value α)
  | .model m => m.density s (assignedPoint v (m.varNames s))
  | .composite p => (p.outline s).value (modelValue s v p.models)

omit [Scalar α] in
/-- A decay density has three variables. -/
theorem Model.Valid.length_varNames [Scalar α] {d : Decay α} (h : (Model.decay d).Valid s) :
    ((Model.decay d).varNames s).length = 3 := by
  calc ((Model.decay d).varNames s).length = (s.registry d.head.vars).names.length :=
        (Registry.perm_sortNames _).length_eq
    _ = 3 := by rw [h.names_eq_roles]; rfl

/-- **A density at assigned values** does not depend on the form in which they are given. -/
theorem Density.evaluate_assigned {v : String → Given α} (hd : d.Valid s)
    (h : input.Assigns v (d.varNames s)) : d.evaluate s input = d.valueAt s v := by
  cases d with
  | composite p => exact Composite.evaluate_assigned hd h
  | model m =>
    refine Model.evaluate_assigned ?_
    cases m with
    | decay e =>
      refine ⟨h, fun a b hab => ?_⟩
      -- two values in a row are too few for the three variables
      rw [hab] at h
      have hlength := congrArg List.length (show [a, b] = _ from h)
      rw [List.length_map] at hlength
      have hthree : (Density.varNames s (.model (.decay e))).length = 3 :=
        Model.Valid.length_varNames hd
      rw [hthree] at hlength
      simp at hlength
    | _ => exact h

omit [Scalar α] in
theorem Input.assigns_sequence (names : List String) (v : String → Value α) :
    (Input.sequence (names.map v)).Assigns (fun n => .value (v n)) names := by
  show (names.map v).map Given.value = _
  rw [List.map_map]
  rfl

omit [Scalar α] in
theorem Input.assigns_mapping {names : List String} {es : List (String × Entry α)}
    (h : ∀ n ∈ names, es.lookup n = some (.raw (v n))) :
    (Input.mapping es).Assigns (fun n => .value (v n)) names :=
  fun n hn => ⟨_, h n hn, rfl⟩

/-! ### Current values -/

/-- A model at its current values. -/
theorem Model.evaluate_current {m : Model α}
    (h : ∀ n x, t.value? m.head.vars n = some x → x = .value (v n)) :
    m.evaluate t .nothing = (Density.model m).valueAt t fun n => .value (v n) := by
  refine m.density_lookup t fun n => ?_
  rw [Store.lookup_currentValues]
  by_cases hn : n ∈ (t.registry m.head.vars).names
  · obtain ⟨c, hc⟩ := Registry.find?_eq_some_of_mem hn
    have hvalue := Store.value?_of_find? hc
    have hmem : n ∈ m.varNames t := Registry.mem_sortNames.mpr hn
    rw [lookup_assignedPoint _ hmem, hvalue, h n _ hvalue]
    rfl
  · have hsorted : n ∉ m.varNames t := fun hm => hn (Registry.mem_sortNames.mp hm)
    rw [lookup_assignedPoint_of_not_mem _ hsorted, Store.value?_of_not_mem hn]
    rfl

/-- **A density at its current values** has the value that it has where they are given. -/
theorem Density.evaluate_current (hd : d.Valid t)
    (h : ∀ n x, t.value? d.vars n = some x → x = .value (v n)) :
    d.evaluate t .nothing = d.valueAt t fun n => .value (v n) := by
  cases d with
  | model m => exact Model.evaluate_current h
  | composite p =>
    refine congrArg p.program.evaluate (Composite.leaf_assigned (fun _ => rfl) (fun _ => rfl)
      (fun _ => rfl) fun m hm => ?_)
    -- the model has the cells of the composite under its names
    have hunder := Composite.Valid.vars hd m hm _ m.head_vars_mem
    exact Model.evaluate_current fun n x hx => h n x (Store.value?_of_under hunder hx)

/-- **Setting the variables** to values of exactly their names does not fail; they have these
values then, and nothing else has changed. -/
theorem Density.setVars_fills (hs : s.Sound) (hd : d.Valid s) (h : input.Fills (d.varNames s) v) :
    (d.setVars input).Ends s (fun _ t =>
      s.Inside {c | c ∈ (s.registry d.vars).cells} ∅ t ∧
        ∀ n ∈ (s.registry d.vars).names, t.value? d.vars n = some (.value (v n)))
      fun _ => False := by
  have hmatches : input.Matches (s.registry d.vars) := h.matches
  have hproper := h.proper (hs d.vars).distinct
  refine (Run.assign_accepted hs hmatches hproper (h.readable s) _).mono
    (fun _ t ht => ⟨?_, ?_⟩) fun _ h => h
  · refine ht.1.mono ?_ (Set.Subset.refl _)
    rintro c ⟨_, -, hc⟩
    exact Registry.mem_cells_of_find? hc
  · intro n hn
    obtain ⟨c, hc⟩ := Registry.find?_eq_some_of_mem hn
    have hbounded := hd.covers.1.bounded
    have hcell := ht.2 _ (h.mem_entries hn) c (.value (v n)) none hc rfl
    have hfind : (t.registry d.vars).find? n = some c := by
      rw [ht.1.registries _ hbounded, hc]
    rw [Store.value?_of_find? hfind, hcell]
    rfl

/-- **After its variables were set** a density comes to what it then comes to at their values in
a row. That is what it came to before, if no cell is a variable and a parameter. -/
theorem Density.evaluate_set (hs : s.Sound) (hd : d.Valid s) (h : input.Fills (d.varNames s) v) :
    ∃ t, (d.setVars input).outcome s = (.ok (), t) ∧
      s.Inside {c | c ∈ (s.registry d.vars).cells} ∅ t ∧
      d.evaluate t .nothing = d.evaluate t (.sequence ((d.varNames s).map v)) ∧
      (d.Unmixed s →
        d.evaluate t .nothing = d.evaluate s (.sequence ((d.varNames s).map v))) := by
  obtain ⟨_, t, ht, hin, hvars⟩ := (setVars_fills hs hd h).exists_ok
  have hnames : t.registry d.vars = s.registry d.vars := hin.registries _ hd.covers.1.bounded
  have hdt := hd.grows hin.toGrows
  have hnow : d.evaluate t .nothing = d.evaluate t (.sequence ((d.varNames s).map v)) := by
    calc d.evaluate t .nothing = d.valueAt t fun n => .value (v n) := by
          refine evaluate_current hdt fun n x hx => ?_
          have hn : n ∈ (s.registry d.vars).names := by
            by_contra hn
            rw [Store.value?_of_not_mem (hnames ▸ hn)] at hx
            cases hx
          exact Option.some.inj (hx.symm.trans (hvars n hn))
      _ = d.evaluate t (.sequence ((d.varNames t).map v)) :=
          (evaluate_assigned hdt (Input.assigns_sequence _ v)).symm
      _ = d.evaluate t (.sequence ((d.varNames s).map v)) := by
          unfold varNames
          rw [hnames]
  refine ⟨t, ht, hin, hnow, fun hun => hnow.trans ?_⟩
  refine evaluate_congr hin.toWithin hd (fun n => ?_) (fun m hm => ?_) nofun
  · refine hin.value?_eq hs hd.pars_bounded fun c hc hmem => hun c hmem ?_
    exact Registry.mem_cells_of_find? hc
  · exact Model.norms_within hin.toWithin (hd.models m hm) fun _ _ => Set.notMem_empty _

/-- The composite where each of its models is evaluated by itself, at what is given for
it. -/
def Composite.evaluateEach (s : Store α) (p : Composite α) (own : Model α → Input α) :
    Except (Fault α) (Value α) :=
  p.program.evaluate fun l =>
    match l with
    | .model i => do
      let m ← itemAt p.models i
      m.evaluate s (own m)
    | l => p.leafValue s none l

/-- **Every model sees the values of its own variables**, in its own order. -/
theorem Composite.evaluate_each {p : Composite α} (hp : p.Valid s) (v : String → Value α) :
    p.evaluate s (.sequence ((p.varNames s).map v)) =
      p.evaluateEach s fun m => .sequence ((m.varNames s).map v) := by
  rw [Composite.evaluate_assigned hp (Input.assigns_sequence _ v)]
  refine congrArg p.program.evaluate (leaf_assigned (fun _ => rfl) (fun _ => rfl)
    (fun _ => rfl) fun m hm => ?_).symm
  have hvalid : (Density.model m).Valid s := hp.models m hm
  exact Density.evaluate_assigned hvalid (Input.assigns_sequence _ v)

/-! ### The three ways -/

/-- The values of `v` for the variables of a density come to the same in whatever way they
are given. -/
structure Density.PointsAgree (s : Store α) (d : Density α) (v : String → Value α) : Prop where
  /-- They can be given by name, in any order and beside other names. -/
  byName : ∀ es : List (String × Entry α), (∀ n ∈ d.varNames s, es.lookup n = some (.raw (v n))) →
    d.evaluate s (.mapping es) = d.evaluate s (.sequence ((d.varNames s).map v))
  /-- They can be set, in a row or by name, which does not fail. -/
  current : ∀ input : Input α, input.Fills (d.varNames s) v → ∃ t,
    (d.setVars input).outcome s = (.ok (), t) ∧
      d.evaluate t .nothing = d.evaluate s (.sequence ((d.varNames s).map v))
  /-- The models of a composite have those of their own variables, in their own order. -/
  each : ∀ p, d = .composite p → d.evaluate s (.sequence ((d.varNames s).map v)) =
    p.evaluateEach s fun m => .sequence ((m.varNames s).map v)

/-- **The three ways to give a point agree**, if no cell is a variable and a parameter. -/
theorem Density.pointsAgree (hs : s.Sound) (hd : d.Valid s) (hun : d.Unmixed s)
    (v : String → Value α) : d.PointsAgree s v where
  byName es h := by
    rw [evaluate_assigned hd (Input.assigns_mapping h),
      evaluate_assigned hd (Input.assigns_sequence _ v)]
  current input h := by
    obtain ⟨t, ht, -, -, hbefore⟩ := evaluate_set hs hd h
    exact ⟨t, ht, hbefore hun⟩
  each p hp := by
    subst hp
    exact Composite.evaluate_each hd v

end

/-- **The three ways to give a point agree in every session**: for every density of which no
cell is a variable and a parameter at once, and every row of as many values as it has
variables, the values can be given in this row, by name in any order and beside other names,
or be set in a row or by name; each model of a composite has the values of its own
variables, in its own order. -/
theorem Session.points_agree {calls : List (Call α)} {d : Density α} {vs : List (Value α)}
    (hd : .density d ∈ (Session.after calls).objects)
    (hun : d.Unmixed (Session.after calls).store)
    (hvs : vs.length = (d.varNames (Session.after calls).store).length) :
    ∃ v : String → Value α, vs = (d.varNames (Session.after calls).store).map v ∧
      d.PointsAgree (Session.after calls).store v := by
  have hvalid := Session.after_valid calls
  have hnames := Registry.nodup_sortedNames (hvalid.sound d.vars).distinct
  obtain ⟨v, hv⟩ := exists_eq_map (.scalar 0.0) hnames hvs
  exact ⟨v, hv, Density.pointsAgree hvalid.sound (hvalid.objects _ hd) hun v⟩

/-- The product of the sample session, at values for its four variables. -/
theorem Session.points_agree_product : ∃ p,
    .density (.composite p) ∈ (Session.after Sample.calls).objects ∧
    (Density.composite p).Unmixed (Session.after Sample.calls).store ∧
    ([.scalar 3, .scalar 4, .scalar 5, .scalar 6] : List (Value ℚ)).length =
      ((Density.composite p).varNames (Session.after Sample.calls).store).length ∧
    ∃ v : String → Value ℚ, [.scalar 3, .scalar 4, .scalar 5, .scalar 6] =
      ((Density.composite p).varNames (Session.after Sample.calls).store).map v ∧
        (Density.composite p).PointsAgree (Session.after Sample.calls).store v := by
  have hrun : ∃ p ∈ (Held.composite (Session.after Sample.calls).objects 13).toOption,
      (∀ c ∈ ((Session.after Sample.calls).store.registry p.vars).cells,
        c ∉ ((Session.after Sample.calls).store.registry p.pars).cells) ∧
      4 = (p.varNames (Session.after Sample.calls).store).length := by
    decide +kernel
  obtain ⟨p, hp, hun, hlength⟩ := hrun
  have hmem : .density (.composite p) ∈ (Session.after Sample.calls).objects :=
    List.mem_of_getElem? (Held.composite_eq_ok (Sample.eq_ok_of_toOption hp))
  have hvs : ([.scalar 3, .scalar 4, .scalar 5, .scalar 6] : List (Value ℚ)).length =
      ((Density.composite p).varNames (Session.after Sample.calls).store).length := hlength
  exact ⟨p, hmem, hun, hvs, Session.points_agree hmem hun hvs⟩

end DensityAlgebra
