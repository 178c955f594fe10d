/-
# Kinematic roles and names

A decay density has three variables, one in each kinematic role, and it looks them up by
name. Values in a row follow the ascending order of the names, whatever roles they play; only
two values in a row follow the roles, and leave the third one. So what is in a role is the
same in whatever form it is given: in a row, by name, or as what the variables were set to,
and also to a composite of the density alone.

A composite of one model is worth what the model is worth, and no cell of it is a variable
and a parameter unless one of the model's is. Where a cell is both, setting it as a variable
changes a parameter and renews no normalization.

Key definitions: `Decay.inRoles`, `Density.ComesTo`, `Composite.Alone`, `Decay.KeepsRoles`.
Key theorems: `Density.comesTo`, `Composite.ofModel_alone`, `Decay.valueAt_inRoles`,
`Session.roles_kept`.
-/
import DensityAlgebra.Proofs.Inheriting
import DensityAlgebra.Proofs.Points
import DensityAlgebra.Proofs.Spawning
import DensityAlgebra.Proofs.Views

namespace DensityAlgebra

variable {α : Type} [Scalar α]

/-! ### One point in any form -/

/-- The values of `v` under these names come to `x` in whatever form they are given. -/
structure Density.ComesTo (s : Store α) (e : Density α) (names : List String)
    (v : String → Value α) (x : Except (Fault α) (Value α)) : Prop where
  /-- In a row, in the order of the names. -/
  inRow : e.evaluate s (.sequence (names.map v)) = x
  /-- By name, in any order and beside other names. -/
  byName : ∀ es : List (String × Entry α), (∀ n ∈ names, es.lookup n = some (.raw (v n))) →
    e.evaluate s (.mapping es) = x
  /-- They can be set in either form, and are the current values then. -/
  current : ∀ input : Input α, input.Fills names v → ∃ t,
    (e.setVars input).outcome s = (.ok (), t) ∧
    e.evaluate t .nothing = e.evaluate t (.sequence (names.map v)) ∧
    (e.Unmixed s → e.evaluate t .nothing = x)

/-- **A density comes to its value** at these values of its variables. -/
theorem Density.comesTo {s : Store α} {e : Density α} (hs : s.Sound) (he : e.Valid s)
    (v : String → Value α) :
    e.ComesTo s (e.varNames s) v (e.valueAt s fun n => .value (v n)) where
  inRow := evaluate_assigned he (Input.assigns_sequence _ v)
  byName es h := evaluate_assigned he (Input.assigns_mapping h)
  current input h := by
    obtain ⟨t, ht, -, hnow, hbefore⟩ := evaluate_set hs he h
    refine ⟨t, ht, hnow, fun hun => (hbefore hun).trans ?_⟩
    exact evaluate_assigned he (Input.assigns_sequence _ v)

/-! ### The composite of one model -/

namespace Composite

/-- The composite is over a copy of the model, and over nothing else. -/
structure Alone (s t : Store α) (m : Model α) (p : Composite α) : Prop where
  sound : t.Sound
  valid : p.Valid t
  varNames : p.varNames t = m.varNames s
  valueAt : ∀ v, (Density.composite p).valueAt t v = (Density.model m).valueAt s v
  unmixed : (Density.model m).Unmixed s → (Density.composite p).Unmixed t

/-- Copies of different cells are different, so that the composite has no cell twice where the
model has none. -/
theorem ofModel_unmixed {s : Store α} {m : Model α} (hs : s.Sound) (hm : m.Valid s) :
    (ofOperand (.model m)).Ends s (fun p t => (Density.model m).Unmixed s → t.Sound →
      (Density.composite p).Unmixed t) fun _ => True := by
  obtain ⟨p, s₁, hnew, hap, hp, -⟩ := new_spec (Store.Apart.refl hs)
  have hm₁ := hm.grows hap.toGrows
  have hsame : ∀ kind, s₁.registry ((Density.model m).registryOf kind) =
      s.registry ((Density.model m).registryOf kind) := fun kind =>
    hap.registries _ (Density.Valid.bounded_registryOf (d := .model m) hm kind)
  refine Run.ends_ok_bind hnew ((append_model_joined hap hp hm₁).mono ?_ fun _ h => h)
  rintro q t ⟨u, g, h⟩ hun ht
  -- each cell of the composite is the copy of a cell of the model of the same kind
  have horigin : ∀ kind, ∀ c ∈ (t.registry ((Density.composite q).registryOf kind)).cells,
      ∃ d ∈ (s₁.registry ((Density.model m).registryOf kind)).cells, g d = c := by
    intro kind c hc
    obtain ⟨n, hn⟩ := Registry.exists_find?_of_mem_cells (ht _).distinct hc
    have hkept : (Density.composite q).registryOf kind = (Density.composite p).registryOf kind := by
      cases kind with
      | «variable» => exact h.vars
      | parameter => exact h.pars
    have hempty : u.registry ((Density.composite p).registryOf kind) = .empty :=
      (h.apart.registries _ (Density.Valid.bounded_registryOf (d := .composite p) hp.valid kind)).trans
        (new_declares hnew kind)
    rw [hkept, h.find?, hempty, show Registry.empty.find? n = none from rfl, Option.none_or,
      Registry.find?_rename] at hn
    obtain ⟨d, hd, rfl⟩ := Option.map_eq_some_iff.mp hn
    exact ⟨d, Registry.mem_cells_of_find? hd, rfl⟩
  intro c hvar hpar
  obtain ⟨d, hd, rfl⟩ := horigin .variable c hvar
  obtain ⟨e, he, heq⟩ := horigin .parameter _ hpar
  have hed : e = d := h.copied.injective
    e (List.mem_flatMap.mpr ⟨_, Density.registryOf_mem (.model m) .parameter, he⟩)
    d (List.mem_flatMap.mpr ⟨_, Density.registryOf_mem (.model m) .variable, hd⟩) heq
  refine hun.of_registries (hsame .variable) (hsame .parameter) d hd ?_
  exact hed ▸ he

/-- A model is worth what its outline is. -/
theorem model_valueAt (s : Store α) (m : Model α) (v : String → Given α) :
    (m.outline s).value (modelValue s v [m]) = (Density.model m).valueAt s v :=
  Outline.value_of_spell (t := .leaf (.model 0)) trivial rfl (modelValue s v [m])

/-- **A composite of one model can always be made**, and is worth what the model is worth. -/
theorem ofModel_alone {s : Store α} {m : Model α} (hs : s.Sound) (hm : m.Valid s) :
    (ofOperand (.model m)).Ends s (fun p t => Alone s t m p) fun _ => False := by
  have hmade := (ofOperand_takes (x := .model m) ⟨.inl rfl, rfl⟩) s
  have hspec := (ofModel_spec (Store.Apart.refl hs) hm).and
    ((ofOperand_outline (x := .model m) hs hm trivial).and (ofModel_unmixed hs hm))
  refine (hmade.and hspec).mono (fun p t h => ?_) fun _ h => h.1
  obtain ⟨-, ⟨hcomposed, -, hap⟩, houtline, hunmixed⟩ := h
  have hvalid : p.Valid t := hcomposed.built.valid
  obtain ⟨ls, rs, hmodels, hcarried, hnone⟩ := hcomposed.models
  obtain rfl : rs = [] := List.forall₂_nil_left_iff.mp hnone
  rw [List.append_nil] at hmodels
  refine ⟨hap.sound, hvalid, ?_, fun v => ?_, fun hun => hunmixed hun hap.sound⟩
  · have hnames : ∀ n, n ∈ (t.registry p.vars).names ↔ n ∈ (s.registry m.head.vars).names :=
      fun n => Set.ext_iff.mp (congrArg Outline.vars houtline) n
    exact Registry.sortNames_eq_of_perm ((List.perm_ext_iff_of_nodup (hap.sound _).distinct
      (hs _).distinct).mpr hnames)
  · have heach : modelValue t v p.models = modelValue s v [m] := funext fun i => by
      rw [hmodels]
      exact modelValue_of_carried hcarried (fun k hk => List.mem_singleton.mp hk ▸ hm)
        (fun _ _ _ _ _ _ h => nomatch h) i
    show (p.outline t).value (modelValue t v p.models) = _
    rw [houtline, heach]
    exact model_valueAt s m v

end Composite

/-! ### Roles -/

namespace Decay

/-- The values in the roles, by the names of the variables that play them. -/
def inRoles (d : Decay α) (a b c : Value α) (n : String) : Value α :=
  if n = d.role12 then a else if n = d.role13 then b else c

omit [Scalar α] in
/-- Where all names are different, every role has its value. -/
theorem map_inRoles {d : Decay α} (hd : d.roles.Nodup) (a b c : Value α) :
    d.roles.map (d.inRoles a b c) = [a, b, c] := by
  have hroles : d.role13 ≠ d.role12 ∧ d.role23 ≠ d.role12 ∧ d.role23 ≠ d.role13 := by
    simpa [roles, eq_comm, and_assoc] using hd
  obtain ⟨h1, h2, h3⟩ := hroles
  simp [roles, inRoles, h1, h2, h3]

/-- **Values by name are in their roles**, whatever the order of the names. -/
theorem valueAt_inRoles {s : Store α} {d : Decay α} (hs : s.Sound) (hd : (Model.decay d).Valid s)
    (a b c : Value α) :
    (Density.model (.decay d)).valueAt s (fun n => .value (d.inRoles a b c n)) =
      d.evaluateAt s a b (some c) := by
  have hnodup : d.roles.Nodup := hd.names_eq_roles ▸ (hs d.head.vars).distinct
  obtain ⟨ha, hb, hc, -⟩ : d.inRoles a b c d.role12 = a ∧ d.inRoles a b c d.role13 = b ∧
      d.inRoles a b c d.role23 = c ∧ True := by
    simpa [roles] using map_inRoles hnodup a b c
  have hassigned := density_assigned hd fun n => .value (d.inRoles a b c n)
  rw [ha, hb, hc] at hassigned
  exact hassigned

omit [Scalar α] in
/-- The variables are listed in the ascending order of their names. -/
theorem varNames_eq {s : Store α} {d : Decay α} (hd : (Model.decay d).Valid s) :
    (Model.decay d).varNames s = sortNames d.roles :=
  congrArg sortNames hd.names_eq_roles

/-- A decay density takes two or three values in a row. -/
theorem evaluate_wrong_count {s : Store α} {d : Decay α} (hd : (Model.decay d).Valid s)
    {vs : List (Value α)} (h2 : vs.length ≠ 2) (h3 : vs.length ≠ 3) :
    ∃ e, (Model.decay d).evaluate s (.sequence vs) = .error e ∧ e.kind = .argumentCount := by
  have hthree : ((Model.decay d).varNames s).length = 3 := Model.Valid.length_varNames hd
  set refusal := Fault.takesValues (α := α) (Model.decay d).name ((Model.decay d).varNames s)
    vs.length
  have hpoint : (Model.decay d).point s (.sequence vs) = .error refusal := by
    have hgeneric : (Model.decay d).point s (.sequence vs) =
        Model.pickSequence (Model.decay d).name ((Model.decay d).varNames s) (vs.map .value) := by
      -- two values would have been a pair
      match vs, h2 with
      | [], _ => rfl
      | [_], _ => rfl
      | [_, _], h => exact absurd rfl h
      | _ :: _ :: _ :: _, _ => rfl
    rw [hgeneric, Model.pickSequence, List.length_map, hthree, if_neg h3]
  refine ⟨refusal, ?_, rfl⟩
  show ((Model.decay d).point s (.sequence vs) >>= _) = _
  rw [hpoint]
  rfl

/-- What is in the roles of a decay density stays in them, however it is given. -/
structure KeepsRoles (s : Store α) (d : Decay α) (a b c : Value α) : Prop where
  /-- Each variable has the value of its role. -/
  roles : d.roles.map (d.inRoles a b c) = [a, b, c]
  /-- The density comes to the value in role order. -/
  own : (Density.model (.decay d)).ComesTo s (sortNames d.roles) (d.inRoles a b c)
    (d.evaluateAt s a b (some c))
  /-- So does a composite of it, which can be made. -/
  composite : ∃ p u, (Composite.ofOperand (.model (.decay d))).outcome s = (.ok p, u) ∧
    ((Density.model (.decay d)).Unmixed s → (Density.composite p).Unmixed u) ∧
    (Density.composite p).ComesTo u (sortNames d.roles) (d.inRoles a b c)
      (d.evaluateAt s a b (some c))
  /-- Two values in a row are in role order, and leave the third one. -/
  pair : (Model.decay d).evaluate s (.sequence [a, b]) = d.evaluateAt s a b none ∧
    d.evaluateAt s a b none = (do d.evaluateAt s a b (some (← d.third a b)))
  /-- No other number of values in a row is taken. -/
  counted : ∀ vs : List (Value α), vs.length ≠ 2 → vs.length ≠ 3 → ∃ e,
    (Model.decay d).evaluate s (.sequence vs) = .error e ∧ e.kind = .argumentCount

/-- **Roles are kept by every naming.** -/
theorem keepsRoles {s : Store α} {d : Decay α} (hs : s.Sound) (hd : (Model.decay d).Valid s)
    (a b c : Value α) : d.KeepsRoles s a b c where
  roles := map_inRoles (hd.names_eq_roles ▸ (hs d.head.vars).distinct) a b c
  own := by
    rw [← varNames_eq hd, ← valueAt_inRoles hs hd]
    exact Density.comesTo (e := .model (.decay d)) hs hd _
  composite := by
    obtain ⟨p, u, hp, halone⟩ := (Composite.ofModel_alone hs hd).exists_ok
    refine ⟨p, u, hp, halone.unmixed, ?_⟩
    rw [← varNames_eq hd, ← valueAt_inRoles hs hd, ← halone.varNames, ← halone.valueAt]
    exact Density.comesTo (e := .composite p) halone.sound halone.valid _
  pair := by
    have hnodup : d.roles.Nodup := hd.names_eq_roles ▸ (hs d.head.vars).distinct
    rw [evaluate_pair hnodup]
    exact ⟨rfl, rfl⟩
  counted vs := evaluate_wrong_count hd

end Decay

namespace Session

/-- **Kinematic roles survive every naming**: for every decay density of a session, and whatever
is in its roles. -/
theorem roles_kept {calls : List (Call α)} {d : Decay α}
    (hd : .density (.model (.decay d)) ∈ (after calls).objects) (a b c : Value α) :
    d.KeepsRoles (after calls).store a b c :=
  Decay.keepsRoles (after_valid calls).sound ((after_valid calls).objects _ hd) a b c

end Session

namespace Sample

/-- A decay density whose variables are not named in the order of their roles, and a weight of
the first one. -/
def shuffled : List (Call ℚ) :=
  [ .cell ⟨.variable, "z", .scalar 0, .scalar 0⟩,
    .cell ⟨.variable, "x", .scalar 0, .scalar 0⟩,
    .cell ⟨.variable, "y", .scalar 0, .scalar 0⟩,
    .flat (.ofReal 1),
    .decay "Decay3Body" 0 1 2 3 ⟨7, 0, 1, 0⟩ (.ok 1) 14 (.ok 10) ⟨0⟩,
    .weight "eff" [⟨"z", .positionalOrNamed⟩] (.argument "z") [0] [],
    .make (.withWeight 4 5) ]

/-- A sum over a normal density whose variable m12 is its mean as well, and a decay density with
a variable and a parameter of this name; and the decay density within the sum. -/
def tied : List (Call ℚ) :=
  [ .cell ⟨.parameter, "m12", .scalar 1, .scalar 0⟩,
    .cell ⟨.variable, "m13", .scalar 0, .scalar 0⟩,
    .cell ⟨.variable, "m23", .scalar 0, .scalar 0⟩,
    .cell ⟨.variable, "m12", .scalar 0, .scalar 0⟩,
    .cell ⟨.parameter, "w", .scalar 1, .scalar 0⟩,
    .cell ⟨.parameter, "m12", .scalar 1, .scalar 0⟩,
    .cell ⟨.parameter, "c", .scalar 0, .scalar 0⟩,
    .flat (.ofReal 1),
    .sum [(5, 6, 7)],
    .decay "Decay3Body" 3 1 2 8 ⟨7, 0, 1, 0⟩ (.ok 1) 14 (.ok 10) ⟨0⟩,
    .gaussian "Gaussian" 0 0 4,
    .uniform "Uniform" 1 0 1,
    .uniform "Uniform" 2 0 1,
    .make (.operator .mult (.held 10) (.held 11)),
    .make (.operator .mult (.held 13) (.held 12)),
    .make (.operator .plus (.held 14) (.held 9)),
    .part "models" 3 15 ]

/-- Values for the three variables, in the order of their names. -/
def point : Input ℚ := .sequence [.scalar 2, .scalar 3, .scalar 4]

/-- The composite of a decay density, and what is left when its variables were set. -/
def composedAndSet (calls : List (Call ℚ)) (i : Nat) :
    Option (Decay ℚ × Composite ℚ × Store ℚ × Store ℚ) :=
  match Held.decay (Session.after calls).objects i with
  | .ok d =>
    match (Composite.ofOperand (.model (.decay d))).outcome (Session.after calls).store with
    | (.ok p, u) =>
      match ((Density.composite p).setVars point).outcome u with
      | (.ok (), t) => some (d, p, u, t)
      | _ => none
    | _ => none
  | _ => none

theorem composedAndSet_eq_some {calls : List (Call ℚ)} {i : Nat} {d : Decay ℚ} {p : Composite ℚ}
    {u t : Store ℚ} (h : composedAndSet calls i = some (d, p, u, t)) :
    .density (.model (.decay d)) ∈ (Session.after calls).objects ∧
      (Composite.ofOperand (.model (.decay d))).outcome (Session.after calls).store = (.ok p, u) ∧
      ((Density.composite p).setVars point).outcome u = (.ok (), t) := by
  unfold composedAndSet at h
  split at h
  · rename_i e he
    split at h
    · rename_i q v hq
      split at h
      · rename_i w hw
        obtain ⟨rfl, rfl, rfl, rfl⟩ : e = d ∧ q = p ∧ v = u ∧ w = t := by simpa using h
        exact ⟨List.mem_of_getElem? (Held.decay_eq_ok he), hq, hw⟩
      · simp at h
    · simp at h
  · simp at h

end Sample

namespace Session

/-- The density of the variables z, x and y at 2, 3 and 4. -/
theorem roles_kept_shuffled : ∃ d, .density (.model (.decay d)) ∈ (after Sample.shuffled).objects ∧
    d.roles = ["z", "x", "y"] ∧
    ((Model.decay d).evaluate (after Sample.shuffled).store
      (.sequence [.scalar 3, .scalar 4, .scalar 2])).toOption ≠ none ∧
    d.KeepsRoles (after Sample.shuffled).store (.scalar 2) (.scalar 3) (.scalar 4) := by
  have hrun : ∃ d ∈ (Held.decay (after Sample.shuffled).objects 6).toOption,
      d.roles = ["z", "x", "y"] ∧
      ((Model.decay d).evaluate (after Sample.shuffled).store
        (.sequence [.scalar 3, .scalar 4, .scalar 2])).toOption ≠ none := by
    decide +kernel
  obtain ⟨d, hd, hroles, hvalue⟩ := hrun
  have hmem := List.mem_of_getElem? (Held.decay_eq_ok (Sample.eq_ok_of_toOption hd))
  exact ⟨d, hmem, hroles, hvalue, roles_kept hmem _ _ _⟩

/-- A variable that is a parameter as well: setting it to a composite of the density changes the
numerator and not the normalization. -/
theorem roles_not_kept_of_tied : ¬ ∀ (calls : List (Call ℚ)) (d : Decay ℚ),
    .density (.model (.decay d)) ∈ (after calls).objects →
    ∀ (a b c : Value ℚ) (p : Composite ℚ) (u t : Store ℚ) (input : Input ℚ),
      (Composite.ofOperand (.model (.decay d))).outcome (after calls).store = (.ok p, u) →
      input.Fills (sortNames d.roles) (d.inRoles a b c) →
      ((Density.composite p).setVars input).outcome u = (.ok (), t) →
      p.evaluate t .nothing = d.evaluateAt (after calls).store a b (some c) := by
  intro hall
  have hrun : ∃ r ∈ Sample.composedAndSet Sample.tied 16,
      (sortNames r.1.roles).map (r.1.inRoles (.scalar 2) (.scalar 3) (.scalar 4)) =
        [.scalar 2, .scalar 3, .scalar 4] ∧
      (r.2.1.evaluate r.2.2.2 .nothing).toOption ≠
        (r.1.evaluateAt (after Sample.tied).store (.scalar 2) (.scalar 3)
          (some (.scalar 4))).toOption := by
    decide +kernel
  obtain ⟨⟨d, p, u, t⟩, hsome, hvalues, hne⟩ := hrun
  obtain ⟨hd, hp, ht⟩ := Sample.composedAndSet_eq_some hsome
  have hfills : Sample.point.Fills (sortNames d.roles)
      (d.inRoles (.scalar 2) (.scalar 3) (.scalar 4)) := by
    have hrow := congrArg (List.map Given.value) hvalues.symm
    rwa [List.map_map] at hrow
  exact hne (congrArg Except.toOption (hall Sample.tied d hd _ _ _ p u t Sample.point hp hfills ht))

end Session

end DensityAlgebra
