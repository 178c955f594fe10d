/-
# Sessions

A session makes objects by calls and calls on them: cells, expressions, amplitudes,
weight functions and densities as their constructors make them; composites, copies and
whatever else is made of objects; parts of objects and the cells that they hold. Cells
are set, setters are called, densities are fitted and tuned. Every call names the
objects that it is about by their positions. A call that fails adds no object, but what
it has changed on its way stays changed.

What a session can come to is what the theorems on densities are about. All of its
objects are valid, and its store is sound.

Key definitions: `Call`, `Call.run`, `Session`, `Session.step`, `Session.after`,
`Store.Evolves`.
Key theorems: `Object.part_valid`, `Call.run_spec`, `Session.mem_objects_step`,
`Session.after_valid`.
-/
import DensityAlgebra.Proofs.Makings

namespace DensityAlgebra

variable {α : Type}

/-! ### Calls -/

/-- The calls of a session. -/
inductive Call (α : Type) : Type 1 where
  | cell (x : Cell α)
  | setCell (c : Nat) (value error : Content α)
  | expression (program : Program α) (pars : List Nat)
  | flat (z : ComplexNumber α)
  | resonance (mass width : Nat) (channel : String)
  | sum (terms : List (Nat × Nat × Nat))
  | weight (name : String) (args : List Argument) (body : Formula α) (vars pars : List Nat)
  | gaussian (name : String) (x mu sigma : Nat)
  | uniform (name : String) (x : Nat) (lo hi : α)
  | formula (name : String) (vars pars : List Nat) (body : Formula α)
  | decay (name : String) (m12 m13 m23 a : Nat) (space : PhaseSpace α)
      (resolution : Except (Fault α) Int) (envelope : α) (maxAttempts : Except (Fault α) Int)
      (source : SourceId)
  | part (name : String) (i : Int) (o : Nat)
  | member (kind : CellKind) (name : String) (o : Nat)
  | make (m : Making α)
  | set (d : Nat) (σ : Setter α)
  | fit {β : Type} (minimizer : Minimizer α β) (d : Nat) (data : Input α)
      (options : Fit.Options α)
  | tune (d : Nat) (resolution : Int) (envelope : α) (maxAttempts : Int)

namespace Held

/-- The cells and the amplitude of a term. -/
def term (os : List (Object α)) (e : Nat × Nat × Nat) :
    Except (Fault α) (CellId × CellId × Amplitude α) := do
  return (← cell os e.1, ← cell os e.2.1, ← amplitude os e.2.2)

end Held

variable [Scalar α]

/-- The cell that an object holds under a name. -/
def Object.member (s : Store α) (kind : CellKind) (name : String) (o : Object α) :
    Except (Fault α) CellId :=
  match o.registry? s kind with
  | some r =>
    match r.find? name with
    | some c => .ok c
    | none => .error .missingKey
  | none => .error .unsupportedOperands

/-- The bins per axis and the bounds of generation of a decay density are set; its stored
normalization stays. -/
def Decay.tune (d : Decay α) (resolution : Int) (envelope : α) (maxAttempts : Int) :
    Run α Unit :=
  modify fun s => s.putState d.state { s.state d.state with
    resolution := resolution
    envelope := envelope
    maxAttempts := maxAttempts }

namespace Call

/-- What a call does; the result is the objects that it adds. -/
def run (os : List (Object α)) : Call α → Run α (List (Object α))
  | cell x => do return [.cell (← Run.newCell x)]
  | setCell c value error => do
    let c ← Run.reading fun _ => Held.cell os c
    Run.setMeasured c value error
    return []
  | expression program pars => do
    let cells ← Run.reading fun _ => pars.mapM (Held.cell os)
    let found ← Run.reading fun s => Run.gather s cells .empty
    return [.expression os.length ⟨program, found⟩]
  | flat z => do return [.amplitude (← Run.newFlat z)]
  | resonance mass width channel => do
    let mass ← Run.reading fun _ => Held.cell os mass
    let width ← Run.reading fun _ => Held.cell os width
    return [.amplitude (← Run.newResonance mass width channel)]
  | sum terms => do
    let terms ← Run.reading fun _ => terms.mapM (Held.term os)
    return [.amplitude (← Run.newSum terms)]
  | weight name args body vars pars => do
    let vars ← Run.reading fun _ => vars.mapM (Held.cell os)
    let pars ← Run.reading fun _ => pars.mapM (Held.cell os)
    return [.weight (← Run.newWeight name args body vars pars)]
  | gaussian name x mu sigma => do
    let x ← Run.reading fun _ => Held.cell os x
    let mu ← Run.reading fun _ => Held.cell os mu
    let sigma ← Run.reading fun _ => Held.cell os sigma
    return [.density (.model (← Run.newGaussian name x mu sigma))]
  | uniform name x lo hi => do
    let x ← Run.reading fun _ => Held.cell os x
    return [.density (.model (← Run.newUniform name x lo hi))]
  | formula name vars pars body => do
    let vars ← Run.reading fun _ => vars.mapM (Held.cell os)
    let pars ← Run.reading fun _ => pars.mapM (Held.cell os)
    return [.density (.model (← Run.newFormula name vars pars body))]
  | decay name m12 m13 m23 a space resolution envelope maxAttempts source => do
    let m12 ← Run.reading fun _ => Held.cell os m12
    let m13 ← Run.reading fun _ => Held.cell os m13
    let m23 ← Run.reading fun _ => Held.cell os m23
    let a ← Run.reading fun _ => Held.amplitude os a
    let d ← Run.newDecay name m12 m13 m23 a space resolution envelope maxAttempts source
    return [.density (.model (.decay d))]
  | part name i o => do
    let o ← Run.reading fun _ => Held.object os o
    return [← Run.reading fun _ => o.part name i]
  | member kind name o => do
    let o ← Run.reading fun _ => Held.object os o
    return [.cell (← Run.reading fun s => o.member s kind name)]
  | make m => do return [← m.run os]
  | set d σ => do
    let d ← Run.reading fun _ => Held.density os d
    σ.perform d
    return []
  | fit minimizer d data options => do
    let d ← Run.reading fun _ => Held.density os d
    let r ← DensityAlgebra.fit minimizer d data options
    return [.result os.length r.1]
  | tune d resolution envelope maxAttempts => do
    let d ← Run.reading fun _ => Held.decay os d
    d.tune resolution envelope maxAttempts
    return []

end Call

/-- A store and the objects over it. -/
structure Session (α : Type) where
  store : Store α
  objects : List (Object α)

namespace Session

def start : Session α := ⟨.empty, []⟩

/-- One more call. -/
def step (σ : Session α) (c : Call α) : Session α :=
  match (c.run σ.objects).outcome σ.store with
  | (.ok os, t) => ⟨t, σ.objects ++ os⟩
  | (.error _, t) => ⟨t, σ.objects⟩

/-- The session after some calls. -/
def after (calls : List (Call α)) : Session α := calls.foldl step start

/-- The store is sound and all objects are valid. -/
structure Valid (σ : Session α) : Prop where
  sound : σ.store.Sound
  objects : ∀ o ∈ σ.objects, o.Valid σ.store

end Session

/-! ### Objects stay valid -/

/-- The store has grown and is sound; the values of cells and what is stored of decay
densities may be others. -/
structure Store.Evolves (s t : Store α) : Prop extends Grows s t where
  sound : t.Sound

theorem Store.Evolves.refl {s : Store α} (hs : s.Sound) : s.Evolves s :=
  { Grows.refl s with sound := hs }

theorem Store.Evolves.trans {s t u : Store α} (h : s.Evolves t) (h' : t.Evolves u) : s.Evolves u :=
  { h.toGrows.trans h'.toGrows with sound := h'.sound }

theorem Store.Extends.evolves {s t : Store α} (h : s.Extends t) : s.Evolves t :=
  { h.toGrows with sound := h.sound }

theorem Store.Inside.evolves {s t : Store α} {C : Set CellId} {D : Set StateId}
    (h : s.Inside C D t) : s.Evolves t := { h.toGrows with sound := h.sound }

theorem Store.evolves_putState {s : Store α} (hs : s.Sound) (d : StateId) (x : DecayState α) :
    s.Evolves (s.putState d x) :=
  { grows_putState s d x with sound := fun r => (grows_putState s d x).holds (hs r) }

omit [Scalar α] in
theorem Composite.itemAt_mem {β : Type} {xs : List β} {i : Int} {x : β}
    (h : (itemAt xs i : Except (Fault α) β) = .ok x) : x ∈ xs := by
  unfold itemAt at h
  split at h
  · rename_i y hy
    split_ifs at h
    obtain rfl := Except.ok.inj h
    exact List.mem_of_getElem? hy
  · simp at h

omit [Scalar α] in
/-- The amplitude of a valid decay density is valid by itself. -/
theorem Model.Valid.amplitude {s : Store α} {d : Decay α} (h : (Model.decay d).Valid s) :
    d.amplitude.Valid s where
  bounded r hr := h.linked.bounded r (amplitude_subset d hr)
  under r hr n c hc := by
    have hpart : ∀ q ∈ d.amplitude.registries,
        (s.registry q).Under (s.registry d.head.pars) := fun q hq =>
      h.linked.pars q ((Model.decay d).partPars_subset (List.mem_append_left _ hq))
    obtain ⟨c', hc'⟩ := Registry.find?_eq_some_of_mem
      (h.covered.2 r hr (Registry.mem_names_of_find? hc))
    -- both nodes are under the head, which has one cell for the name
    have h₁ := hpart r hr n c hc
    have h₂ := hpart _ d.amplitude.pars_mem n c' hc'
    rw [hc', ← h₂, h₁]

omit [Scalar α] in
/-- The weight functions of a valid decay density are valid by themselves. -/
theorem Model.Valid.weight {s : Store α} {d : Decay α} (h : (Model.decay d).Valid s)
    {w : Weight α} (hw : w ∈ d.weights) : w.Valid s := by
  have hv : w.vars ∈ (Model.decay d).varRegistries :=
    (Model.decay d).partVars_subset (List.mem_map_of_mem hw)
  have hp : w.pars ∈ (Model.decay d).parRegistries :=
    (Model.decay d).partPars_subset (List.mem_append_right _ (List.mem_map_of_mem hw))
  refine ⟨fun r hr => ?_, fun he => h.linked.kinds _ hv (he ▸ hp)⟩
  have hr' : r = w.vars ∨ r = w.pars := by simpa [Weight.registries] using hr
  rcases hr' with rfl | rfl
  · exact h.linked.bounded _ ((Model.decay d).varRegistries_subset hv)
  · exact h.linked.bounded _ ((Model.decay d).parRegistries_subset hp)

omit [Scalar α] in
/-- The item of a list, put into a context. -/
theorem Composite.itemAt_bind_eq_ok {β γ : Type} {xs : List β} {i : Int} {k : β → γ} {y : γ}
    (h : (do return k (← itemAt xs i) : Except (Fault α) γ) = .ok y) : ∃ x ∈ xs, y = k x := by
  obtain ⟨x, hx, hy⟩ := bind_eq_ok_iff.mp h
  exact ⟨x, itemAt_mem hx, (Except.ok.inj hy).symm⟩

/-- **A part of a valid object is valid.** -/
theorem Object.part_valid {s : Store α} {o x : Object α} (ho : o.Valid s) {name : String}
    {i : Int} (h : o.part name i = .ok x) : x.Valid s := by
  cases o with
  | density d =>
    cases d with
    | composite p =>
      simp only [Object.part] at h
      split_ifs at h
      obtain ⟨m, hm, rfl⟩ := Composite.itemAt_bind_eq_ok h
      exact Composite.Valid.models ho m hm
    | model m =>
      cases m with
      | decay d =>
        simp only [Object.part] at h
        split at h
        · obtain ⟨w, hw, rfl⟩ := Composite.itemAt_bind_eq_ok h
          exact Model.Valid.weight ho hw
        · obtain rfl := Except.ok.inj h
          exact Model.Valid.amplitude ho
        · obtain rfl := Except.ok.inj h
          trivial
        · cases h
      | _ => cases h
  | _ => cases h

/-- A cell that a valid object holds exists. -/
theorem Object.member_bounded {s : Store α} (hs : s.Sound) {o : Object α} (ho : o.Valid s)
    {kind : CellKind} {name : String} {c : CellId} (h : o.member s kind name = .ok c) :
    c.index < s.cells.size := by
  have hheld : ∀ r, o.registry? s kind = some r → s.Holds r := by
    intro r hr
    cases o with
    | expression k e =>
      obtain rfl := Option.some.inj hr
      exact ho
    | registry q => exact absurd ho id
    | density d =>
      obtain rfl := Option.some.inj hr
      exact hs _
    | weight w =>
      obtain rfl := Option.some.inj hr
      exact hs _
    | amplitude a =>
      obtain rfl := Option.some.inj hr
      exact hs _
    | _ => cases hr
  unfold Object.member at h
  split at h
  · rename_i r hr
    split at h
    · rename_i c' hc
      obtain rfl := Except.ok.inj h
      exact (hheld r hr).find?_bounded hc
    · cases h
  · cases h

/-! ### Calls keep objects valid -/

section

variable {s : Store α} {os : List (Object α)}

theorem Held.cell_bounded (hos : ∀ o ∈ os, o.Valid s) {i : Nat} {c : CellId}
    (h : Held.cell os i = .ok c) : c.index < s.cells.size :=
  hos _ (List.mem_of_getElem? (Held.cell_eq_ok h))

theorem Held.cells_bounded (hos : ∀ o ∈ os, o.Valid s) {is : List Nat} {cs : List CellId}
    (h : is.mapM (Held.cell os) = .ok cs) : ∀ c ∈ cs, c.index < s.cells.size := by
  intro c hc
  obtain ⟨i, -, hi⟩ := mem_of_mapM_eq_ok h c hc
  exact Held.cell_bounded hos hi

theorem Held.terms_valid (hos : ∀ o ∈ os, o.Valid s) {ts : List (Nat × Nat × Nat)}
    {es : List (CellId × CellId × Amplitude α)} (h : ts.mapM (Held.term os) = .ok es) :
    ∀ e ∈ es, e.1.index < s.cells.size ∧ e.2.1.index < s.cells.size ∧ e.2.2.Valid s := by
  intro e he
  obtain ⟨t, -, ht⟩ := mem_of_mapM_eq_ok h e he
  obtain ⟨re, hre, ht⟩ := bind_eq_ok_iff.mp ht
  obtain ⟨im, him, ht⟩ := bind_eq_ok_iff.mp ht
  obtain ⟨a, ha, ht⟩ := bind_eq_ok_iff.mp ht
  obtain rfl := Except.ok.inj ht
  exact ⟨Held.cell_bounded hos hre, Held.cell_bounded hos him,
    hos _ (List.mem_of_getElem? (Held.amplitude_eq_ok ha))⟩

/-- The objects that are added are valid; what was there stays so. -/
def Call.Adds (s : Store α) (x : Run α (List (Object α))) : Prop :=
  x.Ends s (fun new t => s.Evolves t ∧ ∀ o ∈ new, o.Valid t) s.Evolves

/-- A constructor adds one object. -/
theorem Call.adds_one {β : Type} {x : Run α β} {k : β → Object α} {P : β → Store α → Prop}
    (hx : x.Ends s (fun b t => s.Extends t ∧ P b t) s.Extends)
    (hk : ∀ b t, P b t → (k b).Valid t) : Adds s (x >>= fun b => pure [k b]) := by
  refine Run.Ends.bind (hx.mono (fun _ _ h => h) fun t ht => ht.evolves) fun b t hb => ?_
  refine Run.ends_pure ⟨hb.1.evolves, fun o ho => ?_⟩
  rw [List.mem_singleton.mp ho]
  exact hk b t hb.2

/-- An object that is found among others is added. -/
theorem Call.adds_found (hs : s.Sound) {o : Object α} (ho : o.Valid s) : Adds s (pure [o]) :=
  Run.ends_pure ⟨Store.Evolves.refl hs, fun _ hx => (List.mem_singleton.mp hx).symm ▸ ho⟩

/-- A change adds none. -/
theorem Call.adds_none {β : Type} {x : Run α β}
    (hx : x.Ends s (fun _ t => s.Evolves t) s.Evolves) : Adds s (x >>= fun _ => pure []) :=
  Run.Ends.bind hx fun _ t ht => Run.ends_pure ⟨ht, by simp⟩

/-- **A call keeps a session valid**, whether it succeeds or fails. -/
theorem Call.run_spec (hs : s.Sound) (hos : ∀ o ∈ os, o.Valid s) (c : Call α) :
    Adds s (c.run os) := by
  have hself := Store.Evolves.refl hs
  have hcell : ∀ {i c}, Held.cell os i = .ok c → c.index < s.cells.size :=
    Held.cell_bounded hos
  cases c with
  | cell x =>
    have hnew : (Run.newCell x).outcome s = (.ok ⟨s.cells.size⟩, s.addCell x) := rfl
    refine adds_one (k := .cell) (P := fun c t => c.index < t.cells.size) (Run.ends_of_ok hnew ?_)
      fun _ _ h => h
    refine ⟨(Store.Extends.refl hs).addCell x, ?_⟩
    rw [Store.size_addCell]
    exact Nat.lt_succ_self _
  | setCell i value error =>
    refine Run.ends_reading_bind hself fun c _ => adds_none ?_
    exact (Run.setMeasured_keeps (C := Set.univ) (D := Set.univ) (Set.mem_univ c) value error s
      (Store.Inside.refl hs)).mono (fun _ _ h => h.evolves) fun _ h => h.evolves
  | expression program pars =>
    refine Run.ends_reading_bind hself fun cs hcs => Run.ends_reading_bind hself fun r hr => ?_
    exact adds_found hs
      (Run.gather_holds (Store.holds_empty s) (Held.cells_bounded hos hcs) hr)
  | flat z => exact adds_one (k := .amplitude) (Run.newFlat_spec hs z) fun _ _ h => h
  | resonance mass width channel =>
    refine Run.ends_reading_bind hself fun m hm => Run.ends_reading_bind hself fun w hw => ?_
    exact adds_one (k := .amplitude) (Run.newResonance_spec hs (hcell hm) (hcell hw) channel)
      fun _ _ h => h
  | sum terms =>
    refine Run.ends_reading_bind hself fun es hes => ?_
    exact adds_one (k := .amplitude) (Run.newSum_spec hs (Held.terms_valid hos hes)) fun _ _ h => h
  | weight name args body vars pars =>
    refine Run.ends_reading_bind hself fun vs hvs => Run.ends_reading_bind hself fun ps hps => ?_
    exact adds_one (k := .weight) (Run.newWeight_spec hs name args body
      (Held.cells_bounded hos hvs) (Held.cells_bounded hos hps)) fun _ _ h => h
  | gaussian name x mu sigma =>
    refine Run.ends_reading_bind hself fun cx hx => Run.ends_reading_bind hself fun cm hm =>
      Run.ends_reading_bind hself fun cw hw => ?_
    exact adds_one (k := fun m => .density (.model m)) (Run.newGaussian_spec hs name (hcell hx)
      (hcell hm) (hcell hw)) fun _ _ h => h
  | uniform name x lo hi =>
    refine Run.ends_reading_bind hself fun cx hx => ?_
    exact adds_one (k := fun m => .density (.model m)) (Run.newUniform_spec hs name lo hi
      (hcell hx)) fun _ _ h => h
  | formula name vars pars body =>
    refine Run.ends_reading_bind hself fun vs hvs => Run.ends_reading_bind hself fun ps hps => ?_
    exact adds_one (k := fun m => .density (.model m)) (Run.newFormula_spec hs name
      (Held.cells_bounded hos hvs) (Held.cells_bounded hos hps) body) fun _ _ h => h
  | decay name m12 m13 m23 a space resolution envelope maxAttempts source =>
    refine Run.ends_reading_bind hself fun c12 h12 => Run.ends_reading_bind hself fun c13 h13 =>
      Run.ends_reading_bind hself fun c23 h23 => Run.ends_reading_bind hself fun b hb => ?_
    have hroles : ∀ c ∈ [c12, c13, c23], c.index < s.cells.size := by
      simp only [List.forall_mem_cons, List.not_mem_nil, false_imp_iff, implies_true, and_true]
      exact ⟨hcell h12, hcell h13, hcell h23⟩
    exact adds_one (k := fun d => .density (.model (.decay d))) (Run.newDecay_spec hs name space
      resolution envelope maxAttempts source hroles
      (hos _ (List.mem_of_getElem? (Held.amplitude_eq_ok hb)))) fun _ _ h => h
  | part name i o =>
    refine Run.ends_reading_bind hself fun x hx => Run.ends_reading_bind hself fun y hy => ?_
    exact adds_found hs
      (Object.part_valid (hos _ (List.mem_of_getElem? (Held.object_eq_ok hx))) hy)
  | member kind name o =>
    refine Run.ends_reading_bind hself fun x hx => Run.ends_reading_bind hself fun c hc => ?_
    exact adds_found hs
      (Object.member_bounded hs (hos _ (List.mem_of_getElem? (Held.object_eq_ok hx))) hc)
  | make m =>
    refine adds_one (k := id) (P := fun o t => o.Valid t) ?_ fun _ _ h => h
    exact (m.run_spec hs hos).mono (fun o t h => ⟨h.apart.toExtends, h.valid⟩)
      fun t h => h.toExtends
  | set i σ =>
    refine Run.ends_reading_bind hself fun d hd => adds_none ?_
    have hval : d.Valid s := hos _ (List.mem_of_getElem? (Held.density_eq_ok hd))
    exact (σ.perform_keeps hval.covers.1 hval.covers.2 (fun _ _ => Set.mem_univ _) s
      (Store.Inside.refl hs)).mono (fun _ _ h => h.evolves) fun _ h => h.evolves
  | fit minimizer i data options =>
    refine Run.ends_reading_bind hself fun d hd => ?_
    have hval : d.Valid s := hos _ (List.mem_of_getElem? (Held.density_eq_ok hd))
    have hfit := (fit_keeps hval.covers.2 (fun _ _ => Set.mem_univ _) minimizer data options s
      (Store.Inside.refl hs)).mono (fun _ _ h => h.evolves) fun _ h => h.evolves
    refine hfit.bind fun r t ht => Run.ends_pure ⟨ht, fun o ho => ?_⟩
    rw [List.mem_singleton.mp ho]
    trivial
  | tune i resolution envelope maxAttempts =>
    refine Run.ends_reading_bind hself fun d _ => adds_none ?_
    exact Run.ends_modify (Store.evolves_putState hs _ _)

end

namespace Session

/-- An object that is there after a call was there before it, or the call has added it. -/
theorem mem_objects_step {σ : Session α} {c : Call α} {o : Object α}
    (ho : o ∈ (σ.step c).objects) : o ∈ σ.objects ∨
      ∃ new, o ∈ new ∧ (c.run σ.objects).outcome σ.store = (.ok new, (σ.step c).store) := by
  unfold step at ho ⊢
  rcases hx : (c.run σ.objects).outcome σ.store with ⟨e | new, t⟩
  · rw [hx] at ho
    exact .inl ho
  · rw [hx] at ho
    exact (List.mem_append.mp ho).imp_right fun ho => ⟨new, ho, rfl⟩

/-- The store of a session grows and stays sound. -/
theorem Valid.evolves {σ : Session α} (h : σ.Valid) (c : Call α) :
    σ.store.Evolves (σ.step c).store := by
  have hspec := c.run_spec h.sound h.objects
  unfold Session.step
  rcases hx : (c.run σ.objects).outcome σ.store with ⟨e | new, t⟩
  · exact hspec.error hx
  · exact (hspec.ok hx).1

/-- **The objects of a session stay valid.** -/
theorem Valid.step {σ : Session α} (h : σ.Valid) (c : Call α) : (σ.step c).Valid where
  sound := (h.evolves c).sound
  objects o ho := by
    rcases mem_objects_step ho with hold | ⟨new, hnew, hrun⟩
    · exact (h.objects o hold).grows (h.evolves c).toGrows
    · exact ((c.run_spec h.sound h.objects).ok hrun).2 o hnew

theorem Valid.run {σ : Session α} (h : σ.Valid) : ∀ calls : List (Call α),
    (calls.foldl Session.step σ).Valid
  | [] => h
  | c :: rest => Valid.run (h.step c) rest

theorem Valid.run_evolves {σ : Session α} (h : σ.Valid) : ∀ calls : List (Call α),
    σ.store.Evolves (calls.foldl Session.step σ).store
  | [] => Store.Evolves.refl h.sound
  | c :: rest => (h.evolves c).trans ((h.step c).run_evolves rest)

/-- What a call adds to a session. -/
theorem step_ok {σ : Session α} {c : Call α} {os : List (Object α)} {t : Store α}
    (h : (c.run σ.objects).outcome σ.store = (.ok os, t)) : σ.step c = ⟨t, σ.objects ++ os⟩ := by
  unfold step
  rw [h]

/-- What a making adds to a session. -/
theorem step_make {σ : Session α} {m : Making α} {o : Object α} {t : Store α}
    (h : (m.run σ.objects).outcome σ.store = (.ok o, t)) :
    σ.step (.make m) = ⟨t, σ.objects ++ [o]⟩ := by
  refine step_ok ?_
  show (m.run σ.objects >>= fun x => pure [x]).outcome σ.store = _
  rw [Run.outcome_bind_ok _ h]
  rfl

theorem after_snoc (calls : List (Call α)) (c : Call α) :
    after (calls ++ [c]) = (after calls).step c := List.foldl_append

/-- **Whatever a session comes to is valid.** -/
theorem after_valid (calls : List (Call α)) : (after calls).Valid :=
  Valid.run ⟨Store.empty_sound, fun _ h => absurd h List.not_mem_nil⟩ calls

end Session

end DensityAlgebra
