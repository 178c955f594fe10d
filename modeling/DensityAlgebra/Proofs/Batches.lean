/-
# Batches of events

What a composite comes to at an event of a batch does not depend on the other events, and is
its value for the event alone where powers agree. Its program is run on a stack of
quantities, and one that varies is never lost from the stack: whatever is combined with it
varies as well. So a program in which a model stands comes to a quantity that varies, and a
composite with a variable has such a program, if it was made by arithmetic.

Whether there is a value does not depend on the events, and there is one if the program is
whole and the decay densities have integrals.

Key definitions: `Density.TakesPowers`, `Outline.Modelled`, `Density.InBatches`,
`Density.EventByEvent`.
Key theorems: `Program.run_uniform`, `Density.valueAt_uniform`, `Density.valueAt_returns`,
`Session.modelled_after`, `Density.eventByEvent`.
-/
import DensityAlgebra.Proofs.Views
import DensityAlgebra.Proofs.Wholeness

namespace DensityAlgebra

variable {α β E : Type} {lone : Prop}

/-! ### Programs -/

/-- What there is of several quantities in a view. -/
def Quantity.views (qs : List (Quantity E β)) (ρ : View E lone) : List (Value β) :=
  qs.map (·.view ρ)

section

variable [Scalar α] {leaf : View E lone → Leaf α → Except (Fault α) (Value α)}

theorem Program.binary_uniform {op : Operation} (hα : lone → op = .pow → Scalar.PowersAgree α)
    (p q : Quantity E α) : Uniform Quantity.view (fun r => p.Varies ∨ q.Varies → r.Varies)
      fun ρ => (numeric (leaf ρ)).binary op (p.view ρ) (q.view ρ) := by
  by_cases hop : op = .pow
  · simp only [numeric, if_pos hop]
    exact Uniform.power (fun h => hα h hop) p q
  · simp only [numeric, if_neg hop]
    exact Uniform.combine op.binary p q

/-- A step is uniform, and does not lose what varies. -/
theorem Program.step_uniform {node : Node α}
    (hα : lone → node = .binary .pow → Scalar.PowersAgree α) (hleaf : ∀ l, node = .leaf l →
      Uniform Quantity.view (fun q => ∀ i, l = .model i → q.Varies) fun ρ => leaf ρ l)
    (stack : List (Quantity E α)) :
    Uniform Quantity.views
      (fun qs => (∃ q ∈ stack, q.Varies) ∨ (∃ i, node = .leaf (.model i)) → ∃ q ∈ qs, q.Varies)
      fun ρ => step (numeric (leaf ρ)) node (Quantity.views stack ρ) := by
  cases node with
  | leaf l =>
    refine (hleaf l rfl).bind fun q hq => .inr ⟨q :: stack, ?_, fun ρ => rfl⟩
    rintro (⟨p, hp, hvaries⟩ | ⟨i, hi⟩)
    · exact ⟨p, List.mem_cons_of_mem _ hp, hvaries⟩
    · exact ⟨q, List.mem_cons_self, hq i (Node.leaf.inj hi)⟩
  | binary op =>
    cases hop : op.isBinary with
    | false =>
      simp only [step, hop]
      exact Uniform.error _
    | true =>
      simp only [step, hop]
      cases stack with
      | nil => exact Uniform.error _
      | cons right rest =>
        cases rest with
        | nil => exact Uniform.error _
        | cons left rest =>
          have hpow := fun h (heq : op = .pow) => hα h (congrArg Node.binary heq)
          simp only [Quantity.views, List.map_cons]
          refine (binary_uniform hpow left right).bind fun q hq => ?_
          refine .inr ⟨q :: rest, ?_, fun ρ => rfl⟩
          rintro (⟨p, hp, hvaries⟩ | ⟨i, hi⟩)
          · rcases List.mem_cons.mp hp with rfl | hp
            · exact ⟨q, List.mem_cons_self, hq (.inr hvaries)⟩
            rcases List.mem_cons.mp hp with rfl | hp
            · exact ⟨q, List.mem_cons_self, hq (.inl hvaries)⟩
            · exact ⟨p, List.mem_cons_of_mem _ hp, hvaries⟩
          · cases hi
  | unary op =>
    cases hop : op.isBinary with
    | true =>
      simp only [step, hop]
      exact Uniform.error _
    | false =>
      simp only [step, hop]
      cases stack with
      | nil => exact Uniform.error _
      | cons q rest =>
        refine .inr ⟨q.map op.unary :: rest, ?_, fun ρ => ?_⟩
        · rintro (⟨p, hp, hvaries⟩ | ⟨i, hi⟩)
          · rcases List.mem_cons.mp hp with rfl | hp
            · exact ⟨_, List.mem_cons_self, hvaries.map _⟩
            · exact ⟨p, List.mem_cons_of_mem _ hp, hvaries⟩
          · cases hi
        · simp only [Quantity.views, List.map_cons, Quantity.map_view]
          rfl
  | foreign x => exact Uniform.error _

/-- **A run is uniform, and does not lose what varies.** -/
theorem Program.run_uniform : ∀ (p : Program α),
    (lone → .binary .pow ∈ p → Scalar.PowersAgree α) →
    (∀ l, .leaf l ∈ p →
      Uniform Quantity.view (fun q => ∀ i, l = .model i → q.Varies) fun ρ => leaf ρ l) →
    ∀ stack : List (Quantity E α), Uniform Quantity.views
      (fun qs => (∃ q ∈ stack, q.Varies) ∨ (∃ i, .leaf (.model i) ∈ p) → ∃ q ∈ qs, q.Varies)
      fun ρ => run (numeric (leaf ρ)) p (Quantity.views stack ρ)
  | [], _, _, stack => .inr ⟨stack, by simp, fun _ => rfl⟩
  | node :: rest, hα, hleaf, stack => by
    have hpow := fun h (heq : node = .binary .pow) => hα h (heq ▸ List.mem_cons_self)
    have hnode := fun l (hl : node = .leaf l) => hleaf l (hl ▸ List.mem_cons_self)
    refine (step_uniform hpow hnode stack).bind fun qs hqs => ?_
    refine (run_uniform rest (fun h hmem => hα h (List.mem_cons_of_mem _ hmem))
      (fun l hl => hleaf l (List.mem_cons_of_mem _ hl)) qs).mono ?_
    rintro out hout (hstack | ⟨i, hi⟩)
    · exact hout (.inl (hqs (.inl hstack)))
    · rcases List.mem_cons.mp hi with hi | hi
      · exact hout (.inl (hqs (.inr ⟨i, hi.symm⟩)))
      · exact hout (.inr ⟨i, hi⟩)

/-- **A program with a model is uniform and varies.** -/
theorem Program.evaluate_uniform {p : Program α}
    (hα : lone → .binary .pow ∈ p → Scalar.PowersAgree α) (hleaf : ∀ l, .leaf l ∈ p →
      Uniform Quantity.view (fun q => ∀ i, l = .model i → q.Varies) fun ρ => leaf ρ l)
    (hmodel : ∃ i, .leaf (.model i) ∈ p) :
    Uniform Quantity.view Quantity.Varies fun ρ => p.evaluate (leaf ρ) := by
  refine (run_uniform p hα hleaf []).bind fun qs hqs => ?_
  obtain ⟨q, hq, hvaries⟩ := hqs (.inr hmodel)
  cases qs with
  | nil => exact absurd hq List.not_mem_nil
  | cons q' rest =>
    cases rest with
    | nil => exact .inr ⟨q', List.mem_singleton.mp hq ▸ hvaries, fun _ => rfl⟩
    | cons q'' rest =>
      simp only [Quantity.views, List.map_cons, List.length_cons, List.length_map]
      exact Uniform.error _

end

/-! ### Densities -/

section

variable [Scalar α] {s : Store α}

/-- The parameters of the models are among those of the density. -/
theorem Density.Valid.scalars {d : Density α} (hd : d.Valid s) (hpars : s.Scalars d.pars) :
    ∀ m ∈ d.models, m.Scalars s := fun m hm r hr =>
  hpars.of_under (hd.pars_under m hm r hr)

/-- A decay density that is needed has an integral. -/
def Density.Integrable (s : Store α) (d : Density α) : Prop :=
  ∀ k, .decay k ∈ d.models → ∃ x, k.integral s = .ok x

/-- Powers are taken, by the program or by a decay density. -/
def Density.TakesPowers (d : Density α) : Prop :=
  .binary .pow ∈ d.program ∨ ∃ k, .decay k ∈ d.models

variable {d : Density α} (hα : lone → d.TakesPowers → Scalar.PowersAgree α)

include hα

/-- **A density is uniform and varies**, if there is a model in its program. -/
theorem Density.valueAt_uniform (hd : d.Valid s) (hpars : s.Scalars d.pars)
    (helem : ∀ m ∈ d.models, m.Elementary) (hmodel : ∃ i, .leaf (.model i) ∈ d.program) :
    Uniform Quantity.view Quantity.Varies fun ρ : View (String → α) lone =>
      d.valueAt s ρ.given := by
  have hmodels : ∀ m ∈ d.models, Uniform Quantity.view Quantity.Varies
      fun ρ : View (String → α) lone => m.density s (assignedPoint ρ.given (m.varNames s)) :=
    fun m hm => Model.density_uniform (fun h k hk => hα h (.inr ⟨k, hk ▸ hm⟩)) (hd.models m hm)
      (hd.scalars hpars m hm) (helem m hm)
  cases d with
  | model m => exact hmodels m (List.mem_singleton_self m)
  | composite p =>
    refine Program.evaluate_uniform (fun h hpow => hα h (.inl hpow)) (fun l hl => ?_) hmodel
    cases l with
    | model i =>
      refine Uniform.fixed_bind fun m hm => ?_
      exact (hmodels m (Composite.itemAt_mem hm)).mono fun _ h _ _ => h
    | parameter name =>
      show Uniform _ _ fun _ : View (String → α) lone =>
        (s.value? p.pars name).elim (.error .missingKey) fun v => v.given.operand
      cases hv : s.value? p.pars name with
      | none => exact Uniform.error _
      | some v =>
        obtain ⟨x, rfl⟩ := hpars name v hv
        exact Uniform.ok (b := Quantity.shared x) nofun
    | constant x => exact Uniform.ok (b := Quantity.shared x) nofun

omit hα in
/-- **A density has a value at every event**, if its program is whole and the decay densities
have integrals. -/
theorem Density.valueAt_returns (hd : d.Valid s) (hpars : s.Scalars d.pars)
    (helem : ∀ m ∈ d.models, m.Elementary) (hc : (d.outline s).Closed) (hw : d.program.Whole)
    (hint : d.Integrable s) (e : String → α) :
    ∃ v, d.valueAt s (.batch [e] : View (String → α) False).given = .ok v := by
  set ρ : View (String → α) False := .batch [e]
  have hmodels : ∀ m ∈ d.models, ∃ y,
      m.density s (assignedPoint ρ.given (m.varNames s)) = .ok (.column [y]) := by
    intro m hm
    obtain ⟨f, hf⟩ := Model.density_returns (fun h : False => h.elim) (hd.models m hm)
      (hd.scalars hpars m hm) (helem m hm) fun k hk => hint k (hk ▸ hm)
    exact ⟨f e, hf ρ⟩
  cases d with
  | model m =>
    obtain ⟨y, hy⟩ := hmodels m (List.mem_singleton_self m)
    exact ⟨_, hy⟩
  | composite p =>
    have hleaf : ∀ l, .leaf l ∈ p.program → ∃ v,
        (p.outline s).leafValue (modelValue s ρ.given p.models) l = .ok v ∧ v.Extent 1 := by
      intro l hl
      cases l with
      | model i =>
        obtain ⟨m, hm⟩ := Composite.itemAt_of_closed hc i hl
        obtain ⟨y, hy⟩ := hmodels m (Composite.itemAt_mem hm)
        refine ⟨.column [y], ?_, rfl⟩
        show (Composite.itemAt p.models i >>= fun m => _) = _
        rw [hm]
        exact hy
      | parameter name =>
        obtain ⟨v, hv⟩ : ∃ v, s.value? p.pars name = some v :=
          Option.isSome_iff_exists.mp (hc _ hl)
        obtain ⟨x, rfl⟩ := hpars name v hv
        refine ⟨.scalar x, ?_, trivial⟩
        show (s.value? p.pars name).elim _ _ = _
        rw [hv]
        rfl
      | constant x => exact ⟨.scalar x, rfl, trivial⟩
    cases hx : (Density.composite p).valueAt s ρ.given with
    | ok v => exact ⟨v, rfl⟩
    | error f =>
      have hdefect := (Program.replay_error_iff (Program.numeric_total hleaf) f).mp hx
      exact absurd hdefect ((Program.whole_iff _).mp hw f)

end

/-! ### Programs with a model -/

/-- If there is a variable, then a model stands in the program. -/
def Outline.Modelled (o : Outline α) : Prop :=
  o.vars.Nonempty → ∃ i, .leaf (.model i) ∈ o.program

namespace Outline.Modelled

theorem empty : (Outline.empty : Outline α).Modelled := fun h => absurd h Set.not_nonempty_empty

/-- A model of either outline stands in what is joined of them. -/
theorem extended {o o' : Outline α} (h : o.Modelled) (h' : o'.Modelled) (op : Operation) :
    (o.extended op o').Modelled := by
  have happend : (o.append o').Modelled := by
    rintro ⟨n, hn | hn⟩
    · obtain ⟨i, hi⟩ := h ⟨n, hn⟩
      exact ⟨i, List.mem_append_left _ hi⟩
    · obtain ⟨i, hi⟩ := h' ⟨n, hn⟩
      exact ⟨i + o.count, List.mem_append_right _ (Program.mem_shiftModels.mpr ⟨_, hi, rfl⟩)⟩
  unfold Outline.extended
  split
  · exact happend
  · intro hvars
    obtain ⟨i, hi⟩ := happend hvars
    exact ⟨i, List.mem_append_left _ hi⟩

end Outline.Modelled

section

variable [Scalar α] {s t : Store α}

theorem Model.outline_modelled (s : Store α) (m : Model α) : (m.outline s).Modelled :=
  fun _ => ⟨0, List.mem_singleton_self _⟩

/-- Factors have no variables. -/
theorem Operand.outline_modelled {x : Operand α}
    (hd : ∀ d, x.density? = some d → (d.outline s).Modelled) : (x.outline s).Modelled := by
  rcases x.outline_cases s with ⟨d, hxd, -, hx⟩ | ⟨-, ⟨op, -, hx⟩ | ⟨e, -, hx⟩ | hx⟩ <;> rw [hx]
  · exact hd d hxd
  · exact fun h => absurd h Set.not_nonempty_empty
  · exact fun h => absurd h Set.not_nonempty_empty
  · exact Outline.Modelled.empty

/-- What was drafted of densities where a model stands has one in its program. -/
theorem Making.Drafted.modelled {os : List (Object α)} {m : Making α} {q : Composite α}
    (h : m.Drafted s t os q) (hos : ∀ d, .density d ∈ os → (d.outline s).Modelled) :
    (q.outline t).Modelled := by
  have hdensities : ∀ d ∈ m.densities os, (d.outline s).Modelled := fun d hd =>
    hos d (Making.mem_densities hd)
  cases h with
  | empty houtline => exact houtline ▸ Outline.Modelled.empty
  | @single x y _ hc hpassed hdensity houtline =>
    rw [houtline]
    exact Operand.outline_modelled fun d hd =>
      hdensities d (mem_densities_single.mpr (hdensity ▸ hd))
  | @joined _ d x _ hds _ hjoin =>
    obtain ⟨-, -, how, -, houtline⟩ := hjoin
    rw [houtline]
    exact (hdensities d (hds ▸ List.mem_cons_self)).extended
      (Operand.outline_modelled fun e he =>
        hdensities e (hds ▸ List.mem_cons_of_mem _ (Option.mem_toList.mpr he))) _
  | copied hheld houtline => exact houtline ▸ hos _ (List.mem_of_getElem? hheld)

namespace Session

/-- A model stands in the program of every density with a variable. -/
def Modelled (σ : Session α) : Prop :=
  ∀ d, .density d ∈ σ.objects → (d.outline σ.store).Modelled

/-- One more call of arithmetic leaves that so. -/
theorem Modelled.step {σ : Session α} (hσ : σ.Valid) (hcl : σ.Closed) (h : σ.Modelled)
    {c : Call α} (hc : c.Arithmetic σ) : (σ.step c).Modelled := by
  intro d hd
  cases d with
  | model m => exact m.outline_modelled _
  | composite p =>
    rcases mem_objects_step hd with hold | ⟨new, hnew, hrun⟩
    · have hp : Composite.Valid σ.store p := hσ.objects _ hold
      have hnames := (hσ.evolves c).toGrows.registries p.vars hp.bounded.1
      rintro ⟨n, hn⟩
      refine h _ hold ⟨n, ?_⟩
      show n ∈ (σ.store.registry p.vars).names
      exact hnames ▸ hn
    · rcases (Call.run_draws hσ hcl hc).ok hrun _ hnew with ⟨m, -, hdraws⟩ | hprimitive
      · exact Making.Drafted.modelled hdraws h
      · exact absurd hprimitive id

theorem modelled_after {calls : List (Call α)} (h : Throughout Call.Arithmetic start calls) :
    (after calls).Modelled :=
  h.invariant_of_closed (fun _ _ hc => hc) (fun _ _ hσ hcl hm hc => Modelled.step hσ hcl hm hc)
    fun _ hd => absurd hd List.not_mem_nil

end Session

/-! ### Event by event -/

/-- The columns of a batch of events are given, in a row or by name. -/
def Density.Gives (s : Store α) (d : Density α) (es : List (String → α)) (input : Input α) : Prop :=
  input.Assigns (fun n => .value (.column (es.map (· n)))) (d.varNames s)

/-- For every batch of events, the density comes to the column of what `f` says of each, or
fails as `f` does. A batch may be one event. -/
def Density.InBatches (s : Store α) (d : Density α) (f : Except (Fault α) ((String → α) → α)) :
    Prop :=
  ∀ (es : List (String → α)) (input : Input α), d.Gives s es input →
    d.evaluate s input = do return .column (es.map (← f))

/-- For every event alone, and for every batch of events, the density comes to what `f` says,
or fails as `f` does. -/
structure Density.EventByEvent (s : Store α) (d : Density α)
    (f : Except (Fault α) ((String → α) → α)) : Prop where
  event : ∀ (e : String → α) (input : Input α),
    input.Assigns (fun n => .value (.scalar (e n))) (d.varNames s) →
      d.evaluate s input = do return .scalar ((← f) e)
  batch : d.InBatches s f

/-- Columns of one length, one for each name, are those of a batch of events. -/
theorem exists_events {names : List String} (hnames : names.Nodup) {n : ℕ}
    {columns : List (List α)} (hn : ∀ c ∈ columns, c.length = n)
    (hlength : columns.length = names.length) : ∃ es : List (String → α),
      es.length = n ∧ columns = names.map fun v => es.map (· v) := by
  obtain ⟨column, rfl⟩ := exists_eq_map [] hnames hlength
  refine ⟨(List.range n).map fun i v => (column v).getD i 0.0, by simp, ?_⟩
  refine List.map_congr_left fun v hv => ?_
  have hcolumn : (column v).length = n := hn _ (List.mem_map_of_mem hv)
  rw [List.map_map]
  refine List.ext_getElem (by simp [hcolumn]) fun i hi _ => ?_
  rw [List.getElem_map, List.getElem_range]
  show _ = (column v).getD i 0.0
  rw [List.getD_eq_getElem?_getD, List.getElem?_eq_getElem hi, Option.getD_some]

omit [Scalar α] in
/-- What is uniform and varies is a function of events, or a fault. -/
theorem Uniform.exists_function {x : View E lone → Except (Fault α) (Value β)}
    (h : Uniform Quantity.view Quantity.Varies x) : ∃ f : Except (Fault α) (E → β),
      (∀ hlone e, x (.event hlone e) = do return .scalar ((← f) e)) ∧
        ∀ es, x (.batch es) = do return .column (es.map (← f)) := by
  rcases h with ⟨e, he⟩ | ⟨q, hq, hx⟩
  · exact ⟨.error e, fun _ _ => he _, fun _ => he _⟩
  · obtain ⟨f, rfl⟩ := hq.exists_eq
    exact ⟨.ok f, fun _ _ => hx _, fun _ => hx _⟩

/-- **A density is evaluated in batches**, and event by event if powers agree. -/
theorem Density.eventByEvent {d : Density α} (hd : d.Valid s) (hpars : s.Scalars d.pars)
    (helem : ∀ m ∈ d.models, m.Elementary) (hmodel : ∃ i, .leaf (.model i) ∈ d.program) :
    ∃ f, d.InBatches s f ∧ ((d.TakesPowers → Scalar.PowersAgree α) → d.EventByEvent s f) := by
  obtain ⟨f, hevent, hbatch⟩ := (valueAt_uniform (fun h => h) hd hpars helem hmodel).exists_function
  have hbatches : d.InBatches s f := fun es input h =>
    (evaluate_assigned hd h).trans (hbatch es)
  exact ⟨f, hbatches, fun hα =>
    ⟨fun e input h => (evaluate_assigned hd h).trans (hevent hα e), hbatches⟩⟩

/-- **There are values**, if the program is whole and the decay densities have integrals. -/
theorem Density.InBatches.returns {d : Density α} {f : Except (Fault α) ((String → α) → α)}
    (h : d.InBatches s f) (hd : d.Valid s) (hpars : s.Scalars d.pars)
    (helem : ∀ m ∈ d.models, m.Elementary) (hc : (d.outline s).Closed) (hw : d.program.Whole)
    (hint : d.Integrable s) : ∃ g, f = .ok g := by
  -- the event where all variables are zero
  obtain ⟨v, hv⟩ := valueAt_returns hd hpars helem hc hw hint fun _ => 0.0
  have hrow := Input.assigns_sequence (d.varNames s) fun _ => (.column [0.0] : Value α)
  have hzero := (h [fun _ => 0.0] _ hrow).symm.trans ((evaluate_assigned hd hrow).trans hv)
  cases f with
  | error e => cases hzero
  | ok g => exact ⟨g, rfl⟩

end

end DensityAlgebra
