/-
# Programs and registries are coherent

Appending an operand to a composite changes its program, its models and its two registries,
each by itself. They stay coherent: the model leaves of the program, from left to right,
carry the positions of the models; the variables are those of the models; and the parameters
are those of the models and those at the leaves. Nothing that is looked up for a leaf is
missing then, whatever is asked of the composite.

What arithmetic makes of parameters and numbers names every parameter that it holds; an
expression that is given by a program and cells has to.

Key definitions: `Program.indices`, `Outline.Coherent`, `Composite.Coherent`,
`Composite.Finds`, `Expression.Exact`, `Call.Exact`.
Key theorems: `Outline.Coherent.extended`, `Expression.From.exact`, `Making.Draws.coherent`,
`Composite.Coherent.finds`, `Session.composites_coherent`.
-/
import DensityAlgebra.Proofs.Wholeness

namespace DensityAlgebra

variable {α β : Type}

/-! ### Model leaves -/

namespace Program

/-- The positions at the model leaves, from left to right. -/
def indices (p : Program α) : List Int :=
  p.filterMap fun
    | .leaf (.model i) => some i
    | _ => none

theorem indices_append (p q : Program α) : indices (p ++ q) = p.indices ++ q.indices :=
  List.filterMap_append

theorem mem_indices {p : Program α} {i : Int} : i ∈ p.indices ↔ .leaf (.model i) ∈ p := by
  rw [indices, List.mem_filterMap]
  constructor
  · rintro ⟨node, hn, heq⟩
    split at heq
    · obtain rfl := Option.some.inj heq
      exact hn
    · cases heq
  · exact fun h => ⟨_, h, rfl⟩

theorem indices_shift (p : Program α) (k : Nat) :
    (p.shiftModels k).indices = p.indices.map (· + (k : Int)) := by
  rw [shiftModels_eq_map]
  induction p with
  | nil => rfl
  | cons node rest ih =>
    rcases node with (i | _ | _) | _ | _ | _
    · exact congrArg (List.cons (i + (k : Int))) ih
    all_goals exact ih

theorem mem_shiftModels_parameter {p : Program α} {k : Nat} {n : String} :
    .leaf (.parameter n) ∈ p.shiftModels k ↔ .leaf (.parameter n) ∈ p := by
  rw [mem_shiftModels]
  constructor
  · rintro ⟨l, hl, heq⟩
    cases l with
    | parameter m => rwa [Leaf.parameter.inj heq]
    | _ => cases heq
  · exact fun h => ⟨_, h, rfl⟩

end Program

/-! ### Coherent outlines -/

/-- Names of variables and of parameters. -/
@[ext]
structure Names where
  vars : Set String
  pars : Set String

namespace Outline

/-- The names in an outline. -/
def names (o : Outline α) : Names := ⟨o.vars, {n | (o.pars n).isSome = true}⟩

/-- The outline is over models with these names: the model leaves carry their positions, the
variables are theirs, and the parameters theirs or those at the leaves. -/
structure Coherent (o : Outline α) (parts : List Names) : Prop where
  count : o.count = parts.length
  indices : o.program.indices = (List.range parts.length).map Int.ofNat
  vars : ∀ n, n ∈ o.vars ↔ ∃ x ∈ parts, n ∈ x.vars
  pars : ∀ n, (o.pars n).isSome = true ↔
    (∃ x ∈ parts, n ∈ x.pars) ∨ .leaf (.parameter n) ∈ o.program

namespace Coherent

variable {o o' : Outline α} {parts parts' : List Names}

theorem empty : (empty : Outline α).Coherent [] where
  count := rfl
  indices := rfl
  vars := by simp [Outline.empty]
  pars := by simp [Outline.empty]

/-- The models of the second outline are numbered on after those of the first one. -/
theorem append (h : o.Coherent parts) (h' : o'.Coherent parts') :
    (o.append o').Coherent (parts ++ parts') where
  count := by rw [List.length_append, ← h.count, ← h'.count]; rfl
  indices := by
    show Program.indices (o.program ++ o'.program.shiftModels o.count) = _
    rw [Program.indices_append, Program.indices_shift, h.indices, h'.indices, h.count,
      List.length_append, List.range_add, List.map_append, List.map_map, List.map_map]
    congr 1
    refine List.map_congr_left fun i _ => ?_
    show (i : Int) + parts.length = ((parts.length + i : Nat) : Int)
    omega
  vars n := by
    show n ∈ o.vars ∪ o'.vars ↔ _
    simp only [Set.mem_union, h.vars, h'.vars, List.mem_append, or_and_right, exists_or]
  pars n := by
    show ((o.pars n).or (o'.pars n)).isSome = true ↔
      _ ∨ _ ∈ o.program ++ o'.program.shiftModels o.count
    simp only [Option.isSome_or, Bool.or_eq_true, h.pars, h'.pars, List.mem_append, or_and_right,
      exists_or, Program.mem_shiftModels_parameter]
    exact or_or_or_comm

theorem operated (h : o.Coherent parts) (op : Operation) : (o.operated op).Coherent parts where
  count := h.count
  indices := by
    show Program.indices (o.program ++ [.binary op]) = _
    rw [Program.indices_append, h.indices]
    exact List.append_nil _
  vars := h.vars
  pars n := by
    show (o.pars n).isSome = true ↔ _ ∨ _ ∈ o.program ++ [.binary op]
    simp [h.pars]

/-- **What is joined from coherent outlines is coherent.** -/
theorem extended (h : o.Coherent parts) (h' : o'.Coherent parts') (op : Operation) :
    (extended op o o').Coherent (parts ++ parts') := by
  unfold Outline.extended
  split
  · exact h.append h'
  · exact (h.append h').operated op

/-- A coherent outline is over its own models and parameters. -/
theorem closed (h : o.Coherent parts) : o.Closed := by
  intro l hl
  cases l with
  | model i =>
    have hmem := Program.mem_indices.mpr hl
    rw [h.indices] at hmem
    obtain ⟨k, hk, rfl⟩ := List.mem_map.mp hmem
    have hlt := List.mem_range.mp hk
    refine ⟨Int.natCast_nonneg k, ?_⟩
    rw [h.count]
    exact Int.ofNat_lt.mpr hlt
  | parameter n => exact (h.pars n).mpr (.inr hl)
  | constant x => trivial

/-- Only which parameters there are matters, not their values. -/
theorem congr (h : o.Coherent parts) (hprogram : o'.program = o.program)
    (hcount : o'.count = o.count) (hnames : o'.names = o.names) : o'.Coherent parts where
  count := hcount.trans h.count
  indices := hprogram ▸ h.indices
  vars n := by
    rw [← h.vars, show o'.vars = o.vars from congrArg Names.vars hnames]
  pars n := by
    rw [hprogram, ← h.pars]
    exact iff_of_eq (congrArg (n ∈ ·.pars) hnames)

end Coherent

end Outline

/-! ### Exact expressions -/

/-- The expression is one of arithmetic, and it holds no parameters but those it names. -/
def Expression.Exact (e : Expression α) : Prop :=
  e.Arithmetic ∧ ∀ n ∈ e.pars.names, .leaf (.parameter n) ∈ e.program

namespace Expression

/-- **What is made of exact expressions is exact.** -/
theorem From.exact {given : Set (Expression α)} {e : Expression α} (h : e.From given)
    (hgiven : ∀ e ∈ given, e.Exact) : e.Exact := by
  refine ⟨h.arithmetic fun e he => (hgiven e he).1, ?_⟩
  induction h with
  | given mem => exact (hgiven _ mem).2
  | parameter name c => simp [ofParameter, Registry.names]
  | number x => simp [ofNumber, Registry.names, Registry.empty]
  | @combine op l r _ _ _ ihl ihr =>
    intro n hn
    rcases (Registry.mem_names_update l.pars.entries r.pars n).mp hn with hn | hn
    · exact List.mem_append_left _ (List.mem_append_right _ (ihr n hn))
    · exact List.mem_append_left _ (List.mem_append_left _ (ihl n hn))
  | negate _ ih => exact fun n hn => List.mem_append_left _ (ih n hn)
  | copied _ g ih => exact fun n hn => ih n (by simpa using hn)

variable [Scalar α]

/-- An exact expression is coherent, without models. -/
theorem Exact.coherent {e : Expression α} (h : e.Exact) (s : Store α) :
    (e.outline s).Coherent [] where
  count := rfl
  indices := by
    refine List.eq_nil_iff_forall_not_mem.mpr fun i hi => ?_
    obtain ⟨h0, hlt⟩ := h.1.2 _ (Program.mem_indices.mp hi)
    exact absurd hlt (by simpa using h0)
  vars n := by simp [outline]
  pars n := by
    have hheld : ((e.outline s).pars n).isSome = true ↔ n ∈ e.pars.names := by
      rw [← Registry.isSome_find?]
      exact iff_of_eq (congrArg (· = true) Option.isSome_map)
    rw [hheld]
    exact ⟨fun hn => .inr (h.2 n hn), fun hn => hn.elim (by simp) fun hl => h.1.2 _ hl⟩

end Expression

/-! ### Names of models -/

variable [Scalar α]

section

variable {s t : Store α}

/-- The names of a model. -/
def Model.names (s : Store α) (m : Model α) : Names := (m.outline s).names

theorem Model.mem_names_vars {m : Model α} {n : String} :
    n ∈ (m.names s).vars ↔ n ∈ m.varNames s := Registry.mem_sortNames.symm

theorem Model.mem_names_pars {m : Model α} {n : String} :
    n ∈ (m.names s).pars ↔ n ∈ m.parNames s :=
  Store.isSome_value?.trans Registry.mem_sortNames.symm

theorem Density.outline_names (s : Store α) (d : Density α) : (d.outline s).names =
    ⟨{n | n ∈ (s.registry d.vars).names}, {n | n ∈ (s.registry d.pars).names}⟩ := by
  refine Names.ext ?_ (Set.ext fun n => ?_)
  · cases d <;> rfl
  · show ((d.outline s).pars n).isSome = true ↔ _
    rw [d.outline_pars]
    exact Store.isSome_value?

/-- A model that was carried over has its names. -/
theorem Model.Carried.names_eq {given : String → Option (Content α)} {m m' : Model α}
    (h : Carried given s t m m') : m'.names t = m.names s := by
  obtain ⟨f, hc⟩ := h
  have hhead : ∀ r ∈ m.registries, (t.registry (f r)).names = (s.registry r).names := hc.names
  refine (Density.outline_names t (.model m')).trans
    (Eq.trans ?_ (Density.outline_names s (.model m)).symm)
  show Names.mk {n | n ∈ (t.registry m'.head.vars).names} {n | n ∈ (t.registry m'.head.pars).names} = _
  rw [show m'.head = m.head.rename f from hc.shape.head]
  show Names.mk {n | n ∈ (t.registry (f m.head.vars)).names}
    {n | n ∈ (t.registry (f m.head.pars)).names} = _
  rw [hhead _ (m.varRegistries_subset m.head_vars_mem),
    hhead _ (m.parRegistries_subset m.head_pars_mem)]
  rfl

/-- A composite's models have the names of the models of what it is made of. -/
theorem Composite.Composed.names {b : Store α} {ds : List (Density α)} {q : Composite α}
    (h : Composed b s t ds q) :
    q.models.map (Model.names t) = (ds.flatMap Density.models).map (Model.names s) := by
  obtain ⟨ls, rs, hq, hl, hr⟩ := h.models
  have hcarried : ∀ {given} {ms ms' : List (Model α)},
      List.Forall₂ (Model.Carried given s t) ms ms' →
        ms'.map (Model.names t) = ms.map (Model.names s) := by
    intro given ms ms' hms
    induction hms with
    | nil => rfl
    | cons hm _ ih => rw [List.map_cons, List.map_cons, ih, hm.names_eq]
  rw [hq, List.map_append, hcarried hl, hcarried hr, ← List.map_append, ← List.flatMap_append,
    List.take_append_drop]

/-- A density keeps its names while its registries hold what they held. -/
theorem Density.names_of_grows {d : Density α} (hd : d.Valid s) (hst : s.Grows t) :
    (d.outline t).names = (d.outline s).names := by
  rw [d.outline_names, d.outline_names, hst.registries _ hd.vars_bounded,
    hst.registries _ hd.pars_bounded]

/-- So do its models. -/
theorem Density.models_names_of_grows {d : Density α} (hd : d.Valid s) (hst : s.Grows t) :
    d.models.map (Model.names t) = d.models.map (Model.names s) :=
  List.map_congr_left fun m hm => names_of_grows (d := .model m) (hd.models m hm) hst

/-! ### Coherent objects -/

/-- The outline of the density is coherent with its models. -/
def Density.Coherent (s : Store α) (d : Density α) : Prop :=
  (d.outline s).Coherent (d.models.map (Model.names s))

/-- Densities are coherent, and expressions exact. -/
def Object.Coherent (s : Store α) : Object α → Prop
  | .density d => d.Coherent s
  | .expression _ e => e.Exact
  | _ => True

theorem Model.coherent (s : Store α) (m : Model α) : (Density.model m).Coherent s where
  count := rfl
  indices := rfl
  vars n := by simp [Density.models, names, Outline.names, Density.outline]
  pars n := by simp [Density.models, names, Outline.names, Density.outline, outline]

/-- Where a density was coherent, it stays so. -/
theorem Density.Coherent.grows {d : Density α} (h : d.Coherent s) (hd : d.Valid s)
    (hst : s.Grows t) : d.Coherent t := by
  show (d.outline t).Coherent _
  rw [models_names_of_grows hd hst]
  refine Outline.Coherent.congr h ?_ ?_ (Density.names_of_grows hd hst)
  · rw [d.outline_program, d.outline_program]
  · cases d <;> rfl

theorem Object.Coherent.grows {o : Object α} (h : o.Coherent s) (ho : o.Valid s)
    (hst : s.Grows t) : o.Coherent t := by
  cases o with
  | density d => exact Density.Coherent.grows h ho hst
  | expression k e => exact h
  | _ => trivial

theorem Object.Coherent.closed {o : Object α} (h : o.Coherent s) : o.Closed s := by
  cases o with
  | density d => exact Outline.Coherent.closed h
  | expression k e => exact h.1
  | _ => trivial

variable {os : List (Object α)}

/-- What stands beside an operator is coherent with its models, if its density is and its
expression is exact. -/
theorem Operand.outline_coherent {x : Operand α}
    (hd : ∀ d, x.density? = some d → d.Coherent s)
    (he : ∀ e, x = .expression e → e.Exact) :
    (x.outline s).Coherent (x.models.map (Model.names s)) := by
  have hexact : ∀ e, x.lift? s = some e → e.Exact := fun e hl =>
    (Operand.lift?_from (List.mem_singleton_self x) hl).exact fun e' he' =>
      he e' (List.mem_singleton.mp he').symm
  rcases x.outline_cases s with ⟨d, hxd, hm, hx⟩ | ⟨hm, ⟨op, -, hx⟩ | ⟨e, hl, hx⟩ | hx⟩ <;>
    rw [hm, hx]
  · exact hd d hxd
  · exact Outline.Coherent.empty.operated op
  · exact (hexact e hl).coherent s
  · exact .empty

/-- **What is made of coherent objects is coherent.** -/
theorem Making.Draws.coherent {m : Making α} {o : Object α} (h : m.Draws s t os o)
    (hmakes : m.Makes s t os o) (hos : ∀ o ∈ os, o.Coherent s) : o.Coherent t := by
  have hdensities : ∀ d ∈ m.densities os, d.Coherent s :=
    fun d hd => hos _ (Making.mem_densities hd)
  have hexact : ∀ e ∈ Object.expressions os, e.Exact := by
    rintro e ⟨k, hk⟩
    exact hos _ hk
  cases o with
  | density d =>
    cases d with
    | model k => exact k.coherent t
    | composite q =>
      have hnames := (hmakes.composed q rfl).names
      show (q.outline t).Coherent (q.models.map (Model.names t))
      rw [hnames]
      cases h with
      | empty houtline => exact houtline ▸ .empty
      | @single x y _ _ hpassed hdensity houtline =>
        rw [houtline, densities_single, ← hdensity, ← Operand.models_eq]
        exact Operand.outline_coherent
          (fun d hd => hdensities d (mem_densities_single.mpr (hdensity ▸ hd)))
          fun e he => hexact e (Passed.expression_of_operand (he ▸ hpassed))
      | @joined _ d y _ hds hgiven hjoin =>
        obtain ⟨-, -, how, -, houtline⟩ := hjoin
        rw [houtline, hds, List.flatMap_cons, List.map_append, ← Operand.models_eq]
        exact (hdensities d (hds ▸ List.mem_cons_self)).extended
          (Operand.outline_coherent
            (fun e he => hdensities e (hds ▸ List.mem_cons_of_mem _ (Option.mem_toList.mpr he)))
            fun e he => (hgiven e he).exact hexact) _
      | @copied i p _ hheld houtline =>
        rw [houtline, densities_copy hheld, List.flatMap_singleton]
        exact hos _ (List.mem_of_getElem? hheld)
  | expression k e => exact Expression.From.exact h hexact
  | _ => trivial

end

/-! ### Where a replay fails -/

/-- A leaf of the program has no operand, or operands do not combine at one of its operators. -/
def Interpretation.FailsAt (I : Interpretation α β) (p : Program α) (e : Fault α) : Prop :=
  (∃ l, .leaf l ∈ p ∧ I.leaf l = .error e) ∨
    (∃ op x y, .binary op ∈ p ∧ I.binary op x y = .error e) ∨
      ∃ op x, .unary op ∈ p ∧ I.unary op x = .error e

omit [Scalar α] in
theorem Interpretation.FailsAt.mono {I : Interpretation α β} {p q : Program α} {e : Fault α}
    (h : I.FailsAt p e) (hsub : ∀ node ∈ p, node ∈ q) : I.FailsAt q e := by
  rcases h with ⟨l, hl, hx⟩ | ⟨op, x, y, ho, hx⟩ | ⟨op, x, ho, hx⟩
  · exact .inl ⟨l, hsub _ hl, hx⟩
  · exact .inr (.inl ⟨op, x, y, hsub _ ho, hx⟩)
  · exact .inr (.inr ⟨op, x, hsub _ ho, hx⟩)

namespace Program

omit [Scalar α] in
/-- A node that gives no stack has something wrong with it, or the interpretation fails. -/
theorem step_eq_error {I : Interpretation α β} {node : Node α} {stack : List β} {e : Fault α}
    (h : step I node stack = .error e) :
    node.fault? stack.length = some e ∨ I.FailsAt [node] e := by
  rcases step_cases I node stack with ⟨l, rfl, hx⟩ | ⟨op, left, right, rest, hop, rfl, rfl, hx⟩ |
    ⟨op, x, rest, hop, rfl, rfl, hx⟩ | ⟨e', hfault, hx⟩ <;> rw [hx] at h
  · rcases bind_eq_error_iff.mp h with hl | ⟨x, -, hout⟩
    · exact .inr (.inl ⟨l, List.mem_singleton_self _, hl⟩)
    · cases hout
  · rcases bind_eq_error_iff.mp h with hz | ⟨z, -, hout⟩
    · exact .inr (.inr (.inl ⟨op, left, right, List.mem_singleton_self _, hz⟩))
    · cases hout
  · rcases bind_eq_error_iff.mp h with hz | ⟨z, -, hout⟩
    · exact .inr (.inr (.inr ⟨op, x, List.mem_singleton_self _, hz⟩))
    · cases hout
  · obtain rfl := Except.error.inj h
    exact .inl hfault

omit [Scalar α] in
/-- A run that fails stops at a node that has something wrong with it, or the interpretation
fails. -/
theorem run_eq_error {I : Interpretation α β} {p before : Program α} {stack : List β}
    {e : Fault α} (hb : before.Steady) (hn : before.Level stack.length)
    (h : run I p stack = .error e) :
    (∃ mid node after, p = mid ++ node :: after ∧ Steady (before ++ mid) ∧
      node.fault? (height (before ++ mid)) = some e) ∨ I.FailsAt p e := by
  induction p generalizing before stack with
  | nil => cases h
  | cons node rest ih =>
    rcases bind_eq_error_iff.mp h with hx | ⟨out, hx, hrest⟩
    · rcases step_eq_error hx with hfault | hfails
      · refine .inl ⟨[], node, rest, rfl, by simpa using hb, ?_⟩
        rwa [List.append_nil, hn.height]
      · exact .inr (hfails.mono fun x hx => List.mem_singleton.mp hx ▸ List.mem_cons_self)
    · obtain ⟨hb', hn'⟩ := hb.step hn hx
      rcases ih hb' hn' hrest with ⟨mid, x, after, rfl, hfine, hfault⟩ | hfails
      · exact .inl ⟨node :: mid, x, after, rfl, by simpa using hfine, by simpa using hfault⟩
      · exact .inr (hfails.mono fun _ hx => List.mem_cons_of_mem _ hx)

omit [Scalar α] in
/-- **A replay that fails** fails for a defect of the program, or because the interpretation
fails. -/
theorem replay_eq_error {I : Interpretation α β} {p : Program α} {e : Fault α}
    (h : p.replay I = .error e) : p.Defect e ∨ I.FailsAt p e := by
  rcases replay_error_iff_run.mp h with hr | ⟨stack, hr, hcount, rfl⟩
  · refine (run_eq_error steady_nil level_nil hr).imp_left ?_
    rintro ⟨mid, node, after, rfl, hfine, hfault⟩
    exact .node mid node after e rfl hfine hfault
  · obtain ⟨hfine, hlevel⟩ := run_ok steady_nil level_nil hr
    have hheight : p.height = stack.length := hlevel.height
    exact .inl (hheight ▸ .total hfine (hheight ▸ hcount))

end Program

namespace Value

omit [Scalar α] in
/-- Values combine unless they are columns of different lengths. -/
theorem combine_eq_error {γ δ ε : Type} {f : γ → δ → ε} {v : Value γ} {w : Value δ}
    {e : Fault α} (h : combine f v w = .error e) : e = .shapeMismatch := by
  cases v with
  | scalar x => cases w <;> cases h
  | column xs =>
    cases w with
    | scalar y => cases h
    | column ys =>
      simp only [combine] at h
      split_ifs at h
      split at h
      · cases h
      · cases h
      · exact (Except.error.inj h).symm

theorem power_eq_error {v w : Value α} {e : Fault α} (h : v.power w = .error e) :
    e = .shapeMismatch := by
  unfold power at h
  split at h
  · cases h
  · cases h
  · exact combine_eq_error h

end Value

/-- Numbers combine unless they are columns of different lengths. -/
theorem Program.evaluate_eq_error {leaf : Leaf α → Except (Fault α) (Value α)} {p : Program α}
    {e : Fault α} (h : p.evaluate leaf = .error e) :
    p.Defect e ∨ e = .shapeMismatch ∨ ∃ l, .leaf l ∈ p ∧ leaf l = .error e := by
  rcases replay_eq_error h with hdefect | ⟨l, hl, hx⟩ | ⟨op, x, y, -, hx⟩ | ⟨op, x, -, hx⟩
  · exact .inl hdefect
  · exact .inr (.inr ⟨l, hl, hx⟩)
  · refine .inr (.inl ?_)
    simp only [numeric] at hx
    split at hx
    · exact Value.power_eq_error hx
    · exact Value.combine_eq_error hx
  · cases hx

/-! ### What a composite finds -/

/-- Program, models and registries go together. -/
structure Composite.Coherent (s : Store α) (p : Composite α) : Prop where
  indices : p.program.indices = (List.range p.models.length).map Int.ofNat
  leaves : ∀ n, .leaf (.parameter n) ∈ p.program → n ∈ p.parNames s
  vars : ∀ n, n ∈ p.varNames s ↔ ∃ m ∈ p.models, n ∈ m.varNames s
  pars : ∀ n, n ∈ p.parNames s ↔
    (∃ m ∈ p.models, n ∈ m.parNames s) ∨ .leaf (.parameter n) ∈ p.program

/-- Nothing that is looked up for a leaf is missing: neither models nor parameters, nor at any
point the variables of models. What asks for variables or text fails for the program only;
what asks for the value fails for what is given, for the program, for the lengths of columns,
because a model has no value, or because what a parameter holds is no number. -/
structure Composite.Finds (s : Store α) (p : Composite α) : Prop where
  model : ∀ i, .leaf (.model i) ∈ p.program →
    ∃ m, (itemAt p.models i : Except (Fault α) _) = .ok m
  parameter : ∀ n, .leaf (.parameter n) ∈ p.program → ∃ v, s.lookup p.pars n = .ok v
  names : ∀ input point, p.point s input = .ok (some point) → ∀ m ∈ p.models,
    ∀ n ∈ m.varNames s, ∃ v, point.lookup n = some v
  common : ∀ e, p.commonVars s = .error e → p.program.Defect e
  text : ∀ number e, p.render number = .error e → p.program.Defect e
  value : ∀ input e, p.evaluate s input = .error e →
    p.point s input = .error e ∨ p.program.Defect e ∨ e = .shapeMismatch ∨
      (∃ m ∈ p.models, m.evaluate s .nothing = .error e ∨
        ∃ point, m.density s point = .error e) ∨
      ∃ n v, .leaf (.parameter n) ∈ p.program ∧ s.lookup p.pars n = .ok v ∧
        v.given.operand = .error e

section

variable {s : Store α} {p : Composite α}

omit [Scalar α] in
/-- The names of a point are those that were asked for. -/
theorem Model.genericPoint_names {owner : String} {names : List String} {input : Input α}
    {point : List (String × Given α)} (h : genericPoint owner names input = .ok point) :
    point.map (·.1) = names := by
  cases input with
  | mapping entries =>
    simp only [genericPoint, pickNamed] at h
    split_ifs at h
    refine map_of_mapM_eq_ok (fun n e he => ?_) h
    split at he
    · exact congrArg Prod.fst (Except.ok.inj he).symm
    · cases he
  | _ =>
    obtain ⟨vs, -, hvs⟩ := bind_eq_ok_iff.mp h
    unfold pickSequence at hvs
    split_ifs at hvs with hlen
    obtain rfl := Except.ok.inj hvs
    exact List.map_fst_zip (le_of_eq hlen.symm)

omit [Scalar α] in
/-- A point of a composite has a value for each of its variables. -/
theorem Composite.lookup_point {input : Input α} {point : List (String × Given α)}
    (h : p.point s input = .ok (some point)) {n : String} (hn : n ∈ p.varNames s) :
    ∃ v, point.lookup n = some v := by
  have hnames : point.map (·.1) = p.varNames s := by
    cases input with
    | nothing => cases h
    | _ =>
      obtain ⟨pt, hpt, heq⟩ := bind_eq_ok_iff.mp h
      obtain rfl := Option.some.inj (Except.ok.inj heq)
      exact Model.genericPoint_names hpt
  rw [← hnames] at hn
  obtain ⟨e, he, rfl⟩ := List.mem_map.mp hn
  refine Option.isSome_iff_exists.mp (Option.isSome_iff_ne_none.mpr fun hnone => ?_)
  exact absurd (List.lookup_eq_none_iff.mp hnone e he) (by simp)

/-- A composite whose outline is coherent is so. -/
theorem Density.Coherent.composite (h : (Density.composite p).Coherent s) : p.Coherent s where
  indices := by
    have hindices := h.indices
    rwa [List.length_map] at hindices
  leaves n hn := Registry.mem_sortNames.mpr (Store.isSome_value?.mp ((h.pars n).mpr (.inr hn)))
  vars n := by
    refine (Registry.mem_sortNames.trans (h.vars n)).trans ?_
    simp only [List.mem_map, exists_exists_and_eq_and, Model.mem_names_vars]
    rfl
  pars n := by
    refine (Registry.mem_sortNames.trans Store.isSome_value?.symm).trans ((h.pars n).trans ?_)
    simp only [List.mem_map, exists_exists_and_eq_and, Model.mem_names_pars]
    rfl

/-- **A composite that is coherent finds** whatever it looks up. -/
theorem Density.Coherent.finds (h : (Density.composite p).Coherent s) : p.Finds s := by
  have hclosed : (p.outline s).Closed := h.closed
  have hmodel := Composite.itemAt_of_closed hclosed
  have hparameter : ∀ n, .leaf (.parameter n) ∈ p.program →
      ∃ v, s.lookup p.pars n = .ok v := by
    intro n hn
    obtain ⟨v, hv⟩ := Option.isSome_iff_exists.mp (hclosed _ hn)
    exact ⟨v, Store.lookup_eq_ok_iff.mpr hv⟩
  have hnames : ∀ input point, p.point s input = .ok (some point) → ∀ m ∈ p.models,
      ∀ n ∈ m.varNames s, ∃ v, point.lookup n = some v := fun input point hpoint m hm n hn =>
    Composite.lookup_point hpoint ((h.composite.vars n).mpr ⟨m, hm, hn⟩)
  refine ⟨hmodel, hparameter, hnames, fun e he => ?_, fun number e he => ?_, fun input e he => ?_⟩
  · exact (Program.replay_error_iff (Composite.nameSets_total hmodel) e).mp
      (Composite.commonVars_error_iff.mp he)
  · unfold Composite.render at he
    split at he
    · cases he
    · exact (Program.replay_error_iff (Composite.leafText_total hclosed number) e).mp he
  · rcases bind_eq_error_iff.mp he with hpoint | ⟨point, hpoint, hvalue⟩
    · exact .inl hpoint
    refine .inr ((Program.evaluate_eq_error hvalue).imp_right fun hleaf =>
      hleaf.imp_right ?_)
    rintro ⟨l, hl, hx⟩
    cases l with
    | model i =>
      obtain ⟨m, hm⟩ := hmodel i hl
      have hmem := Composite.itemAt_mem hm
      simp only [Composite.leafValue, hm, ok_bind] at hx
      refine .inl ⟨m, hmem, ?_⟩
      cases point with
      | none => exact .inl hx
      | some pt =>
        rcases bind_eq_error_iff.mp hx with hown | ⟨own, -, hx⟩
        · obtain ⟨n, hn, hlookup⟩ := exists_of_mapM_eq_error hown
          obtain ⟨v, hv⟩ := hnames input pt hpoint m hmem n hn
          rw [hv] at hlookup
          cases hlookup
        · exact .inr ⟨own, hx⟩
    | parameter n =>
      obtain ⟨v, hv⟩ := hparameter n hl
      simp only [Composite.leafValue, hv, ok_bind] at hx
      exact .inr ⟨n, v, hl, hv, hx⟩
    | constant x => cases hx

end

/-! ### Sessions -/

/-- The call is one of arithmetic, and an expression is given no cells but those that its
program names. -/
def Call.Exact (σ : Session α) : Call α → Prop
  | .expression program pars => Call.Arithmetic σ (.expression program pars) ∧
      ∀ i ∈ pars, ∀ c, Held.cell σ.objects i = .ok c →
        .leaf (.parameter (σ.store.cell c).name) ∈ program
  | c => c.Arithmetic σ

theorem Call.Exact.arithmetic {σ : Session α} {c : Call α} (h : c.Exact σ) : c.Arithmetic σ := by
  cases c with
  | expression program pars => exact h.1
  | _ => exact h

/-- An expression that is given exactly is exact. -/
theorem Call.Exact.given {σ : Session α} (hσ : σ.Valid) {c : Call α} (hc : c.Exact σ)
    {program : Program α} {pars : List Nat} {cs : List CellId} {r : Registry}
    (heq : c = .expression program pars) (hcs : pars.mapM (Held.cell σ.objects) = .ok cs)
    (hr : Run.gather σ.store cs .empty = .ok r) : Expression.Exact ⟨program, r⟩ := by
  refine ⟨hc.arithmetic.given heq hcs hr, fun n hn => ?_⟩
  subst heq
  obtain ⟨c, hfind⟩ := Registry.find?_eq_some_of_mem hn
  have hentry := Registry.mem_entries_of_find? hfind
  have hmem : c ∈ cs := ((Run.gather_spec _ cs hr).2.2 _ hentry).resolve_left (by
    simp [Registry.empty])
  have hname : (σ.store.cell c).name = n :=
    (Run.gather_holds (Store.holds_empty _) (Held.cells_bounded hσ.objects hcs) hr).find?_named
      hfind
  obtain ⟨i, hi, hheld⟩ := mem_of_mapM_eq_ok hcs c hmem
  exact hname ▸ hc.2 i hi c hheld

namespace Session

/-- All objects are coherent. -/
def Coherent (σ : Session α) : Prop := ∀ o ∈ σ.objects, o.Coherent σ.store

end Session

/-- **What an exact call adds is coherent.** -/
theorem Call.run_coherent {σ : Session α} (h : σ.Valid) (hco : σ.Coherent) {c : Call α}
    (hc : c.Exact σ) :
    (c.run σ.objects).Ends σ.store (fun new t => ∀ o ∈ new, o.Coherent t) fun _ => True := by
  by_cases hm : ∃ m, c = .make m
  · obtain ⟨m, rfl⟩ := hm
    have hdraws := Making.run_draws h.sound h.objects (fun o ho => (hco o ho).closed)
      (m := m) hc.arithmetic
    refine ((hdraws.and (m.run_spec h.sound h.objects)).mono (fun _ _ ho => ho)
      fun _ _ => trivial).bind fun o t ho => Run.ends_pure ?_
    intro x hx
    rw [List.mem_singleton.mp hx]
    exact Making.Draws.coherent ho.1 ho.2 hco
  · refine (run_primitive (K := Expression.Exact) (fun _ _ _ _ => hc.given h)
      fun m hcm => hm ⟨m, hcm⟩).mono (fun new t hnew o ho => ?_) fun _ h => h
    have hprimitive := hnew o ho
    cases o with
    | density d =>
      cases d with
      | model m => exact m.coherent t
      | composite p => exact absurd hprimitive id
    | expression k e => exact hprimitive
    | _ => trivial

namespace Session

/-- One more exact call leaves all objects coherent. -/
theorem Coherent.step {σ : Session α} (h : σ.Valid) (hco : σ.Coherent) {c : Call α}
    (hc : c.Exact σ) : (σ.step c).Coherent := by
  intro o ho
  rcases mem_objects_step ho with hold | ⟨new, hnew, hrun⟩
  · exact (hco o hold).grows (h.objects o hold) (h.evolves c).toGrows
  · exact (Call.run_coherent h hco hc).ok hrun o hnew

/-- **Program and registries stay coherent.** In every session whose expressions hold the
parameters that they name, and no others, every composite is coherent: the positions at the
model leaves of its program ascend from the first model to the last one, its variables are
those of its models, and its parameters those of its models and of its leaves. So it finds
whatever it looks up. -/
theorem composites_coherent {calls : List (Call α)} (h : Throughout Call.Exact start calls) :
    ∀ p, .density (.composite p) ∈ (after calls).objects →
      p.Coherent (after calls).store ∧ p.Finds (after calls).store := by
  have hafter : (after calls).Coherent :=
    h.invariant (fun _ _ hσ hco hc => hco.step hσ hc) (List.forall_mem_nil _)
  intro p hp
  have hcoherent : (Density.composite p).Coherent (after calls).store := hafter _ hp
  exact ⟨hcoherent.composite, hcoherent.finds⟩

end Session

namespace Sample

/-- A function of one parameter, and its sum with another one. -/
def factors : List (Call ℚ) :=
  [ .expression [.leaf (.parameter "w"), .unary .exp] [5],
    .make (.operator .plus (.held 13) (.held 4)) ]

/-- They are exact where the parameters are. -/
theorem factors_exact : Session.Throughout Call.Exact (.after operands) factors := by
  have hwidth : ∃ c ∈ (Held.cell (Session.after operands).objects 5).toOption,
      ((Session.after operands).store.cell c).name = "w" := by decide +kernel
  obtain ⟨c, hc, hname⟩ := hwidth
  have hheld : Held.cell (Session.after operands).objects 5 = .ok c := eq_ok_of_toOption hc
  refine ⟨⟨⟨(Program.whole_leaf _).apply rfl, fun l hl => ?_⟩, fun i hi c' hc' => ?_⟩, rfl, trivial⟩
  · obtain rfl : l = .parameter "w" := by simpa using hl
    exact ⟨5, by simp, c, hheld, hname⟩
  · obtain rfl := List.mem_singleton.mp hi
    obtain rfl := Except.ok.inj (hheld.symm.trans hc')
    rw [hname]
    exact List.mem_cons_self

/-- A product, scaled by a factor, and the composite of that. -/
def nested : List (Call ℚ) :=
  operands ++ (factors ++
    [ .make (.operator .mult (.held 12) (.held 10)),
      .make (.operator .mult (.held 14) (.held 15)),
      .make (.build .product 16 (.held 16)),
      .set 16 (.setPar "w" (.scalar 3) (.scalar 0)),
      .make (.single (.held 16)) ])

theorem nested_exact : Session.Throughout Call.Exact .start nested := by
  have hoperands : Session.Throughout Call.Exact .start operands := by
    refine Session.Throughout.of_forall (fun c hc σ => ?_) _
    simp only [operands, cells, decay, List.cons_append, List.nil_append, List.mem_cons,
      List.not_mem_nil, or_false] at hc
    rcases hc with rfl | rfl | rfl | rfl | rfl | rfl | rfl | rfl | rfl | rfl | rfl | rfl | rfl <;>
      trivial
  exact hoperands.append (factors_exact.append ⟨rfl, rfl, trivial, trivial, trivial, trivial⟩)

end Sample

/-- Two models stand before a function of one parameter and a sum with another one. -/
theorem Session.composites_coherent_nested :
    let σ := Session.after Sample.nested
    Throughout Call.Exact start Sample.nested ∧
    ∃ p : Composite ℚ, .density (.composite p) ∈ σ.objects ∧
      p.program = [.leaf (.model 0), .leaf (.model 1), .binary .mult, .leaf (.parameter "w"),
        .unary .exp, .leaf (.parameter "a"), .binary .plus, .binary .mult] ∧
      p.Coherent σ.store ∧ p.Finds σ.store := by
  have hheld : ∃ p ∈ (Held.composite (Session.after Sample.nested).objects 17).toOption,
      p.program = [.leaf (.model 0), .leaf (.model 1), .binary .mult, .leaf (.parameter "w"),
        .unary .exp, .leaf (.parameter "a"), .binary .plus, .binary .mult] := by decide +kernel
  obtain ⟨p, hp, hprogram⟩ := hheld
  have hmem := List.mem_of_getElem? (Held.composite_eq_ok (Sample.eq_ok_of_toOption hp))
  exact ⟨Sample.nested_exact, p, hmem, hprogram,
    composites_coherent Sample.nested_exact p hmem⟩

end DensityAlgebra
