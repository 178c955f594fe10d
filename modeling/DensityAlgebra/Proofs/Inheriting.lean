/-
# Whose cells a composite takes over

What is appended to a composite gives it the names that it lacks: under a name that both have,
the composite keeps the cell that it had, with its value and its error. A builder copies its
composite first and then appends its operand, so what it builds has the cells of the composite
first and then those of the operand.

An operator builds on its left operand if that is a density. A factor on the left cannot be
built on: the density on its right is, and the factor is appended to it. Under a name that both
declare, the result then has the cell of the operand on the right.

Key definitions: `Store.content?`, `Operand.declared`,
`Composite.Inherits`.
Key theorems: `Composite.append_inherits`, `Composite.Builder.run_inherits`,
`Operand.apply_inherits`, `Session.operator_inherits`.
-/
import DensityAlgebra.Proofs.Rational

namespace DensityAlgebra

variable {α : Type}

/-! ### What is declared -/

variable [Scalar α]

/-- Value and error under a name of a registry, if it has the name. -/
def Store.content? (s : Store α) (r : Registry) (n : String) : Option (Content α × Content α) :=
  (r.find? n).map fun c => (s.cell c).content

/-- The names that an operand declares as variables or as parameters, with their cells. -/
def Operand.declared (s : Store α) (kind : CellKind) : Operand α → Registry
  | .model m => s.registry ((Density.model m).registryOf kind)
  | .composite p => s.registry ((Density.composite p).registryOf kind)
  | .parameter c => if kind = .parameter then ⟨[((s.cell c).name, c)]⟩ else .empty
  | .expression e => if kind = .parameter then e.pars else .empty
  | _ => .empty

/-- The composite has under every name what the first operand declares, and else what the
second one does, as they were in `s`. -/
def Composite.Inherits (s t : Store α) (first second : Operand α) (q : Composite α) : Prop :=
  ∀ kind n, t.content? ((Operand.composite q).declared t kind) n =
    (s.content? (first.declared s kind) n).or (s.content? (second.declared s kind) n)

namespace Store

theorem content?_empty (s : Store α) (n : String) : s.content? .empty n = none := rfl

theorem content?_single (s : Store α) (m : String) (c : CellId) (n : String) :
    s.content? ⟨[(m, c)]⟩ n = if n = m then some (s.cell c).content else none := by
  unfold content?
  rw [Registry.find?_cons]
  split_ifs <;> rfl

/-- Joining registries joins what is under their names. -/
theorem content?_or {s : Store α} {r p q : Registry}
    (h : ∀ n, r.find? n = (p.find? n).or (q.find? n)) (n : String) :
    s.content? r n = (s.content? p n).or (s.content? q n) := by
  unfold content?
  rw [h]
  cases p.find? n <;> rfl

/-- Cells that a registry holds keep their contents if none of them is written. -/
theorem content?_unwritten {C : Set CellId} {D : Set StateId} {s t : Store α} {r : Registry}
    (hr : s.Holds r) (h : Within C D s t) (hC : ∀ c ∈ r.cells, c ∉ C) (n : String) :
    t.content? r n = s.content? r n := by
  unfold content?
  cases hc : r.find? n with
  | none => rfl
  | some c =>
    rw [Option.map_some, Option.map_some,
      h.cells c (hr.find?_bounded hc) (hC c (Registry.mem_cells_of_find? hc))]

/-- Cells that a registry holds have kept their contents. -/
theorem content?_within {s t : Store α} {r : Registry} (hr : s.Holds r) (h : Within ∅ ∅ s t)
    (n : String) : t.content? r n = s.content? r n :=
  content?_unwritten hr h (fun c _ => Set.notMem_empty c) n

theorem content?_congr {s t : Store α} (h : t.cells = s.cells) (r : Registry) (n : String) :
    t.content? r n = s.content? r n := by
  unfold content?
  simp only [cell_congr h]

/-- The copy of a registry has the contents of the original. -/
theorem content?_rename {s t : Store α} {r : Registry} {g : CellId → CellId}
    (hg : CopiedCells s t r.cells g) (n : String) : t.content? (r.rename g) n = s.content? r n := by
  unfold content?
  rw [Registry.find?_rename]
  cases hc : r.find? n with
  | none => rfl
  | some c =>
    rw [Option.map_some, Option.map_some, Option.map_some,
      hg.cell c (Registry.mem_cells_of_find? hc)]

theorem Copied.content? {s t : Store α} {rs : List RegistryId} {f : RegistryId → RegistryId}
    {g : CellId → CellId} (h : s.Copied t rs f g) {r : RegistryId} (hr : r ∈ rs) (n : String) :
    t.content? (t.registry (f r)) n = s.content? (s.registry r) n := by
  rw [h.registry r hr]
  exact content?_rename (h.cells.mono fun c hc => List.mem_flatMap.mpr ⟨r, hr, hc⟩) n

end Store

namespace Density

omit [Scalar α] in
theorem registryOf_mem (d : Density α) (kind : CellKind) : d.registryOf kind ∈ d.registries := by
  cases d with
  | model m =>
    cases kind with
    | «variable» => exact m.varRegistries_subset m.head_vars_mem
    | parameter => exact m.parRegistries_subset m.head_pars_mem
  | composite p =>
    cases kind with
    | «variable» => exact p.vars_mem
    | parameter => exact p.pars_mem

omit [Scalar α] in
theorem Valid.bounded_registryOf {s : Store α} {d : Density α} (h : d.Valid s) (kind : CellKind) :
    (d.registryOf kind).index < s.registries.size := by
  cases d with
  | model m => exact (Model.Valid.linked h).bounded _ (registryOf_mem (.model m) kind)
  | composite p => exact Composite.Valid.bounded_registries h _ (registryOf_mem (.composite p) kind)

end Density

omit [Scalar α] in
theorem Model.IsCopy.registryOf {f : RegistryId → RegistryId} {m m' : Model α} (h : IsCopy f m m')
    (kind : CellKind) :
    (Density.model m').registryOf kind = f ((Density.model m).registryOf kind) := by
  cases kind with
  | «variable» => exact congrArg Head.vars h.head
  | parameter => exact congrArg Head.pars h.head

namespace Operand

/-- Operands that were there before declare the same in a store that leaves them alone. -/
theorem content?_declared {s t : Store α} {x : Operand α} (hs : s.Sound) (hx : x.Valid s)
    (h : Store.Within ∅ ∅ s t) (kind : CellKind) (n : String) :
    t.content? (x.declared t kind) n = s.content? (x.declared s kind) n := by
  have hdensity : ∀ d : Density α, d.Valid s →
      t.content? (t.registry (d.registryOf kind)) n =
        s.content? (s.registry (d.registryOf kind)) n := fun d hd => by
    rw [h.registries _ (hd.bounded_registryOf kind)]
    exact Store.content?_within (hs _) h n
  cases x with
  | model m => exact hdensity (.model m) hx
  | composite p => exact hdensity (.composite p) hx
  | parameter c =>
    have hcell : t.cell c = s.cell c := h.cells c hx (Set.notMem_empty c)
    cases kind with
    | «variable» => rfl
    | parameter =>
      have hholds : s.Holds ⟨[((s.cell c).name, c)]⟩ :=
        ⟨List.nodup_singleton _, fun n d hd => ?_, fun n d hd => ?_⟩
      · show t.content? ⟨[((t.cell c).name, c)]⟩ n = _
        rw [hcell]
        exact Store.content?_within hholds h n
      all_goals obtain ⟨rfl, rfl⟩ := Prod.mk.inj (List.mem_singleton.mp hd)
      · exact hx
      · rfl
  | expression e =>
    cases kind with
    | «variable» => rfl
    | parameter => exact Store.content?_within hx h n
  | _ => rfl

end Operand

/-! ### Appending -/

namespace Composite

/-- What the registries of a composite take from others is taken over. -/
theorem inherits_of_find? {s u t : Store α} {p q : Composite α} {x : Operand α} (hs : s.Sound)
    (hp : p.Valid s) (hst : Store.Within ∅ ∅ s u) (hcells : t.cells = u.cells)
    (cover : CellKind → Registry)
    (hfind : ∀ kind n, (t.registry ((Density.composite p).registryOf kind)).find? n =
      ((u.registry ((Density.composite p).registryOf kind)).find? n).or ((cover kind).find? n))
    (hcover : ∀ kind n, u.content? (cover kind) n = s.content? (x.declared s kind) n)
    (hvars : q.vars = p.vars) (hpars : q.pars = p.pars) :
    Inherits s t (.composite p) x q := by
  intro kind n
  have hown := Operand.content?_declared (x := .composite p) hs hp hst kind n
  have hsame : (Density.composite q).registryOf kind = (Density.composite p).registryOf kind := by
    cases kind with
    | «variable» => exact hvars
    | parameter => exact hpars
  rw [← hown, ← hcover]
  show t.content? (t.registry ((Density.composite q).registryOf kind)) n = _
  rw [hsame, Store.content?_congr hcells]
  exact Store.content?_or (hfind kind) n

/-- New cells that are adopted as parameters are taken over. -/
theorem adopt_inherits {s u : Store α} {p : Composite α} {x : Operand α} (hs : s.Sound)
    (hp : p.Valid s) (hst : Store.Within ∅ ∅ s u) (hnone : x.declared s .variable = .empty)
    {es : List (String × CellId)}
    (hes : ∀ n, u.content? ⟨es⟩ n = s.content? (x.declared s .parameter) n)
    (program : Program α) :
    (adopt p.pars es).Ends u
      (fun _ t => Inherits s t (.composite p) x { p with program := program }) fun _ => True := by
  have hbounded : p.pars.index < u.registries.size := hp.bounded.2.trans_le hst.moreRegistries
  obtain ⟨t, ht, hcells, hothers, hfind⟩ := outcome_adopt p.pars es hbounded
  refine Run.ends_of_ok ht (inherits_of_find? hs hp hst hcells
    (fun kind => if kind = .parameter then ⟨es⟩ else .empty) ?_ ?_ rfl rfl)
  · intro kind n
    cases kind with
    | «variable» =>
      show (t.registry p.vars).find? n = ((u.registry p.vars).find? n).or none
      rw [hothers _ hp.kinds, Option.or_none]
    | parameter => exact hfind n
  · intro kind n
    cases kind with
    | «variable» =>
      rw [hnone]
      rfl
    | parameter => exact hes n

/-- A copy `g` of the cells of a model in `u` was joined: the composite has under every name the
cell that it had, and else the copy of the model's. -/
structure ModelJoined (s u t : Store α) (g : CellId → CellId) (p : Composite α) (m : Model α)
    (q : Composite α) : Prop where
  apart : s.Apart u
  copied : s.CopiedCells u (m.registries.flatMap fun r => (s.registry r).cells) g
  cells : t.cells = u.cells
  vars : q.vars = p.vars
  pars : q.pars = p.pars
  find? : ∀ kind n, (t.registry ((Density.composite p).registryOf kind)).find? n =
    ((u.registry ((Density.composite p).registryOf kind)).find? n).or
      (((s.registry ((Density.model m).registryOf kind)).rename g).find? n)

/-- The copy of a model is joined. -/
theorem append_model_joined {b s : Store α} {p : Composite α} {m : Model α} (hb : b.Apart s)
    (hp : p.Built b s) (hm : m.Valid s) :
    (p.append (.model m)).Ends s (fun q t => ∃ u g, ModelJoined s u t g p m q) fun _ => True := by
  obtain ⟨m', u, f, g, hu, hap, hf, hcs⟩ := Model.copy_spec hb.sound m hm.states
  have hin := incoming_of_model hb hp hm hap hf hcs
  obtain ⟨t, ht, -, -, hbound, hcells, -⟩ :=
    appendModels_spec [.leaf (.model p.models.length)] hin.apart hin.built hin.joinable
  obtain ⟨hshape, -⟩ := List.forall₂_cons.mp hcs.shapes
  refine Run.ends_ok_bind hu (Run.ends_of_ok ht ⟨u, g, hap, hf.cells, hcells, rfl, rfl, ?_⟩)
  intro kind n
  have hcopy : u.registry ((Density.model m').registryOf kind) =
      (s.registry ((Density.model m).registryOf kind)).rename g := by
    rw [hshape.registryOf]
    exact hf.registry _ (Density.registryOf_mem (.model m) kind)
  refine hbound.find?_shared kind (fun k hk => ?_) (fun n hn => ?_) n
  · rw [List.mem_singleton.mp hk, hcopy]
    exact Registry.Under.refl _
  · exact .inr ⟨m', List.mem_singleton_self m', hcopy ▸ hn⟩

/-- What the model declares is taken over. -/
theorem append_model_inherits {b s : Store α} {p : Composite α} {m : Model α} (hb : b.Apart s)
    (hp : p.Built b s) (hm : m.Valid s) :
    (p.append (.model m)).Ends s (fun q t => Inherits s t (.composite p) (.model m) q)
      fun _ => True := by
  refine (append_model_joined hb hp hm).mono ?_ fun _ h => h
  rintro q t ⟨u, g, h⟩
  refine inherits_of_find? hb.sound hp.valid h.apart.toWithin h.cells
    (fun kind => (s.registry ((Density.model m).registryOf kind)).rename g) h.find?
    (fun kind n => ?_) h.vars h.pars
  exact Store.content?_rename (h.copied.mono fun c hc =>
    List.mem_flatMap.mpr ⟨_, Density.registryOf_mem (.model m) kind, hc⟩) n

omit [Scalar α] in
/-- A composite to which the registries of another one were pointed, and then bound its models,
has what it had and what the other one had. -/
theorem find?_pointed_bound {u v t : Store α} {p y : Composite α}
    (hpoint : u.Pointed v y.vars y.pars p.vars p.pars) (hbound : Bound v t p.vars p.pars y.models)
    (hy : y.Valid u) (hkept : ∀ m ∈ y.models, ∀ r ∈ m.registries, v.registry r = u.registry r)
    (kind : CellKind) (n : String) :
    (t.registry ((Density.composite p).registryOf kind)).find? n =
      ((u.registry ((Density.composite p).registryOf kind)).find? n).or
        ((u.registry ((Density.composite y).registryOf kind)).find? n) := by
  have hshared : ∀ n, (v.registry ((Density.composite p).registryOf kind)).find? n =
      ((u.registry ((Density.composite p).registryOf kind)).find? n).or
        ((u.registry ((Density.composite y).registryOf kind)).find? n) := fun n => by
    cases kind with
    | «variable» => exact hpoint.toVars ▸ Registry.find?_rebind_shared _ _ n
    | parameter => exact hpoint.toPars ▸ Registry.find?_rebind_shared _ _ n
  have hunder : ∀ m ∈ y.models, (v.registry ((Density.model m).registryOf kind)).Under
      (u.registry ((Density.composite y).registryOf kind)) := by
    intro m hm
    rw [hkept m hm _ (Density.registryOf_mem (.model m) kind)]
    cases kind with
    | «variable» => exact hy.vars m hm _ m.head_vars_mem
    | parameter => exact hy.pars m hm _ m.head_pars_mem
  have hnamed : ∀ n ∈ (u.registry ((Density.composite y).registryOf kind)).names,
      n ∈ (v.registry ((Density.composite p).registryOf kind)).names := by
    intro n hn
    rw [← Registry.isSome_find?] at hn ⊢
    rw [hshared, Option.isSome_or, hn, Bool.or_true]
  rw [hbound.find?_shared kind hunder (fun n hn => .inl (hnamed n hn)) n, hshared,
    Option.or_assoc, Option.or_self]

/-- The registries of the copy of a composite are joined, and then its models. -/
theorem append_composite_inherits {b s : Store α} {p x : Composite α} (hb : b.Apart s)
    (hp : p.Built b s) (hx : x.Valid s) :
    (p.append (.composite x)).Ends s (fun q t => Inherits s t (.composite p) (.composite x) q)
      fun _ => True := by
  obtain ⟨y, u, f, g, hu, hap, hf, hcopy⟩ := Composite.copy_spec hb.sound x hx.bounded_states
  have hin := incoming_of_copy hb hp hx hap hf hcopy
  obtain ⟨t, ht, -, -, hbound, hcells, -⟩ :=
    appendModels_spec (y.program.shiftModels p.models.length) hin.apart hin.built hin.joinable
  refine Run.ends_ok_bind hu (Run.ends_ok_bind (Run.outcome_rebind _ _ _)
    (Run.ends_ok_bind (Run.outcome_rebind _ _ _) (Run.ends_of_ok ht ?_)))
  refine inherits_of_find? hb.sound hp.valid hap.toWithin (hcells.trans hin.cells)
    (fun kind => u.registry ((Density.composite y).registryOf kind))
    (find?_pointed_bound (hcopy.pointed hp hx hap hf) hbound (hx.copied hf hcopy) hin.incoming)
    (fun kind n => ?_) rfl rfl
  have hcopied : (Density.composite y).registryOf kind =
      f ((Density.composite x).registryOf kind) := by
    cases kind with
    | «variable» => exact hcopy.vars
    | parameter => exact hcopy.pars
  rw [hcopied]
  exact hf.content? (Density.registryOf_mem (.composite x) kind) n

/-- **What is appended is taken over** under the names that the composite lacks. -/
theorem append_inherits {b s : Store α} {p : Composite α} {x : Operand α} (hb : b.Apart s)
    (hp : p.Built b s) (hx : x.Valid s) :
    (p.append x).Ends s (fun q t => Inherits s t (.composite p) x q) fun _ => True := by
  have hs := hb.sound
  have hbare : ∀ program : Program α, (∀ kind, x.declared s kind = .empty) →
      Inherits s s (.composite p) x { p with program := program } := by
    intro program hnone kind n
    rw [hnone, Store.content?_empty, Option.or_none]
    rfl
  cases x with
  | model m => exact append_model_inherits hb hp hx
  | composite y => exact append_composite_inherits hb hp hx
  | parameter c =>
    have hst : s.Apart (s.addCell (s.cell c)) := (Store.Apart.refl hs).addCell (s.cell c)
    have hnew : (s.addCell (s.cell c)).cell ⟨s.cells.size⟩ = s.cell c := by
      rw [Store.cell_addCell, if_pos rfl]
    refine Run.ends_get_bind (Run.ends_ok_bind (Run.outcome_newCell _ s) ?_)
    refine (adopt_inherits (x := .parameter c) hs hp.valid hst.toWithin rfl (fun n => ?_) _).bind
      fun _ t ht => Run.ends_pure ht
    show (s.addCell (s.cell c)).content? ⟨[((s.cell c).name, ⟨s.cells.size⟩)]⟩ n =
      s.content? ⟨[((s.cell c).name, c)]⟩ n
    rw [Store.content?_single, Store.content?_single, hnew]
  | expression e =>
    obtain ⟨u, g, hu, hap, hg⟩ := Expression.copy_spec hs e
    refine Run.ends_ok_bind hu ?_
    refine (adopt_inherits (x := .expression e) hs hp.valid hap.toWithin rfl (fun n => ?_) _).bind
      fun _ t ht => Run.ends_pure ht
    exact Store.content?_rename hg n
  | plain d =>
    cases hn : d.number? with
    | none =>
      rw [append_plain p hn]
      exact Run.ends_throw trivial
    | some y =>
      rw [append_number p hn]
      exact Run.ends_pure (hbare _ fun _ => rfl)
  | operation op => exact Run.ends_of_ok rfl (hbare _ fun _ => rfl)
  | weight w => exact Run.ends_throw trivial
  | other k => exact Run.ends_throw trivial

/-! ### Building -/

/-- The empty composite declares nothing. -/
theorem new_declares {s t : Store α} {p : Composite α}
    (h : (new : Run α (Composite α)).outcome s = (.ok p, t)) (kind : CellKind) :
    (Operand.composite p).declared t kind = .empty := by
  have hnew : (new : Run α (Composite α)).outcome s =
      (.ok ⟨[], [], ⟨s.registries.size⟩, ⟨(s.addRegistry .empty).registries.size⟩⟩,
        (s.addRegistry .empty).addRegistry .empty) := rfl
  obtain ⟨hp, rfl⟩ := Prod.mk.inj (hnew.symm.trans h)
  obtain rfl := Except.ok.inj hp
  show ((s.addRegistry .empty).addRegistry .empty).registry _ = _
  rw [Store.registry_addRegistry]
  split_ifs with hlast
  · rfl
  · cases kind with
    | «variable» => exact (Store.registry_addRegistry s .empty _).trans (if_pos rfl)
    | parameter => exact absurd rfl hlast

/-- A composite of one operand declares what the operand does. -/
theorem ofOperand_inherits {b s : Store α} {x : Operand α} (hb : b.Apart s) (hx : x.Valid s) :
    (ofOperand x).Ends s (fun q t => ∀ kind n,
      t.content? ((Operand.composite q).declared t kind) n = s.content? (x.declared s kind) n)
      fun _ => True := by
  obtain ⟨p, u, hu, hap, hp, -⟩ := new_spec hb
  refine Run.ends_ok_bind hu ((append_inherits (hb.trans hap) hp (hx.grows hap.toGrows)).mono
    (fun q t hq kind n => ?_) fun _ h => h)
  rw [hq, new_declares hu, Store.content?_empty, Option.none_or]
  exact Operand.content?_declared hb.sound hx hap.toWithin kind n

/-- The copy of a composite declares what the composite does. -/
theorem CopyOf.content? {s t : Store α} {p q : Composite α} {f : RegistryId → RegistryId}
    {g : CellId → CellId} (h : p.CopyOf f s t q) (hf : s.Copied t p.registries f g)
    (kind : CellKind) (n : String) :
    t.content? ((Operand.composite q).declared t kind) n =
      s.content? ((Operand.composite p).declared s kind) n := by
  have hcopied : (Density.composite q).registryOf kind =
      f ((Density.composite p).registryOf kind) := by
    cases kind with
    | «variable» => exact h.vars
    | parameter => exact h.pars
  show t.content? (t.registry ((Density.composite q).registryOf kind)) n = _
  rw [hcopied]
  exact hf.content? (Density.registryOf_mem (.composite p) kind) n

/-- **A composite with one more operand** has its own cells first. -/
theorem extended_inherits {b s : Store α} {p : Composite α} {x : Operand α} (op : Operation)
    (hb : b.Apart s) (hp : p.Valid s) (hx : x.Valid s) :
    (p.extended x op).Ends s (fun q t => Inherits s t (.composite p) x q) fun _ => True := by
  obtain ⟨out, u, f, g, hu, hap, hf, hcopy⟩ := copy_spec hb.sound p hp.bounded_states
  have hout : out.Built b u := hcopy.built hb.moreRegistries hb.moreStates hp hf
  have happ : (out.append x).Ends u (fun q t => Inherits s t (.composite p) x q)
      fun _ => True := by
    refine (append_inherits (hb.trans hap) hout (hx.grows hap.toGrows)).mono
      (fun q t hq kind n => ?_) fun _ h => h
    rw [hq, hcopy.content? hf, Operand.content?_declared hb.sound hx hap.toWithin]
  unfold extended
  refine Run.ends_ok_bind hu (Run.ends_ite (fun _ => happ) fun _ => ?_)
  exact happ.bind fun q t hq => Run.ends_of_ok rfl hq

theorem Builder.run_inherits {b s : Store α} (how : Builder) {p : Composite α} {x : Operand α}
    (hb : b.Apart s) (hp : p.Valid s) (hx : x.Valid s) :
    (how.run p x).Ends s (fun q t => Inherits s t (.composite p) x q) fun _ => True :=
  run_ends trivial fun _ => extended_inherits how.operation hb hp hx

end Composite

namespace Operand

/-! ### Operators -/

/-- What an operator made has, if it is a composite, the cells of the first operand and then
those of the second. -/
def Inherited (s t : Store α) (first second : Operand α) : Operand α → Prop
  | composite q => q.Inherits s t first second
  | _ => True

/-- A composite is built on. -/
theorem applyComposite_inherits {s : Store α} {p : Composite α} (op : Operation)
    {x : Operand α} (hs : s.Sound) (hp : p.Valid s) (hx : x.Valid s) :
    (applyComposite p op x).Ends s
      (fun o t => ∀ q, o = some q → q.Inherits s t (.composite p) x) fun _ => True := by
  refine applyComposite_ends (fun how _ _ => ?_) nofun
  refine (how.run_inherits (Store.Apart.refl hs) hp hx).mono (fun q t hq q' hq' => ?_) fun _ h => h
  exact Option.some.inj hq' ▸ hq

/-- What is built on a composite of a model is built on the model. -/
theorem inherits_through {s u t : Store α} {m : Model α} {p q : Composite α} {x : Operand α}
    (hs : s.Sound) (hx : x.Valid s) (hsu : Store.Within ∅ ∅ s u)
    (hp : ∀ kind n, u.content? ((Operand.composite p).declared u kind) n =
      s.content? ((Operand.model m).declared s kind) n)
    (hq : q.Inherits u t (.composite p) x) : q.Inherits s t (.model m) x := fun kind n => by
  rw [hq, hp, content?_declared hs hx hsu]

/-- The composite of a model, and what was there before. -/
theorem ofModel_inherits {s : Store α} {m : Model α} (hs : s.Sound) (hm : m.Valid s) :
    (Composite.ofOperand (.model m)).Ends s (fun p u => s.Apart u ∧ p.Valid u ∧
      ∀ kind n, u.content? ((Operand.composite p).declared u kind) n =
        s.content? ((Operand.model m).declared s kind) n) fun _ => True := by
  have hself := Store.Apart.refl hs
  refine ((Composite.ofModel_spec hself hm).and (Composite.ofOperand_inherits hself hm)).mono
    (fun p u hp => ?_) fun _ _ => trivial
  exact ⟨hp.1.2.2, hp.1.1.built.valid, hp.2⟩

/-- A model is built on as a composite. -/
theorem applyModel_inherits {s : Store α} {m : Model α} (op : Operation) {x : Operand α}
    (hs : s.Sound) (hm : m.Valid s) (hx : x.Valid s) :
    (applyModel m op x).Ends s (fun o t => ∀ y, o = some y → Inherited s t (.model m) x y)
      fun _ => True := by
  refine applyModel_ends (fun d w _ _ _ => ?_) (fun _ _ => ?_) fun _ => nofun
  · refine (Run.ends_true _ _).mono (fun e t _ y hy => ?_) fun _ h => h
    rw [← Option.some.inj hy]
    trivial
  · refine (ofModel_inherits hs hm).mono (fun p u hp => ?_) fun _ h => h
    obtain ⟨hap, hval, hcontent⟩ := hp
    refine (applyComposite_inherits op hap.sound hval (hx.grows hap.toGrows)).mono
      (fun o t ho y hy => ?_) fun _ h => h
    obtain ⟨q, hq, rfl⟩ := Option.map_eq_some_iff.mp hy
    exact inherits_through hs hx hap.toWithin hcontent (ho q hq)

/-- What a density on the left makes has its cells first. -/
theorem apply_left_inherits {s : Store α} {l r : Operand α} (op : Operation) (hs : s.Sound)
    (hl : l.Valid s) (hr : r.Valid s) (hdensity : l.isDensity = true) :
    (apply op l r).Ends s (fun y t => Inherited s t l r y) fun _ => True := by
  have hself := Store.Apart.refl hs
  cases l with
  | model m =>
    have hfirst := (applyModel_inherits op hs hl hr).and (applyModel_spec op hself hl hr)
    refine apply_model_left_ends (hfirst.mono (fun _ _ h => h) fun _ _ => trivial)
      (fun y t ht => ht.1 y rfl) (fun _ _ _ => trivial) ?_
    -- the second try, with the parameter as an expression
    rintro c u ⟨-, hap, -⟩ rfl
    have hm : (Operand.model m).Valid u := hl.grows hap.toGrows
    have he : (expression (.ofParameter (s.cell c).name c)).Valid s :=
      lift?_holds (x := .parameter c) hr rfl
    refine (applyModel_inherits op hap.sound hm (he.grows hap.toGrows)).mono ?_ fun _ h => h
    rintro (_ | y) t hy
    · trivial
    · cases y with
      | composite q =>
        intro kind n
        rw [hy _ rfl, content?_declared hs hl hap.toWithin, content?_declared hs he hap.toWithin]
        rfl
      | _ => trivial
  | composite p =>
    refine apply_composite_left_ends (fun how _ _ => ?_) trivial
    exact how.run_inherits hself hl hr
  | _ => cases hdensity

/-- What an operator with no density on the left made: a composite is the density on the right
times a factor, and has the cells of the density first. -/
def Scaled (s t : Store α) (op : Operation) (l r : Operand α) : Operand α → Prop
  | composite q =>
    op = .mult ∧ l.isFactor = true ∧ r.isDensity = true ∧ q.Inherits s t r l
  | _ => True

/-- A factor on the left is appended to the density on the right. -/
theorem apply_right_inherits {s : Store α} {l r : Operand α} (op : Operation) (hs : s.Sound)
    (hl : l.Valid s) (hr : r.Valid s) (hnot : l.isDensity = false) :
    (apply op l r).Ends s (fun y t => Scaled s t op l r y) fun _ => True := by
  have hself := Store.Apart.refl hs
  cases r with
  | model m =>
    refine apply_model_right_ends hnot (fun w d _ _ _ => Run.ends_true _ _) (fun hop _ => ?_)
      fun _ => trivial
    refine (ofModel_inherits hs hr).mono (fun p u hp => ⟨fun _ => trivial, fun hfactor => ?_⟩)
      fun _ h => h
    obtain ⟨hap, hval, hcontent⟩ := hp
    have hscale := Composite.Builder.scale.run_inherits (Store.Apart.refl hap.sound) hval
      (hl.grows hap.toGrows)
    exact hscale.mono (fun q t hq => ⟨hop, hfactor, rfl,
      inherits_through hs hl hap.toWithin hcontent hq⟩) fun _ h => h
  | composite p =>
    refine apply_composite_right_ends hnot (fun hop hfactor => ?_) trivial
    exact (Composite.Builder.scale.run_inherits hself hr hl).mono
      (fun q t hq => ⟨hop, hfactor, rfl, hq⟩) fun _ h => h
  | _ => exact apply_factors_ends hnot rfl (fun _ _ _ _ => trivial) (fun _ => trivial) trivial

end Operand

/-! ### Operators of sessions -/

omit [Scalar α] in
/-- A composite that is kept was made just so. -/
theorem Making.named_eq_composite {s t : Store α} {os : List (Object α)} {y : Operand α}
    {q : Composite α} (h : (named os y).outcome s = (.ok (.density (.composite q)), t)) :
    y = .composite q ∧ t = s := by
  unfold named at h
  cases y with
  | composite p =>
    obtain ⟨hq, rfl⟩ := Prod.mk.inj h
    cases hq
    exact ⟨rfl, rfl⟩
  | operation _ => cases h
  | other _ => cases h
  | _ =>
    obtain ⟨hq, -⟩ := Prod.mk.inj h
    cases hq

namespace Session

/-- **Whose cells an operator keeps.** A composite that an operator makes has, under every name
that both operands declare, value and error of the left one's cell if the left operand is a
density. If it is a factor, the result is the density on the right with that density's cells. -/
theorem operator_inherits (calls : List (Call α)) (op : Operation) (l r : Passed α)
    {q : Composite α} {t : Store α}
    (h : ((Making.operator op l r).run (after calls).objects).outcome (after calls).store =
      (.ok (.density (.composite q)), t)) :
    ∃ x y, (l.operand (after calls).objects).outcome (after calls).store =
        (.ok x, (after calls).store) ∧
      (r.operand (after calls).objects).outcome (after calls).store =
        (.ok y, (after calls).store) ∧
      (x.isDensity = true → q.Inherits (after calls).store t x y) ∧
      (x.isDensity = false → op = .mult ∧ x.isFactor = true ∧ y.isDensity = true ∧
        q.Inherits (after calls).store t y x) := by
  obtain ⟨hs, hos⟩ := after_valid calls
  obtain ⟨x, s₁, hx, h⟩ := Run.outcome_bind_eq_ok h
  obtain ⟨rfl, hxv, -⟩ := (Passed.operand_spec (E := fun _ => True) hos trivial l).ok hx
  obtain ⟨y, s₁, hy, h⟩ := Run.outcome_bind_eq_ok h
  obtain ⟨rfl, hyv, -⟩ := (Passed.operand_spec (E := fun _ => True) hos trivial r).ok hy
  obtain ⟨z, u, hz, h⟩ := Run.outcome_bind_eq_ok h
  obtain ⟨rfl, rfl⟩ := Making.named_eq_composite h
  refine ⟨x, y, hx, hy, fun hdensity => ?_, fun hnot => ?_⟩
  · exact (Operand.apply_left_inherits op hs hxv hyv hdensity).ok hz
  · exact (Operand.apply_right_inherits op hs hxv hyv hnot).ok hz

end Session

namespace Sample

/-- A normal density with a parameter a of value 1, and another parameter a of value 2. -/
def scaling : List (Call ℚ) :=
  [ .cell ⟨.variable, "x", .scalar 0, .scalar 0⟩,
    .cell ⟨.parameter, "a", .scalar 1, .scalar (1 / 10)⟩,
    .cell ⟨.parameter, "w", .scalar 1, .scalar 0⟩,
    .cell ⟨.parameter, "a", .scalar 2, .scalar (1 / 5)⟩,
    .gaussian "Gaussian" 0 1 2 ]

/-- Whether what was read is a density, and what it declares as the parameter a. -/
def shown : Except (Fault ℚ) (Operand ℚ) × Store ℚ → Option (Bool × Option (Content ℚ × Content ℚ))
  | (.ok x, s) => some (x.isDensity, s.content? (x.declared s .parameter) "a")
  | (.error _, _) => none

/-- The second parameter, on the left of the density. -/
def scaled : Making ℚ := .operator .mult (.held 3) (.held 4)

theorem scaled_made : ∃ q t, (scaled.run (Session.after scaling).objects).outcome
    (Session.after scaling).store = (.ok (.density (.composite q)), t) :=
  exists_of_composite? (by decide +kernel)

theorem shown_left : shown (((Passed.held 3).operand (Session.after scaling).objects).outcome
    (Session.after scaling).store) = some (false, some (.scalar 2, .scalar (1 / 5))) := by
  decide +kernel

theorem shown_right : shown (((Passed.held 4).operand (Session.after scaling).objects).outcome
    (Session.after scaling).store) = some (true, some (.scalar 1, .scalar (1 / 10))) := by
  decide +kernel

end Sample

namespace Session

/-- The parameter on the left has the value 2, the product the value 1. -/
theorem operator_inherits_scaled : ∃ q t,
    (Sample.scaled.run (after Sample.scaling).objects).outcome (after Sample.scaling).store =
      (.ok (.density (.composite q)), t) ∧
    Sample.shown (((Passed.held 3).operand (after Sample.scaling).objects).outcome
      (after Sample.scaling).store) = some (false, some (.scalar 2, .scalar (1 / 5))) ∧
    t.content? (t.registry q.pars) "a" = some (.scalar 1, .scalar (1 / 10)) := by
  obtain ⟨q, t, hq⟩ := Sample.scaled_made
  obtain ⟨x, y, hx, hy, -, hfactor⟩ :=
    operator_inherits Sample.scaling .mult (.held 3) (.held 4) hq
  have hleft := Sample.shown_left
  have hright := Sample.shown_right
  rw [hx] at hleft
  rw [hy] at hright
  obtain ⟨hnot, -⟩ := Prod.mk.inj (Option.some.inj hleft)
  obtain ⟨-, hcontent⟩ := Prod.mk.inj (Option.some.inj hright)
  obtain ⟨-, -, -, hinherits⟩ := hfactor hnot
  have hparameter := hinherits .parameter "a"
  rw [hcontent] at hparameter
  exact ⟨q, t, hq, Sample.shown_left, hparameter⟩

end Session

end DensityAlgebra
