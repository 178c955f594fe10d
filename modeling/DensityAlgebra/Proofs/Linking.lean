/-
# Builders link outlines

Appending an operand to a composite links their outlines, and a builder closes what it
has linked with its operation. An empty composite has nothing that could be linked, so
the operand is all there is, and no operation comes. An operator builds on the density
on its left or, with a factor there, scales the density on its right.

What makes no composite makes arithmetic of arithmetic.

Key definitions: `Composite.Builder.Admits`, `Operand.JoinOf`, `Operand.Drafted`.
Key theorems: `Composite.append_outline`, `Composite.extended_outline`,
`Composite.Builder.run_outline`, `Operand.apply_outline`, `Operand.negate_outline`.
-/
import DensityAlgebra.Proofs.Dispatch
import DensityAlgebra.Proofs.Outlines

namespace DensityAlgebra

variable {α : Type} [Scalar α]

namespace Composite

/-! ### Adopted parameters -/

/-- The values of a registry that has adopted entries. -/
theorem value?_adopted {s u t : Store α} {r : RegistryId} {es : List (String × CellId)}
    (hs : s.Sound) (hr : r.index < s.registries.size) (hsu : Store.Within ∅ ∅ s u)
    (hcells : t.cells = u.cells)
    (hfind : ∀ n, (t.registry r).find? n = ((u.registry r).find? n).or (Registry.find? ⟨es⟩ n))
    (n : String) :
    t.value? r n =
      (s.value? r n).or ((Registry.find? ⟨es⟩ n).map fun c => (u.cell c).value) := by
  have hcell : ∀ c, t.cell c = u.cell c := Store.cell_congr hcells
  unfold Store.value?
  rw [hfind, hsu.registries r hr]
  cases hc : (s.registry r).find? n with
  | none => simp [hcell]
  | some c =>
    simp only [Option.some_or, Option.map_some]
    rw [hcell, hsu.cells c ((hs r).find?_bounded hc) (Set.notMem_empty _)]

/-- The outline of a composite that has adopted the parameters of a factor. -/
theorem outline_of_adopted {s t : Store α} {p : Composite α} {e : Expression α}
    (he : e.Arithmetic) (hvars : t.registry p.vars = s.registry p.vars)
    (hpars : ∀ n, t.value? p.pars n = (s.value? p.pars n).or ((e.outline s).pars n)) :
    Composite.outline t { p with program := p.program ++ e.program } =
      (p.outline s).append (e.outline s) := by
  refine Outline.ext ?_ rfl ?_ (funext hpars)
  · show p.program ++ e.program = p.program ++ e.program.shiftModels p.models.length
    rw [he.shiftModels]
  · show {n | n ∈ (t.registry p.vars).names} = {n | n ∈ (s.registry p.vars).names} ∪ ∅
    rw [hvars, Set.union_empty]

/-! ### Joined models -/

/-- The names of variables after models were joined. -/
theorem appendModels_names {b u : Store α} {p : Composite α} {ms : List (Model α)}
    (program : Program α) (hb : b.Apart u) (hp : p.Built b u) (hms : Joinable b u p ms) :
    (p.appendModels ms program).Ends u
      (fun q t => q.program = p.program ++ program ∧
        ∀ n, n ∈ (t.registry q.vars).names ↔ n ∈ (u.registry p.vars).names ∨
          ∃ m ∈ ms, n ∈ (u.registry m.head.vars).names) fun _ => True := by
  obtain ⟨t, ht, -, -, hbound, -⟩ := appendModels_spec program hb hp hms
  refine Run.ends_of_ok ht ⟨rfl, fun n => ⟨fun hn => ?_, ?_⟩⟩
  · obtain ⟨c, hc⟩ := Registry.find?_eq_some_of_mem hn
    rcases hbound.varsOrigin n c hc with hc | ⟨m, hm, hc⟩
    · exact .inl (Registry.mem_names_of_find? hc)
    · exact .inr ⟨m, hm, Registry.mem_names_of_find? hc⟩
  · rintro (hn | ⟨m, hm, hn⟩)
    · exact hbound.varsUnder.names_subset hn
    · have hhead := hbound.under.1 m hm _ m.head_vars_mem
      refine hhead.names_subset ?_
      rwa [hbound.names m hm _ (m.varRegistries_subset m.head_vars_mem)]

/-- The outline of what was joined, once the program and the names of variables are known. -/
theorem Joined.outline {b s t : Store α} {p q : Composite α} {x : Operand α} {d : Density α}
    (h : Joined b s t p x q) (hd : x.density? = some d)
    (hprogram : q.program = p.program ++ (d.outline s).program.shiftModels p.models.length)
    (hnames : ∀ n, n ∈ (t.registry q.vars).names ↔
      n ∈ (s.registry p.vars).names ∨ n ∈ (d.outline s).vars) :
    q.outline t = (p.outline s).append (d.outline s) := by
  obtain ⟨ms, hms, hcarried⟩ := h.models
  refine Outline.ext hprogram ?_ (Set.ext hnames) (funext fun n => ?_)
  · show q.models.length = p.models.length + _
    have hlen : x.models.length = (d.outline s).count := by
      unfold Operand.models
      rw [hd]
      cases d <;> rfl
    rw [hms, List.length_append, ← hcarried.length_eq, hlen]
  · show t.value? q.pars n = (s.value? p.pars n).or ((d.outline s).pars n)
    rw [h.pars, h.parValues d hd]
    cases d <;> rfl

/-- A model is linked as the next one. -/
theorem append_model_outline {b s : Store α} {p : Composite α} {m : Model α} (hb : b.Apart s)
    (hp : p.Built b s) (hm : m.Valid s) :
    (p.append (.model m)).Ends s
      (fun q t => q.outline t = (p.outline s).append (m.outline s)) fun _ => True := by
  obtain ⟨m', t, f, g, ht, hap, hf, hcs⟩ := Model.copy_spec hb.sound m hm.states
  have hin := incoming_of_model hb hp hm hap hf hcs
  have hnames : (p.append (.model m)).Ends s
      (fun q t => q.program = p.program ++ [.leaf (.model p.models.length)] ∧
        ∀ n, n ∈ (t.registry q.vars).names ↔
          n ∈ (s.registry p.vars).names ∨ n ∈ (s.registry m.head.vars).names) fun _ => True := by
    refine Run.ends_ok_bind ht ((appendModels_names _ hin.apart hin.built hin.joinable).mono
      (fun q u hq => ⟨hq.1, fun n => (hq.2 n).trans ?_⟩) fun _ h => h)
    obtain ⟨hshape, -⟩ := List.forall₂_cons.mp hcs.shapes
    have hhead : (t.registry m'.head.vars).names = (s.registry m.head.vars).names := by
      rw [hshape.head]
      exact hf.names (m.varRegistries_subset m.head_vars_mem)
    rw [hap.registries _ hp.valid.bounded.1]
    simp [hhead]
  refine ((append_model hb hp hm).and hnames).mono (fun q u ⟨hj, hprogram, hvars⟩ => ?_)
    fun _ _ => trivial
  refine hj.outline (d := .model m) rfl (hprogram.trans ?_) hvars
  show _ = p.program ++ Program.shiftModels p.models.length [.leaf (.model 0)]
  rw [Program.shiftModels_eq_map]
  simp [Node.shift, Leaf.shift]

/-- A composite is linked with all its models. -/
theorem append_composite_outline {b s : Store α} {p x : Composite α} (hb : b.Apart s)
    (hp : p.Built b s) (hx : x.Valid s) :
    (p.append (.composite x)).Ends s
      (fun q t => q.outline t = (p.outline s).append (x.outline s)) fun _ => True := by
  obtain ⟨y, t, f, g, ht, hap, hf, hcopy⟩ := Composite.copy_spec hb.sound x hx.bounded_states
  have hin := incoming_of_copy hb hp hx hap hf hcopy
  have hpoint := hcopy.pointed hp hx hap hf
  have hy : y.Valid t := hx.copied hf hcopy
  set u := (t.link y.vars p.vars).link y.pars p.pars
  have hvars : ∀ n, n ∈ (u.registry p.vars).names ↔
      n ∈ (s.registry p.vars).names ∨ n ∈ (s.registry x.vars).names := by
    intro n
    have hcopied : (t.registry y.vars).names = (s.registry x.vars).names := by
      rw [hcopy.vars]
      exact hf.names x.vars_mem
    rw [hpoint.toVars, ← Registry.isSome_find?, Registry.find?_rebind_shared, Option.isSome_or,
      Bool.or_eq_true, Registry.isSome_find?, Registry.isSome_find?, hcopied,
      hap.registries _ hp.valid.bounded.1]
  have hnames : (p.append (.composite x)).Ends s
      (fun q t => q.program = p.program ++ x.program.shiftModels p.models.length ∧
        ∀ n, n ∈ (t.registry q.vars).names ↔
          n ∈ (s.registry p.vars).names ∨ n ∈ (s.registry x.vars).names) fun _ => True := by
    refine Run.ends_ok_bind ht (Run.ends_ok_bind (Run.outcome_rebind _ _ _)
      (Run.ends_ok_bind (Run.outcome_rebind _ _ _) ?_))
    refine (appendModels_names _ hin.apart hin.built hin.joinable).mono
      (fun q v hq => ⟨hcopy.program ▸ hq.1, fun n => (hq.2 n).trans ?_⟩) fun _ h => h
    -- the models of the copy have no names but those of its registry
    refine ⟨?_, fun h => .inl ((hvars n).mpr h)⟩
    rintro (hn | ⟨m, hm, hn⟩)
    · exact (hvars n).mp hn
    · rw [hin.incoming m hm _ (m.varRegistries_subset m.head_vars_mem)] at hn
      have hmem := (hy.vars m hm _ m.head_vars_mem).names_subset hn
      rw [hcopy.vars, hf.names x.vars_mem] at hmem
      exact .inr hmem
  refine ((append_composite hb hp hx).and hnames).mono (fun q v ⟨hj, hprogram, hvars⟩ => ?_)
    fun _ _ => trivial
  exact hj.outline (d := .composite x) rfl hprogram hvars

/-- A parameter is linked as an expression with one leaf. -/
theorem append_parameter_outline {b s : Store α} {p : Composite α} (c : CellId) (hb : b.Apart s)
    (hp : p.Built b s) :
    (p.append (.parameter c)).Ends s (fun q t =>
      q.outline t = (p.outline s).append ((Operand.parameter c).outline s)) fun _ => True := by
  have hst : s.Apart (s.addCell (s.cell c)) :=
    (Store.Apart.refl hb.sound).addCell (s.cell c)
  obtain ⟨t, ht, hcells, hregs, hfind⟩ := outcome_adopt p.pars [((s.cell c).name, ⟨s.cells.size⟩)]
    (hp.valid.bounded.2.trans_le hst.moreRegistries)
  refine Run.ends_get_bind (Run.ends_ok_bind (Run.outcome_newCell _ s) (Run.ends_ok_bind ht ?_))
  refine Run.ends_pure (outline_of_adopted (e := .ofParameter (s.cell c).name c)
    (Expression.ofParameter_arithmetic _ _) (hregs _ hp.valid.kinds) fun n => ?_)
  rw [value?_adopted hb.sound hp.valid.bounded.2 hst.toWithin hcells hfind]
  simp only [Expression.outline, Expression.ofParameter, Registry.find?_cons, Registry.find?_nil]
  by_cases hn : n = (s.cell c).name
  · simp [hn, Store.cell_addCell]
  · simp [hn]

/-- An expression is linked with its program, and with copies of its parameters. -/
theorem append_expression_outline {b s : Store α} {p : Composite α} {e : Expression α}
    (hb : b.Apart s) (hp : p.Built b s) (hc : e.Arithmetic) :
    (p.append (.expression e)).Ends s (fun q t =>
      q.outline t = (p.outline s).append ((Operand.expression e).outline s)) fun _ => True := by
  obtain ⟨u, g, hu, hap, hg⟩ := Expression.copy_spec hb.sound e
  obtain ⟨t, ht, hcells, hregs, hfind⟩ := outcome_adopt p.pars (e.pars.rename g).entries
    (hp.valid.bounded.2.trans_le hap.moreRegistries)
  refine Run.ends_ok_bind hu (Run.ends_ok_bind ht (Run.ends_pure ?_))
  refine outline_of_adopted hc ?_ fun n => ?_
  · exact (hregs _ hp.valid.kinds).trans (hap.registries _ hp.valid.bounded.1)
  · rw [value?_adopted hb.sound hp.valid.bounded.2 hap.toWithin hcells hfind]
    show (s.value? p.pars n).or (((e.pars.rename g).find? n).map _) = _
    rw [Registry.find?_rename, Option.map_map]
    cases hf : e.pars.find? n with
    | none => simp [Expression.outline, hf]
    | some d =>
      have hmem : d ∈ e.pars.cells := Registry.mem_cells_of_find? hf
      simp [Expression.outline, hf, hg.cell d hmem]

/-- A number is linked as a constant; nothing else that is plain is accepted. -/
theorem append_plain_outline {s : Store α} (p : Composite α) (d : Datum α) :
    (p.append (.plain d)).Ends s (fun q t =>
      q.outline t = (p.outline s).append ((Operand.plain d).outline s)) fun _ => True := by
  cases hn : d.number? with
  | none =>
    rw [append_plain p hn]
    exact Run.ends_throw trivial
  | some y =>
    have hlift : (Operand.plain d).outline s = (Expression.ofNumber y).outline s := by
      simp [Operand.outline, Operand.lift?, hn]
    rw [append_number p hn, hlift]
    refine Run.ends_pure (outline_of_adopted (Expression.ofNumber_arithmetic y) rfl fun n => ?_)
    simp [Expression.outline, Expression.ofNumber, Registry.empty, Registry.find?_nil]

/-- What can be appended is in reach. -/
theorem append_reaches {s : Store α} (p : Composite α) (x : Operand α) :
    (p.append x).Ends s (fun _ _ => x.isBeyond = false) fun _ => True := by
  cases x with
  | plain d =>
    cases hn : d.number? with
    | none =>
      rw [append_plain p hn]
      exact Run.ends_throw trivial
    | some y =>
      rw [append_number p hn]
      exact Run.ends_pure (by simp [Operand.isBeyond, hn])
  | _ => exact (Run.ends_true _ s).mono (fun _ _ _ => rfl) fun _ h => h

theorem extended_reaches {s : Store α} (p : Composite α) (x : Operand α) (op : Operation) :
    (p.extended x op).Ends s (fun _ _ => x.isBeyond = false) fun _ => True := by
  refine (Run.ends_true p.copy s).bind fun out u _ => Run.ends_ite (fun _ => ?_) fun _ => ?_
  · exact append_reaches out x
  · exact (append_reaches out x).bind fun q t hx =>
      (Run.ends_true _ t).mono (fun _ _ _ => hx) fun _ h => h

/-- **Appending links outlines.** -/
theorem append_outline {b s : Store α} {p : Composite α} {x : Operand α} (hb : b.Apart s)
    (hp : p.Built b s) (hx : x.Valid s) (hc : x.Closed s) :
    (p.append x).Ends s
      (fun q t => q.outline t = (p.outline s).append (x.outline s)) fun _ => True := by
  cases x with
  | model m => exact append_model_outline hb hp hx
  | composite x => exact append_composite_outline hb hp hx
  | parameter c => exact append_parameter_outline c hb hp
  | expression e => exact append_expression_outline hb hp hc
  | plain d => exact append_plain_outline p d
  | operation op =>
    refine Run.ends_of_ok rfl (Outline.ext rfl rfl ?_ (funext fun n => ?_))
    · exact (Set.union_empty _).symm
    · exact Option.or_none.symm
  | weight w => exact Run.ends_throw trivial
  | other k => exact Run.ends_throw trivial

/-! ### Builders -/

/-- The empty composite has an empty outline. -/
theorem new_outline {s t : Store α} {p : Composite α}
    (h : (new : Run α (Composite α)).outcome s = (.ok p, t)) : p.outline t = .empty := by
  obtain ⟨hp, rfl⟩ := Prod.mk.inj h
  obtain rfl := Except.ok.inj hp
  have hvars : ((s.addRegistry .empty).addRegistry .empty).registry ⟨s.registries.size⟩ =
      .empty := by
    rw [Store.registry_addRegistry, if_neg, Store.registry_addRegistry, if_pos rfl]
    rw [Store.size_addRegistry]
    exact (Nat.lt_succ_self _).ne
  refine Outline.ext rfl rfl ?_ (funext fun n => ?_)
  · show {n | n ∈ (((s.addRegistry .empty).addRegistry .empty).registry
      ⟨s.registries.size⟩).names} = ∅
    rw [hvars]
    exact Set.eq_empty_of_forall_notMem fun n hn => List.not_mem_nil hn
  · show (((s.addRegistry .empty).addRegistry .empty).value?
      ⟨(s.addRegistry Registry.empty).registries.size⟩ n) = none
    unfold Store.value?
    rw [Store.registry_addRegistry, if_pos rfl]
    rfl

/-- **A composite of one operand** has the operand's outline. -/
theorem ofOperand_outline {s : Store α} {x : Operand α} (hs : s.Sound) (hx : x.Valid s)
    (hc : x.Closed s) :
    (ofOperand x).Ends s (fun q t => q.outline t = x.outline s) fun _ => True := by
  obtain ⟨p, u, hu, hap, hp, -, -⟩ := new_spec (Store.Apart.refl hs)
  have hxu : x.outline u = x.outline s := x.outline_of_within hs hap.toWithin hx
  have hcu : x.Closed u := hc.of_within hs hap.toWithin hx
  refine Run.ends_ok_bind hu ((append_outline hap hp (hx.grows hap.toGrows) hcu).mono
    (fun q t hq => ?_) fun _ h => h)
  rw [hq, new_outline hu, Outline.empty_append, hxu]

/-- A copy has the outline of the original. -/
theorem CopyOf.outline {s t : Store α} {p q : Composite α} {f : RegistryId → RegistryId}
    {g : CellId → CellId} (h : p.CopyOf f s t q) (hf : s.Copied t p.registries f g) :
    q.outline t = p.outline s := by
  refine Outline.ext h.program h.models.shapes.length_eq.symm ?_ (funext fun n => ?_)
  · show {n | n ∈ (t.registry q.vars).names} = {n | n ∈ (s.registry p.vars).names}
    rw [h.vars, hf.names p.vars_mem]
  · show t.value? q.pars n = s.value? p.pars n
    rw [h.pars, hf.value? p.pars_mem]

/-- **A copy with one more operand** has the outline of the composite, extended by the
operand's. -/
theorem extended_outline {s : Store α} {p : Composite α} {x : Operand α} (op : Operation)
    (hs : s.Sound) (hp : p.Valid s) (hx : x.Valid s) (hc : x.Closed s) :
    (p.extended x op).Ends s
      (fun q t => q.outline t = (p.outline s).extended op (x.outline s)) fun _ => True := by
  obtain ⟨out, u, f, g, hu, hap, hf, hcopy⟩ := copy_spec hs p hp.bounded_states
  have hout : out.Built s u := hcopy.built le_rfl le_rfl hp hf
  have hxu : x.outline u = x.outline s := x.outline_of_within hs hap.toWithin hx
  have hcu : x.Closed u := hc.of_within hs hap.toWithin hx
  have happ : (out.append x).Ends u
      (fun q t => q.outline t = (p.outline s).append (x.outline s)) fun _ => True :=
    (append_outline hap hout (hx.grows hap.toGrows) hcu).mono
      (fun q t hq => by rw [hq, hcopy.outline hf, hxu]) fun _ h => h
  have hprogram : out.program.isEmpty = (p.outline s).program.isEmpty := by
    rw [hcopy.program]
    rfl
  unfold extended
  rw [Outline.extended, ← hprogram]
  refine Run.ends_ok_bind hu (Run.ends_ite (fun hempty => ?_) fun hempty => ?_)
  · rw [if_pos hempty]
    exact happ
  · rw [if_neg hempty]
    refine happ.bind fun q t hq => Run.ends_of_ok rfl ?_
    rw [← hq]
    rfl

/-- **What is built** has the outline of the composite, extended by the operand's. -/
theorem Builder.run_outline {s : Store α} (how : Builder) {p : Composite α} {x : Operand α}
    (hs : s.Sound) (hp : p.Valid s) (hx : x.Valid s) (hc : x.Closed s) :
    (how.run p x).Ends s
      (fun q t => x.Fits ∧ q.outline t = (p.outline s).extended how.operation (x.outline s))
      fun _ => True :=
  run_ends trivial fun haccepts => ((extended_outline how.operation hs hp hx hc).and
    (extended_reaches p x how.operation)).mono
      (fun _ _ h => ⟨haccepts.1.fits h.2, h.1⟩) fun _ _ => trivial

/-- Only densities over the same variables add up, unless there is nothing yet. -/
def Builder.Admits (how : Builder) (o o' : Outline α) : Prop :=
  how = .sum → o.program ≠ [] → o.vars = o'.vars

/-- **What is built** is built of what the way of building admits. -/
theorem Builder.run_admits {s : Store α} (how : Builder) {p : Composite α} {x : Operand α} :
    (how.run p x).Ends s (fun _ _ => how.Admits (p.outline s) (x.outline s)) fun _ => True := by
  refine run_ends trivial fun haccepts => (Run.ends_true _ _).mono (fun _ _ _ => ?_) fun _ h => h
  rintro rfl hne
  ext n
  rw [Operand.mem_outline_vars, ← haccepts.2 hne]
  exact Registry.mem_sortNames.symm

end Composite

/-! ### Operators -/

namespace Operand

/-- The first operand came of building on the density `d` with the second one; those two
are as they were in `s`. -/
def JoinOf (s t : Store α) (d : Density α) : Operand α → Operand α → Prop
  | composite q, x => x.Fits ∧ x.Closed s ∧ ∃ how : Composite.Builder,
      how.Admits (d.outline s) (x.outline s) ∧
      q.outline t = (d.outline s).extended how.operation (x.outline s)
  | expression _, _ => False
  | _, _ => True

/-- What was built in a later store was built of what there was before. -/
theorem JoinOf.before {s u t : Store α} {d : Density α} {x y : Operand α}
    (h : y.JoinOf u t d x) (hs : s.Sound) (hd : d.Valid s) (hx : x.Valid s) (hc : x.Closed s)
    (hsu : Store.Within ∅ ∅ s u) : y.JoinOf s t d x := by
  cases y with
  | composite q =>
    obtain ⟨hfits, -, how, hadmits, hq⟩ := h
    rw [Density.outline_of_within hs hsu hd, Operand.outline_of_within hs hsu hx] at hadmits hq
    exact ⟨hfits, hc, how, hadmits, hq⟩
  | _ => exact h

/-- What is built on a composite came of it and the operand. -/
theorem joinOf_run {s : Store α} (how : Composite.Builder) {p : Composite α} {x : Operand α}
    (hs : s.Sound) (hp : p.Valid s) (hx : x.Valid s) (hc : x.Closed s) :
    (how.run p x).Ends s (fun q t => (composite q).JoinOf s t (.composite p) x) fun _ => True :=
  ((how.run_outline hs hp hx hc).and how.run_admits).mono
    (fun _ _ h => ⟨h.1.1, hc, how, h.2, h.1.2⟩) fun _ _ => trivial

theorem applyComposite_outline {s : Store α} {p : Composite α} (op : Operation) {x : Operand α}
    (hs : s.Sound) (hp : p.Valid s) (hx : x.Valid s) (hc : x.Closed s) :
    (applyComposite p op x).Ends s
      (fun o t => ∀ q, o = some q → (composite q).JoinOf s t (.composite p) x) fun _ => True :=
  applyComposite_ends (fun how _ _ => (joinOf_run how hs hp hx hc).mono
    (fun _ _ hq _ hq' => Option.some.inj hq' ▸ hq) fun _ h => h) nofun

/-- The composite of a model stands for the model. -/
theorem JoinOf.through {s u t : Store α} {m : Model α} {p q : Composite α} {x : Operand α}
    (h : (composite q).JoinOf u t (.composite p) x) (hs : s.Sound) (hx : x.Valid s)
    (hc : x.Closed s) (hsu : Store.Within ∅ ∅ s u) (hp : p.outline u = m.outline s) :
    (composite q).JoinOf s t (.model m) x := by
  obtain ⟨hfits, -, how, hadmits, hq⟩ := h
  rw [Operand.outline_of_within hs hsu hx,
    show (Density.composite p).outline u = m.outline s from hp] at hadmits hq
  exact ⟨hfits, hc, how, hadmits, hq⟩

/-- The composite of a model, in the store that it was made in. -/
theorem ofModel_outline {s : Store α} {m : Model α} (hs : s.Sound) (hm : m.Valid s) :
    (Composite.ofOperand (.model m)).Ends s
      (fun p t => p.Valid t ∧ p.outline t = m.outline s ∧ s.Apart t) fun _ => True :=
  ((Composite.ofModel_spec (Store.Apart.refl hs) hm).and
    (Composite.ofOperand_outline (x := .model m) hs hm trivial)).mono
    (fun _ _ h => ⟨h.1.1.built.valid, h.2, h.1.2.2⟩) fun _ _ => trivial

theorem applyModel_outline {s : Store α} {m : Model α} (op : Operation) {x : Operand α}
    (hs : s.Sound) (hm : m.Valid s) (hx : x.Valid s) (hc : x.Closed s) :
    (applyModel m op x).Ends s (fun o t => ∀ y, o = some y → y.JoinOf s t (.model m) x)
      fun _ => True := by
  refine applyModel_ends ?_ (fun _ _ => ?_) fun _ => nofun
  · rintro d w rfl - rfl
    refine (Run.ends_true (d.withWeight w) s).mono (fun e t _ y hy => ?_) fun _ h => h
    obtain rfl := Option.some.inj hy
    trivial
  · refine (ofModel_outline hs hm).mono ?_ fun _ h => h
    rintro p u ⟨hp, houtline, hsu⟩
    refine (applyComposite_outline op hsu.sound hp (hx.grows hsu.toGrows)
      (hc.of_within hs hsu.toWithin hx)).mono (fun o t ho y hy => ?_) fun _ h => h
    obtain ⟨q, hq, rfl⟩ := Option.map_eq_some_iff.mp hy
    exact (ho q hq).through hs hx hc hsu.toWithin houtline

/-- What an operator made of these operands: arithmetic over their expressions, or what came of
building on their first density with their second one or with a factor. -/
def Drafted (s t : Store α) (xs : List (Operand α)) (y : Operand α) : Prop :=
  (∃ d x, xs.filterMap density? = d :: x.density?.toList ∧
    (∀ e, x = .expression e → e.From (expressions xs)) ∧ y.JoinOf s t d x) ∨
    y.density? = none ∧ ∀ e, y = .expression e → e.From (expressions xs)

theorem JoinOf.drafted {s t : Store α} {d : Density α} {x y : Operand α} {xs : List (Operand α)}
    (h : y.JoinOf s t d x) (hds : xs.filterMap density? = d :: x.density?.toList)
    (hx : ∀ e, x = .expression e → e.From (expressions xs)) : y.Drafted s t xs :=
  .inl ⟨d, x, hds, hx, h⟩

/-- What came of an operand behind a density. -/
theorem JoinOf.drafted_right {s t : Store α} {d : Density α} {l x y : Operand α}
    (h : y.JoinOf s t d x) (hl : l.density? = some d) : y.Drafted s t [l, x] :=
  h.drafted (by cases hx : x.density? <;> simp [hl, hx]) fun e he => .given (by simp [expressions, he])

/-- What came of a factor in front of a density. -/
theorem JoinOf.drafted_left {s t : Store α} {d : Density α} {x r y : Operand α}
    (h : y.JoinOf s t d x) (hr : r.density? = some d) (hx : x.density? = none) :
    y.Drafted s t [x, r] :=
  h.drafted (by simp [hr, hx]) fun e he => .given (by simp [expressions, he])

/-- What an operator makes of a model on its right, if there is no density on its left. -/
theorem apply_model_outline {s : Store α} {l : Operand α} {m : Model α} (op : Operation)
    (hs : s.Sound) (hl : l.Valid s) (hc : l.Closed s) (hm : m.Valid s)
    (hnone : l.density? = none) :
    (apply op l (.model m)).Ends s (fun y t => y.Drafted s t [l, .model m]) fun _ => True := by
  refine apply_model_right_ends (isDensity_of_density? hnone) ?_ (fun _ _ => ?_) fun _ => trivial
  · rintro w d rfl rfl -
    refine (Run.ends_true (d.withWeight w) s).mono (fun e t _ => ?_) fun _ h => h
    exact .inl ⟨_, .other "", rfl, by simp, trivial⟩
  · refine (ofModel_outline hs hm).mono ?_ fun _ h => h
    rintro p u ⟨hp, houtline, hsu⟩
    refine ⟨fun _ => trivial, fun _ => ?_⟩
    have hcu := hc.of_within hs hsu.toWithin hl
    refine (joinOf_run .scale hsu.sound hp (hl.grows hsu.toGrows) hcu).mono (fun q t hq => ?_)
      fun _ h => h
    exact (hq.through hs hl hc hsu.toWithin houtline).drafted_left rfl hnone

/-- What an operator makes of a composite on its right, if there is no density on its
left. -/
theorem apply_composite_outline {s : Store α} {l : Operand α} {p : Composite α} (op : Operation)
    (hs : s.Sound) (hl : l.Valid s) (hc : l.Closed s) (hp : p.Valid s)
    (hnone : l.density? = none) :
    (apply op l (.composite p)).Ends s (fun y t => y.Drafted s t [l, .composite p])
      fun _ => True :=
  apply_composite_right_ends (isDensity_of_density? hnone)
    (fun _ _ => (joinOf_run .scale hs hp hl hc).mono (fun _ _ hq => hq.drafted_left rfl hnone)
      fun _ h => h) trivial

/-- What an operator makes of operands that are no densities. -/
theorem apply_factors_outline {s : Store α} {l r : Operand α} {op : Operation}
    (hop : op.isBinary = true) (hln : l.density? = none) (hrn : r.density? = none) :
    (apply op l r).Ends s (fun y t => y.Drafted s t [l, r]) fun _ => True := by
  refine apply_factors_ends (isDensity_of_density? hln) (isDensity_of_density? hrn)
    (fun e e' he he' => .inr ⟨rfl, fun k hk => ?_⟩) (fun _ => .inr ⟨rfl, nofun⟩) trivial
  obtain rfl := Operand.expression.inj hk
  exact .combine hop (lift?_from (by simp) he) (lift?_from (by simp) he')

/-- **What an operator makes** is built on the first density among its operands, or
arithmetic over their expressions if there is none. -/
theorem apply_outline {s : Store α} {l r : Operand α} {op : Operation} (hop : op.isBinary = true)
    (hs : s.Sound) (hl : l.Valid s) (hr : r.Valid s) (hlc : l.Closed s) (hrc : r.Closed s) :
    (apply op l r).Ends s
      (fun y t => y.Drafted s t [l, r]) fun _ => True := by
  cases l with
  | model m =>
    have hfirst := (applyModel_outline op hs hl hr hrc).and
      (applyModel_spec op (Store.Apart.refl hs) hl hr)
    refine apply_model_left_ends (hfirst.mono (fun _ _ h => h) fun _ _ => trivial)
      (fun y t ht => (ht.1 y rfl).drafted_right rfl) (fun _ _ _ => trivial) ?_
    -- the second try, with the parameter as an expression
    rintro c u ⟨-, hsu, -⟩ rfl
    have hm : m.Valid u := Model.Valid.grows hl hsu.toGrows
    have he : (Operand.expression (.ofParameter (s.cell c).name c)).Valid s :=
      lift?_holds (x := .parameter c) hr rfl
    have hec : (Operand.expression (.ofParameter (s.cell c).name c) : Operand α).Closed s :=
      Expression.ofParameter_arithmetic _ _
    refine (applyModel_outline op hsu.sound hm (he.grows hsu.toGrows) hec).mono ?_ fun _ h => h
    rintro (_ | y) t hy
    · trivial
    · have hjoin := (hy y rfl).before hs (d := .model m) hl he hec hsu.toWithin
      refine hjoin.drafted rfl fun e he => ?_
      obtain rfl := Operand.expression.inj he
      exact .parameter _ _
  | composite p =>
    exact apply_composite_left_ends (fun how _ _ => (joinOf_run how hs hl hr hrc).mono
      (fun _ _ hq => hq.drafted_right rfl) fun _ h => h) trivial
  | _ =>
    cases r with
    | model m => exact apply_model_outline op hs hl hlc hr rfl
    | composite p => exact apply_composite_outline op hs hl hlc hr rfl
    | _ => exact apply_factors_outline hop rfl rfl

/-- A minus in front makes arithmetic of expressions. -/
theorem negate_outline {s : Store α} {x : Operand α} :
    (negate x).Ends s (fun y t => y.Drafted s t [x]) fun _ => True := by
  refine negate_ends (fun e he => .inr ⟨rfl, fun k hk => ?_⟩) (fun _ => .inr ⟨rfl, nofun⟩) trivial
  obtain rfl := Operand.expression.inj hk
  exact (lift?_from (by simp) he).negate

end Operand

end DensityAlgebra
