/-
# No variable is lost in a sum

The common variables of a composite are collected along its program: a sum keeps those that
both operands have, every other binary operator those of either one. A sum is only made of
densities over the same variables, and a factor has no variables at all, so a sum within it
loses none: the common variables of a composite with a program are all its variables.

The program spells a tree, and what the tree keeps is the set of variables; joining two such
composites keeps that, unless the second one is empty.

Key definitions: `Tree.common`, `Outline.Supported`.
Key theorems: `Tree.common_shift`, `Outline.Supported.extended`, `Making.Drafted.supported`,
`Composite.commonVars_eq`, `Session.common_variables`.
-/
import DensityAlgebra.Proofs.Coherence
import Mathlib.Data.List.GetD

namespace DensityAlgebra

variable {α : Type}

/-! ### What a tree keeps -/

namespace Tree

/-- The names that the tree keeps of those of its models: what both operands of a sum have,
and what either one of another operator has. -/
def common (Vs : List (Set String)) : Tree α → Set String
  | leaf (.model i) => Vs.getD i.toNat ∅
  | leaf _ => ∅
  | binary op l r =>
    if op = .plus then l.common Vs ∩ r.common Vs else l.common Vs ∪ r.common Vs
  | unary _ t => t.common Vs

variable {known : String → Prop} {Vs Ws : List (Set String)} {n : Nat} {t : Tree α}

/-- What a tree keeps is a matter of its leaves. -/
theorem common_congr (h : ∀ i, .leaf (.model i) ∈ t.spell →
    Vs.getD i.toNat ∅ = Ws.getD i.toNat ∅) : t.common Vs = t.common Ws := by
  refine induction_on_leaves (motive := fun t => t.common Vs = t.common Ws)
    (P := fun l => ∀ i, l = .model i → Vs.getD i.toNat ∅ = Ws.getD i.toNat ∅)
    (fun l hl => ?_) (fun op l r hl hr => ?_) (fun op t ht => ht) fun l hl i hi => h i (hi ▸ hl)
  · cases l with
    | model i => exact hl i rfl
    | _ => rfl
  · simp only [common, hl, hr]

/-- Models that follow do not matter. -/
theorem common_append (h : ∀ l, .leaf l ∈ t.spell → l.Among Vs.length known) :
    t.common (Vs ++ Ws) = t.common Vs := by
  refine common_congr fun i hi => ?_
  obtain ⟨h0, hlt⟩ := h _ hi
  exact List.getD_append _ _ _ _ (by omega)

/-- Models that come first are counted in. -/
theorem common_shift (h : ∀ l, .leaf l ∈ t.spell → l.Among n known) :
    (t.shift Vs.length).common (Vs ++ Ws) = t.common Ws := by
  refine induction_on_leaves
    (motive := fun t => (t.shift Vs.length).common (Vs ++ Ws) = t.common Ws)
    (fun l hl => ?_) (fun op l r hl hr => ?_) (fun op t ht => ht) h
  · cases l with
    | model i =>
      have h0 : 0 ≤ i := hl.1
      have hright : Vs.length ≤ (i + (Vs.length : Int)).toNat := by omega
      have hsub : (i + (Vs.length : Int)).toNat - Vs.length = i.toNat := by omega
      show (Vs ++ Ws).getD (i + (Vs.length : Int)).toNat ∅ = Ws.getD i.toNat ∅
      rw [List.getD_append_right _ _ _ _ hright, hsub]
    | _ => rfl
  · simp only [shift, common, hl, hr]

/-- Without models nothing is kept, whatever the operators are. -/
theorem common_eq_empty (h : ∀ l, .leaf l ∈ t.spell → l.Among 0 known) : t.common Vs = ∅ := by
  refine induction_on_leaves (motive := fun t => t.common Vs = ∅)
    (fun l hl => ?_) (fun op l r hl hr => ?_) (fun op t ht => ht) h
  · cases l with
    | model i => exact absurd hl.2 (by simpa using hl.1)
    | _ => rfl
  · simp only [common, hl, hr, Set.inter_self, Set.union_self, ite_self]

end Tree

/-! ### Supported outlines -/

namespace Outline

/-- The program spells a tree that keeps all variables, where the models have these names; or
there is no program, and no variable. -/
def Supported (o : Outline α) (parts : List Names) : Prop :=
  o.program = [] ∧ o.vars = ∅ ∨
    ∃ t : Tree α, t.WellTyped ∧ t.spell = o.program ∧ t.common (parts.map Names.vars) = o.vars

namespace Supported

variable {o o' : Outline α} {parts parts' : List Names}

theorem congr (h : o.Supported parts) (hprogram : o'.program = o.program)
    (hvars : o'.vars = o.vars) : o'.Supported parts := by
  unfold Supported at h ⊢
  rwa [hprogram, hvars]

/-- **What is joined keeps all variables** if its operands do, a sum is one over the same
variables, and no operand is missing. -/
theorem extended (h : o.Supported parts) (h' : o'.Supported parts') (hc : o.Closed)
    (hc' : o'.Closed) (hcount : o.count = parts.length) {op : Operation}
    (hop : op.isBinary = true) (hsum : op = .plus → o.program ≠ [] → o.vars = o'.vars)
    (hfull : o.program ≠ [] → o'.program ≠ []) :
    (extended op o o').Supported (parts ++ parts') := by
  have hlength : o.count = (parts.map Names.vars).length := by rw [List.length_map, hcount]
  -- the second tree, numbered on, keeps what it kept
  have hshift : ∀ u : Tree α, u.spell = o'.program →
      (u.shift o.count).common (parts.map Names.vars ++ parts'.map Names.vars) =
        u.common (parts'.map Names.vars) := by
    intro u hu
    rw [hlength]
    exact Tree.common_shift fun l hl => hc' l (hu ▸ hl)
  unfold Supported
  rw [List.map_append]
  rcases h with ⟨hnil, hnone⟩ | ⟨t, ht, hspell, hcommon⟩
  · have hvars : (o.append o').vars = o'.vars := by
      show o.vars ∪ o'.vars = _
      rw [hnone, Set.empty_union]
    have hprogram : (o.append o').program = o'.program.shiftModels o.count := by
      show o.program ++ _ = _
      rw [hnil, List.nil_append]
    rw [extended_of_empty hnil, hvars, hprogram]
    rcases h' with ⟨hnil', hnone'⟩ | ⟨u, hu, hspell', hcommon'⟩
    · exact .inl ⟨by rw [hnil']; rfl, hnone'⟩
    · refine .inr ⟨u.shift o.count, hu.shift _, ?_, ?_⟩
      · rw [u.spell_shift, hspell']
      · rw [hshift u hspell', hcommon']
  · have hne : o.program ≠ [] := hspell ▸ Program.Whole.ne_nil ⟨t, ht, rfl⟩
    obtain ⟨u, hu, hspell', hcommon'⟩ := h'.resolve_left fun hempty => hfull hne hempty.1
    rw [extended_of_nonempty hne]
    refine .inr ⟨.binary op t (u.shift o.count), ⟨hop, ht, hu.shift _⟩, ?_, ?_⟩
    · show t.spell ++ (u.shift o.count).spell ++ _ = o.program ++ _ ++ _
      rw [hspell, u.spell_shift, hspell']
    · have hleft : t.common (parts.map Names.vars ++ parts'.map Names.vars) = o.vars := by
        rw [Tree.common_append fun l hl => hlength ▸ hc l (hspell ▸ hl), hcommon]
      show (if op = .plus then _ ∩ _ else _ ∪ _) = o.vars ∪ o'.vars
      rw [hleft, hshift u hspell', hcommon']
      split
      · rename_i hplus
        rw [hsum hplus hne, Set.inter_self, Set.union_self]
      · rfl

end Supported

end Outline

variable [Scalar α]

section

variable {s t : Store α} {os : List (Object α)}

/-- An expression that arithmetic builds has no variables to keep. -/
theorem Expression.Arithmetic.supported {e : Expression α} (h : e.Arithmetic) (s : Store α) :
    (e.outline s).Supported [] := by
  obtain ⟨⟨t, ht, hspell⟩, hamong⟩ := h
  exact .inr ⟨t, ht, hspell, Tree.common_eq_empty fun l hl => hamong l (hspell ▸ hl)⟩

theorem Model.supported (s : Store α) (m : Model α) :
    (m.outline s).Supported [m.names s] :=
  .inr ⟨.leaf (.model 0), trivial, rfl, rfl⟩

/-- The outline of the density keeps its variables, over the names of its models. -/
def Density.Supported (s : Store α) (d : Density α) : Prop :=
  (d.outline s).Supported (d.models.map (Model.names s))

/-- A density that keeps its variables goes on doing so. -/
theorem Density.Supported.grows {d : Density α} (h : d.Supported s) (hd : d.Valid s)
    (hst : s.Grows t) : d.Supported t := by
  unfold Density.Supported
  rw [Density.models_names_of_grows hd hst]
  refine Outline.Supported.congr h ?_ (congrArg Names.vars (Density.names_of_grows hd hst))
  rw [d.outline_program, d.outline_program]

/-- What stands beside an operator keeps its variables if its density does. -/
theorem Operand.outline_supported {x : Operand α} (hc : x.Closed s)
    (hd : ∀ d, x.density? = some d → d.Supported s) (hop : ∀ op, x ≠ .operation op) :
    (x.outline s).Supported (x.models.map (Model.names s)) := by
  rcases x.outline_cases s with ⟨d, hxd, hm, hx⟩ | ⟨hm, ⟨op, hxop, -⟩ | ⟨e, hl, hx⟩ | hx⟩
  · rw [hm, hx]
    exact hd d hxd
  · exact absurd hxop (hop op)
  · rw [hm, hx]
    exact (hc.lift? hl).supported s
  · rw [hm, hx]
    exact .inl ⟨rfl, rfl⟩

/-- **What is drafted of densities that keep their variables** keeps its own, unless the making
is hollow. -/
theorem Making.Drafted.supported {m : Making α} {q : Composite α} (h : m.Drafted s t os q)
    (hmakes : m.Makes s t os (.density (.composite q)))
    (hos : ∀ d, .density d ∈ os → d.Supported s ∧ (d.outline s).Closed) (hb : ¬ m.Bare)
    (hfull : ¬ m.Hollow os) : (Density.composite q).Supported t := by
  have hdensities : ∀ d ∈ m.densities os, d.Supported s ∧ (d.outline s).Closed :=
    fun d hd => hos d (Making.mem_densities hd)
  show (q.outline t).Supported (q.models.map (Model.names t))
  rw [(hmakes.composed q rfl).names]
  cases h with
  | empty houtline => exact houtline ▸ .inl ⟨rfl, rfl⟩
  | @single x y _ hc hpassed hdensity houtline =>
    rw [houtline, densities_single, ← hdensity, ← Operand.models_eq]
    refine Operand.outline_supported hc
      (fun d hd => (hdensities d (mem_densities_single.mpr (hdensity ▸ hd))).1) fun op hop => hb ?_
    subst hop
    rw [Passed.operation_of_operand hpassed]
    trivial
  | @joined _ d y _ hds _ hjoin =>
    obtain ⟨hfits, hc, how, hadmits, houtline⟩ := hjoin
    obtain ⟨hd, hdc⟩ := hdensities d (hds ▸ List.mem_cons_self)
    have hy : (y.outline s).Supported (y.models.map (Model.names s)) := by
      refine Operand.outline_supported hc (fun e he =>
        (hdensities e (hds ▸ List.mem_cons_of_mem _ (Option.mem_toList.mpr he))).1) fun op hop => ?_
      subst hop
      simp [Operand.Fits, Operand.isDensity, Operand.isFactor] at hfits
    have hplus : how.operation = .plus → how = .sum := by cases how <;> simp [Composite.Builder.operation]
    rw [houtline, hds, List.flatMap_cons, List.map_append, ← Operand.models_eq]
    refine hd.extended hy hdc hc.outline ?_ how.operation_isBinary
      (fun hop => hadmits (hplus hop)) fun hne hnil => hfull ?_
    · rw [List.length_map]
      cases d <;> rfl
    · obtain ⟨e, rfl, he⟩ := hfits.composite_of_empty hc hnil
      exact ⟨d, e, hds, by rwa [← d.outline_program s], he⟩
  | @copied i p _ hheld houtline =>
    rw [houtline, densities_copy hheld, List.flatMap_singleton]
    exact (hos _ (List.mem_of_getElem? hheld)).1

end

/-! ### Collected names -/

section

variable {s : Store α} {p : Composite α}

/-- The names that are collected along a tree are those that it keeps, each of them once. -/
theorem Tree.fold_nameSets (hs : s.Sound) {known : String → Prop} {t : Tree α}
    (h : ∀ l, .leaf l ∈ t.spell → l.Among p.models.length known) :
    ∃ names, t.fold (p.nameSets s) = .ok names ∧ names.Nodup ∧
      ∀ n, n ∈ names ↔ n ∈ t.common ((p.models.map (Model.names s)).map Names.vars) := by
  induction t with
  | leaf l =>
    cases l with
    | model i =>
      obtain ⟨h0, hlt⟩ := h _ List.mem_cons_self
      have hpos : i.toNat < p.models.length := by omega
      refine ⟨p.models[i.toNat].varNames s, ?_, ?_, fun n => ?_⟩
      · show (do return (← Composite.itemAt p.models i).varNames s : Except (Fault α) _) = _
        rw [Composite.itemAt_eq_ok h0 (List.getElem?_eq_getElem hpos)]
        rfl
      · exact Registry.nodup_sortedNames (hs _).distinct
      · show _ ↔ n ∈ List.getD _ i.toNat ∅
        rw [List.getD_eq_getElem _ _ (by simpa using hpos), List.getElem_map, List.getElem_map]
        exact Model.mem_names_vars.symm
    | parameter n => exact ⟨[], rfl, List.nodup_nil, by simp [common]⟩
    | constant x => exact ⟨[], rfl, List.nodup_nil, by simp [common]⟩
  | binary op l r ihl ihr =>
    obtain ⟨xs, hx, hxn, hxs⟩ := ihl fun a ha =>
      h a (List.mem_append_left _ (List.mem_append_left _ ha))
    obtain ⟨ys, hy, hyn, hys⟩ := ihr fun a ha =>
      h a (List.mem_append_left _ (List.mem_append_right _ ha))
    refine ⟨if op = .plus then xs.filter ys.contains else xs ++ ys.filter fun n => !xs.contains n,
      ?_, ?_, fun n => ?_⟩
    · simp only [fold, hx, hy, ok_bind]
      rfl
    · split
      · exact hxn.filter _
      · refine List.nodup_append.mpr ⟨hxn, hyn.filter _, fun a ha b hb hab => ?_⟩
        have hnot : b ∉ xs := by simpa using (List.mem_filter.mp hb).2
        exact hnot (hab ▸ ha)
    · simp only [common]
      split
      · simp [List.mem_filter, hxs, hys]
      · rw [List.mem_append, List.mem_filter, Set.mem_union, ← hxs, ← hys]
        by_cases hn : n ∈ xs <;> simp [hn]
  | unary op t ih =>
    obtain ⟨xs, hx, hxn, hxs⟩ := ih fun a ha => h a (List.mem_append_left _ ha)
    refine ⟨xs, ?_, hxn, hxs⟩
    simp only [fold, hx, ok_bind]
    rfl

/-- **The common variables are all variables** of a composite whose program keeps them. -/
theorem Composite.commonVars_eq (hs : s.Sound) (hc : (p.outline s).Closed)
    (h : (Density.composite p).Supported s) (hne : p.program ≠ []) :
    p.commonVars s = .ok (p.varNames s) := by
  obtain ⟨t, ht, hspell, hcommon⟩ := h.resolve_left fun hempty => hne hempty.1
  obtain ⟨names, hfold, hnodup, hnames⟩ := t.fold_nameSets (p := p) hs fun l hl =>
    hc l (hspell ▸ hl)
  have hperm : names.Perm (s.registry p.vars).names := by
    refine (List.perm_ext_iff_of_nodup hnodup (hs _).distinct).mpr fun n => ?_
    rw [hnames]
    exact iff_of_eq (congrArg (n ∈ ·) hcommon)
  have hreplay : p.program.replay (p.nameSets s) = .ok names := by
    rw [← show t.spell = p.program from hspell, t.replay_spell _ ht, hfold]
  rw [commonVars, hreplay, ok_bind]
  exact congrArg Except.ok (Registry.sortNames_eq_of_perm hperm)

end

/-! ### Sessions -/

namespace Session

/-- All densities keep their variables. -/
def Supported (σ : Session α) : Prop := ∀ d, .density d ∈ σ.objects → d.Supported σ.store

/-- What an orderly making makes of densities that keep their variables keeps its own. -/
theorem Supported.made {σ : Session α} (hσ : σ.Valid) (hcl : σ.Closed) (h : σ.Supported)
    {m : Making α} (hm : m.Binary) (hb : ¬ m.Bare) (hfull : ¬ m.Hollow σ.objects)
    {q : Composite α} {t : Store α}
    (hrun : (m.run σ.objects).outcome σ.store = (.ok (.density (.composite q)), t)) :
    (Density.composite q).Supported t :=
  Making.Drafted.supported ((Making.run_draws hσ.sound hσ.objects hcl hm).ok hrun)
    ((m.run_spec hσ.sound hσ.objects).ok hrun) (fun d hd => ⟨h d hd, hcl _ hd⟩) hb hfull

/-- One more orderly call leaves that so. -/
theorem Supported.step {σ : Session α} (hσ : σ.Valid) (hcl : σ.Closed) (h : σ.Supported)
    {c : Call α} (hc : c.Orderly σ) : (σ.step c).Supported := by
  intro d hd
  cases d with
  | model k => exact k.supported _
  | composite q =>
    rcases mem_objects_step hd with hold | ⟨new, hadded, hrun⟩
    · exact (h _ hold).grows (hσ.objects _ hold) (hσ.evolves c).toGrows
    · rcases (Call.run_draws hσ hcl hc.arithmetic).ok hrun _ hadded with ⟨m, rfl, -⟩ | hprimitive
      · obtain ⟨o, u, ho, hnew⟩ := Run.outcome_bind_eq_ok hrun
        obtain ⟨hone, rfl⟩ := Prod.mk.inj hnew
        rw [← Except.ok.inj hone] at hadded
        obtain rfl := List.mem_singleton.mp hadded
        exact h.made hσ hcl hc.1 hc.2.1 (fun hhollow => hc.2.2 hhollow _ _ ho) ho
      · exact absurd hprimitive id

theorem supported_after {calls : List (Call α)} (h : Throughout Call.Orderly start calls) :
    (after calls).Supported :=
  h.invariant_of_closed (fun _ _ hc => hc.arithmetic)
    (fun _ _ hσ hcl hs hc => Supported.step hσ hcl hs hc) fun _ hd => absurd hd List.not_mem_nil

/-- **The common variables of a composite are all its variables.** In every orderly session
that holds of every composite with a program; and it holds of whatever is made next of
densities with programs, by builders, operators or copies. -/
theorem common_variables {calls : List (Call α)} (h : Throughout Call.Orderly start calls) :
    (∀ p, .density (.composite p) ∈ (after calls).objects → p.program ≠ [] →
      p.commonVars (after calls).store = .ok (p.varNames (after calls).store)) ∧
    ∀ (m : Making α) (q : Composite α) (t : Store α), m.Binary →
      m.densities (after calls).objects ≠ [] →
      (∀ d ∈ m.densities (after calls).objects, d.program ≠ []) →
      (m.run (after calls).objects).outcome (after calls).store =
        (.ok (.density (.composite q)), t) →
      q.commonVars t = .ok (q.varNames t) := by
  have hvalid := after_valid calls
  have hclosed := closed_after (h.mono fun _ _ hc => hc.arithmetic)
  have hsupported := supported_after h
  set σ := after calls
  refine ⟨fun p hp hne => ?_, fun m q t hm hsome hds hrun => ?_⟩
  · exact Composite.commonVars_eq hvalid.sound (hclosed _ hp) (hsupported _ hp) hne
  · have hdraws : m.Drafted σ.store t σ.objects q :=
      (Making.run_draws hvalid.sound hvalid.objects hclosed hm).ok hrun
    have hmakes := (m.run_spec hvalid.sound hvalid.objects).ok hrun
    have hq : (q.outline t).Closed :=
      (show m.Draws σ.store t σ.objects (.density (.composite q)) from hdraws).closed hclosed
    have hfull : ¬ m.Hollow σ.objects := by
      rintro ⟨d, e, heq, -, he⟩
      exact hds (.composite e) (by simp [heq]) he
    have hb : ¬ m.Bare := by
      intro hbare
      cases m with
      | single x =>
        cases x with
        | operation op => exact hsome rfl
        | _ => exact hbare
      | _ => exact hbare
    obtain ⟨d, hd⟩ := List.exists_mem_of_ne_nil _ hsome
    exact Composite.commonVars_eq hmakes.apart.sound hq
      (hsupported.made hvalid hclosed hm hb hfull hrun) (hdraws.ne_nil hd (hds d hd))

end Session

/-- A making is orderly if it has only densities with programs. -/
theorem Call.orderly_make {σ : Session α} {m : Making α} (hm : m.Binary) (hb : ¬ m.Bare)
    (hds : (m.densities σ.objects).all (fun d => !d.program.isEmpty) = true) :
    Call.Orderly σ (.make m) := by
  refine ⟨hm, hb, ?_⟩
  rintro ⟨d, e, heq, -, he⟩
  have hne := List.all_eq_true.mp hds (.composite e) (by simp [heq])
  simp [Density.program, he] at hne

namespace Sample

/-- A normal density, scaled by a factor, plus another one over the same variable, times a
decay density. -/
def summed : List (Call ℚ) :=
  cells ++ (decay ++ ([.gaussian "Gaussian" 3 4 5, .make (.single (.held 11))] ++ (factors ++
    [ .make (.operator .mult (.held 12) (.held 14)),
      .make (.operator .plus (.held 15) (.held 11)),
      .make (.operator .mult (.held 16) (.held 10)) ])))

theorem summed_orderly : Session.Throughout Call.Orderly .start summed := by
  have hcells : Session.Throughout Call.Orderly .start cells := by
    refine Session.Throughout.of_forall (fun c hc σ => ?_) _
    simp only [cells, List.mem_cons, List.not_mem_nil, or_false] at hc
    rcases hc with rfl | rfl | rfl | rfl | rfl | rfl | rfl <;> trivial
  refine hcells.append (.append ⟨trivial, trivial, trivial, ?_, trivial⟩
    (.append ⟨trivial, ?_, trivial⟩ (.append ⟨factors_exact.1.1, ?_, trivial⟩
      ⟨?_, ?_, ?_, trivial⟩)))
  all_goals exact Call.orderly_make (by trivial) id (by decide +kernel)

end Sample

/-- A sum stands within a product, and another one within a factor; a quotient follows. -/
theorem Session.common_variables_summed :
    let σ := Session.after Sample.summed
    let quotient := Making.operator .div (.held 17) (.held 4)
    Throughout Call.Orderly start Sample.summed ∧
    (∃ p : Composite ℚ, .density (.composite p) ∈ σ.objects ∧
      p.program = [.leaf (.model 0), .leaf (.parameter "w"), .unary .exp, .leaf (.parameter "a"),
        .binary .plus, .binary .mult, .leaf (.model 1), .binary .plus, .leaf (.model 2),
        .binary .mult] ∧
      p.varNames σ.store = ["m12", "m13", "m23", "t"] ∧
      p.commonVars σ.store = .ok (p.varNames σ.store)) ∧
    ∃ (q : Composite ℚ) (t : Store ℚ),
      (quotient.run σ.objects).outcome σ.store = (.ok (.density (.composite q)), t) ∧
      quotient.densities σ.objects ≠ [] ∧
      (∀ d ∈ quotient.densities σ.objects, d.program ≠ []) ∧
      q.commonVars t = .ok (q.varNames t) := by
  have hheld : ∃ p ∈ (Held.composite (Session.after Sample.summed).objects 17).toOption,
      p.program = [.leaf (.model 0), .leaf (.parameter "w"), .unary .exp, .leaf (.parameter "a"),
        .binary .plus, .binary .mult, .leaf (.model 1), .binary .plus, .leaf (.model 2),
        .binary .mult] ∧
      p.varNames (Session.after Sample.summed).store = ["m12", "m13", "m23", "t"] := by
    decide +kernel
  obtain ⟨p, hp, hprogram, hnames⟩ := hheld
  have hobject := Held.composite_eq_ok (Sample.eq_ok_of_toOption hp)
  have hmem := List.mem_of_getElem? hobject
  have hcell : ∃ c, (Session.after Sample.summed).objects[4]? = some (.cell c) := by
    have hsome : (Held.cell (Session.after Sample.summed).objects 4).isOk = true := by
      decide +kernel
    cases hc : Held.cell (Session.after Sample.summed).objects 4 with
    | ok c => exact ⟨c, Held.cell_eq_ok hc⟩
    | error e => simp [hc, Except.isOk, Except.toBool] at hsome
  obtain ⟨c, hc⟩ := hcell
  have hdensities : (Making.operator .div (.held 17) (.held 4) : Making ℚ).densities
      (Session.after Sample.summed).objects = [.composite p] := by
    simp [Making.densities_operator, Passed.density?, hobject, hc]
  have hmade : (Sample.composite? (((Making.operator .div (.held 17) (.held 4)).run
      (Session.after Sample.summed).objects).outcome
        (Session.after Sample.summed).store)).isSome = true := by decide +kernel
  obtain ⟨⟨q, t⟩, hq⟩ := Option.isSome_iff_exists.mp hmade
  have hrun := Sample.outcome_of_composite? hq
  have hsome : (Making.operator .div (.held 17) (.held 4) : Making ℚ).densities
      (Session.after Sample.summed).objects ≠ [] := by simp [hdensities]
  have hfull : ∀ d ∈ (Making.operator .div (.held 17) (.held 4) : Making ℚ).densities
      (Session.after Sample.summed).objects, d.program ≠ [] := by
    simp [hdensities, Density.program, hprogram]
  obtain ⟨hall, hnext⟩ := common_variables Sample.summed_orderly
  exact ⟨Sample.summed_orderly, ⟨p, hmem, hprogram, hnames, hall p hmem (by simp [hprogram])⟩,
    q, t, hrun, hsome, hfull, hnext (.operator .div (.held 17) (.held 4)) q t rfl hsome hfull hrun⟩

end DensityAlgebra
