/-
# Which programs are whole

An empty composite becomes its first operand, so nothing is missing there. An empty
operand is not looked at: where a composite with a program is joined with an empty one,
the operation stands behind the one program alone, and lacks an operand from then on.
Such a making is hollow. In a session of arithmetic without hollow makings every program
is empty or whole, and whatever is asked of a composite with a program, its variables, its
text or its value, does not fail for the program; and the next making breaks that exactly
if it is hollow.

Key definitions: `Program.InOrder`, `Making.Hollow`, `Composite.Answers`, `Call.Orderly`.
Key theorems: `Making.Drafted.program_eq`, `Composite.answers_of_whole`,
`Composite.fails_of_underflow`, `Session.programs_in_order`.
-/
import DensityAlgebra.Proofs.Composing
import DensityAlgebra.Proofs.Faults

namespace DensityAlgebra

variable {α : Type}

/-! ### Programs in order -/

namespace Program

/-- The program is empty, or it spells a tree. -/
def InOrder (p : Program α) : Prop := p = [] ∨ p.Whole

theorem Whole.steady {p : Program α} (h : p.Whole) : p.Steady ∧ p.height = 1 := by
  obtain ⟨t, ht⟩ := h
  obtain ⟨hsteady, hlevel⟩ :=
    run_ok steady_nil level_nil (replay_ok_iff.mp (replay_syntactic.mpr ht))
  exact ⟨hsteady, hlevel.height⟩

/-- A binary operator behind a single operand lacks the other one. -/
theorem Whole.underflow {p : Program α} (h : p.Whole) {op : Operation}
    (hop : op.isBinary = true) : Defect (p ++ [.binary op]) .binaryUnderflow := by
  obtain ⟨hsteady, hheight⟩ := h.steady
  refine .node p (.binary op) [] _ rfl hsteady ?_
  rw [hheight]
  simp [Node.fault?, hop]

theorem InOrder.shift {p : Program α} (h : p.InOrder) (k : Nat) : InOrder (p.shiftModels k) := by
  rcases h with rfl | h
  · exact .inl rfl
  · exact .inr (h.shift k)

end Program

/-- The program of a density; a model is the only one of its own. -/
def Density.program : Density α → Program α
  | .model _ => [.leaf (.model 0)]
  | .composite p => p.program

/-- The single operand is no bare operation. -/
def Making.Bare : Making α → Prop
  | .single (.operation _) => True
  | _ => False

/-- A density with a program is joined with an empty composite. -/
def Making.Hollow (os : List (Object α)) (m : Making α) : Prop :=
  ∃ d e, m.densities os = [d, .composite e] ∧ d.program ≠ [] ∧ e.program = []

variable [Scalar α]

theorem Density.outline_program (s : Store α) (d : Density α) :
    (d.outline s).program = d.program := by
  cases d <;> rfl

section

variable {s t : Store α} {os : List (Object α)}

/-- Factors and models have whole programs, and nothing else that stands beside an operator
has a program, but composites and operations. -/
theorem Operand.inOrder {x : Operand α} (hc : x.Closed s)
    (hd : ∀ d, x.density? = some d → d.program.InOrder) (hop : ∀ op, x ≠ .operation op) :
    (x.outline s).program.InOrder := by
  rcases x.outline_cases s with ⟨d, hxd, -, hx⟩ | ⟨-, ⟨op, hxop, -⟩ | ⟨e, he, hx⟩ | hx⟩
  · rw [hx, d.outline_program]
    exact hd d hxd
  · exact absurd hxop (hop op)
  · rw [hx]
    exact .inr (hc.lift? he).1
  · rw [hx]
    exact .inl rfl

/-- Only a composite is an empty operand. -/
theorem Operand.Fits.composite_of_empty {x : Operand α} (hfits : x.Fits) (hc : x.Closed s)
    (h : (x.outline s).program = []) : ∃ e, x = .composite e ∧ e.program = [] := by
  by_cases hx : ∃ e, x = .composite e
  · obtain ⟨e, rfl⟩ := hx
    exact ⟨e, rfl, h⟩
  · have hw := hfits.whole hc fun e he => absurd ⟨e, he⟩ hx
    exact absurd h hw.ne_nil

theorem Passed.operation_of_operand {x : Passed α} {op : Operation}
    (h : (x.operand os).outcome s = (.ok (.operation op), s)) : x = .operation op := by
  cases x with
  | held i =>
    obtain ⟨o, u, ho, hrest⟩ := Run.outcome_bind_eq_ok h
    have hop : o.operand u = .operation op := Except.ok.inj (Prod.mk.inj hrest).1
    cases o with
    | cell c =>
      simp only [Object.operand] at hop
      split at hop <;> cases hop
    | density d => cases d <;> cases hop
    | _ => cases hop
  | plain d => cases Except.ok.inj (Prod.mk.inj h).1
  | operation op' => rw [Operand.operation.inj (Except.ok.inj (Prod.mk.inj h).1)]

/-- A composite that was joined is in order, or a density with a program was joined with an
empty composite. -/
theorem Operand.JoinOf.program_eq {d : Density α} {x : Operand α} {q : Composite α}
    (h : (composite q).JoinOf s t d x) (hd : d.program.InOrder)
    (hx : ∀ e, x.density? = some e → e.program.InOrder) :
    (q.program.InOrder ∧ ∀ e, x.density? = some (.composite e) → e.program = [] → d.program = []) ∨
      ∃ e op, x = .composite e ∧ e.program = [] ∧ d.program.Whole ∧ op.isBinary = true ∧
        q.program = d.program ++ [.binary op] := by
  obtain ⟨hfits, hc, how, -, houtline⟩ := h
  have hprogram : q.program = ((d.outline s).extended how.operation (x.outline s)).program :=
    congrArg Outline.program houtline
  have hinOrder : (x.outline s).program.InOrder := by
    refine Operand.inOrder hc hx fun op hop => ?_
    subst hop
    simp [Operand.Fits, isDensity, isFactor] at hfits
  rcases hd with hnil | hwhole
  · -- an empty composite becomes its operand
    rw [Outline.extended_of_empty ((d.outline_program s).trans hnil)] at hprogram
    refine .inl ⟨?_, fun _ _ _ => hnil⟩
    have hshift := hinOrder.shift (d.outline s).count
    rw [hprogram]
    simpa [Outline.append, d.outline_program s, hnil] using hshift
  · rw [Outline.extended_of_nonempty (by rw [d.outline_program s]; exact hwhole.ne_nil)] at hprogram
    have heq : q.program = d.program ++ (x.outline s).program.shiftModels (d.outline s).count ++
        [.binary how.operation] := by
      rw [hprogram, ← d.outline_program s]
      rfl
    rcases hinOrder with hempty | hwhole'
    · obtain ⟨e, rfl, he⟩ := hfits.composite_of_empty hc hempty
      refine .inr ⟨e, how.operation, rfl, he, hwhole, how.operation_isBinary, ?_⟩
      rw [heq, hempty]
      simp [Program.shiftModels]
    · refine .inl ⟨.inr ?_, fun e hsome he => ?_⟩
      · rw [heq]
        exact hwhole.join (hwhole'.shift _) how.operation_isBinary
      · refine absurd ?_ hwhole'.ne_nil
        rw [x.outline_of_density s hsome]
        exact he

/-- **What a making that is not bare has drafted** of densities whose programs are in order:
its program is in order, unless the making was hollow. -/
theorem Making.Drafted.program_eq {m : Making α} {q : Composite α} (h : m.Drafted s t os q)
    (hds : ∀ d ∈ m.densities os, d.program.InOrder) (hb : ¬ m.Bare) :
    (¬ m.Hollow os ∧ q.program.InOrder) ∨
      m.Hollow os ∧ ∃ (p : Program α) (op : Operation), p.Whole ∧ op.isBinary = true ∧
        q.program = p ++ [.binary op] := by
  -- a hollow making has two densities
  have hone : (m.densities os).length ≤ 1 → ¬ m.Hollow os := by
    rintro hlen ⟨d, e, heq, -⟩
    simp [heq] at hlen
  cases h with
  | empty houtline =>
    exact .inl ⟨hone (Nat.zero_le 1), .inl (congrArg Outline.program houtline)⟩
  | @single x y _ hc hpassed hdensity houtline =>
    have hlen : ((Making.single x).densities os).length ≤ 1 := by
      rw [densities_single]
      cases x.density? os <;> simp
    refine .inl ⟨hone hlen, ?_⟩
    rw [show q.program = (y.outline s).program from congrArg Outline.program houtline]
    refine Operand.inOrder hc
      (fun d hd => hds d (mem_densities_single.mpr (hdensity ▸ hd))) fun op hop => hb ?_
    subst hop
    rw [Passed.operation_of_operand hpassed]
    trivial
  | @joined _ d x _ hdensities _ hjoin =>
    have hd : d.program.InOrder := hds d (hdensities ▸ List.mem_cons_self)
    have hx : ∀ e, x.density? = some e → e.program.InOrder := fun e he =>
      hds e (hdensities ▸ List.mem_cons_of_mem _ (Option.mem_toList.mpr he))
    rcases hjoin.program_eq hd hx with ⟨hq, hfull⟩ | ⟨e, op, rfl, he, hwhole, hop, hq⟩
    · refine .inl ⟨?_, hq⟩
      rintro ⟨d', e, heq, hne, he⟩
      rw [hdensities] at heq
      obtain ⟨rfl, hxe⟩ := List.cons.inj heq
      refine hne (hfull e ?_ he)
      cases hsome : x.density? with
      | none => simp [hsome] at hxe
      | some e' => simpa [hsome] using hxe
    · exact .inr ⟨⟨d, e, hdensities, hwhole.ne_nil, he⟩, d.program, op, hwhole, hop, hq⟩
  | @copied i p _ hheld houtline =>
    refine .inl ⟨hone (by simp [densities_copy hheld]), ?_⟩
    rw [show q.program = p.program from congrArg Outline.program houtline]
    exact hds (.composite p) (densities_copy hheld ▸ List.mem_singleton_self _)

/-- What was drafted of a density with a program has one. -/
theorem Making.Drafted.ne_nil {m : Making α} {q : Composite α} (h : m.Drafted s t os q)
    {d : Density α} (hd : d ∈ m.densities os) (hne : d.program ≠ []) : q.program ≠ [] := by
  cases h with
  | empty houtline => exact absurd hd List.not_mem_nil
  | @single x y _ hc hpassed hdensity houtline =>
    rw [show q.program = (y.outline s).program from congrArg Outline.program houtline,
      y.outline_of_density s (hdensity.trans (mem_densities_single.mp hd)), d.outline_program s]
    exact hne
  | @joined _ e x _ hdensities _ hjoin =>
    obtain ⟨-, -, how, -, houtline⟩ := hjoin
    rw [show q.program = _ from congrArg Outline.program houtline]
    refine Outline.extended_ne_nil ?_
    rw [hdensities] at hd
    rcases List.mem_cons.mp hd with rfl | hd
    · exact .inl (by rwa [d.outline_program s])
    · exact .inr (by rwa [x.outline_of_density s (Option.mem_toList.mp hd), d.outline_program s])
  | @copied i p _ hheld houtline =>
    rw [densities_copy hheld, List.mem_singleton] at hd
    subst hd
    rw [show q.program = p.program from congrArg Outline.program houtline]
    exact hne

end

/-! ### What a composite answers -/

/-- Nothing that is asked of the composite fails for its program: it has common variables and
a text, and it has a value or fails to have one for another reason. -/
structure Composite.Answers (s : Store α) (p : Composite α) : Prop where
  common : ∃ names, p.commonVars s = .ok names
  text : ∀ number, ∃ text, p.render number = .ok text
  value : ∀ {input : Input α}, input.Clear → Clear (p.evaluate s input)

/-- An operand is missing: there are no common variables and no text, and no value anywhere. -/
structure Composite.Fails (s : Store α) (p : Composite α) : Prop where
  common : p.commonVars s = .error .binaryUnderflow
  text : ∀ number, p.render number = .error .binaryUnderflow
  value : ∀ input x, p.evaluate s input ≠ .ok x

namespace Composite

variable {s : Store α} {p : Composite α}

omit [Scalar α] in
/-- The item at a position that there is. -/
theorem itemAt_eq_ok {β : Type} {xs : List β} {i : Int} {x : β} (h0 : 0 ≤ i)
    (hx : xs[i.toNat]? = some x) : (itemAt xs i : Except (Fault α) β) = .ok x := by
  have hneg : ¬ i < 0 := by omega
  have hlow : ¬ i + (xs.length : Int) < 0 := by omega
  unfold itemAt
  rw [if_neg hneg, hx]
  simp only [hlow, if_false]

/-- The models of a closed program are there. -/
theorem itemAt_of_closed (hc : (p.outline s).Closed) (i : Int) (h : .leaf (.model i) ∈ p.program) :
    ∃ m, (itemAt p.models i : Except (Fault α) _) = .ok m := by
  obtain ⟨h0, hi⟩ : 0 ≤ i ∧ i < p.models.length := hc _ h
  have hlt : i.toNat < p.models.length := by omega
  exact ⟨p.models[i.toNat], itemAt_eq_ok h0 (List.getElem?_eq_getElem hlt)⟩

/-- The texts of the leaves of a closed program are there. -/
theorem leafText_total (hc : (p.outline s).Closed) (number : α → String) :
    Interpretation.Total (α := α) { Program.textual fun _ => "" with leaf := p.leafText number }
      (fun _ => True) p.program where
  leaf l hl := by
    cases l with
    | model i =>
      obtain ⟨m, hm⟩ := itemAt_of_closed hc i hl
      exact ⟨m.name, by simp only [leafText, hm]; rfl, trivial⟩
    | parameter name => exact ⟨name, rfl, trivial⟩
    | constant x => exact ⟨number x, rfl, trivial⟩
  binary _ _ _ _ _ _ := ⟨_, rfl, trivial⟩
  unary _ _ _ _ := ⟨_, rfl, trivial⟩

/-- **A composite answers** if its program is whole. -/
theorem answers_of_whole (hc : (p.outline s).Closed) (hw : p.program.Whole) : p.Answers s where
  common := by
    cases hx : p.commonVars s with
    | ok names => exact ⟨names, rfl⟩
    | error e =>
      have hdefect := (Program.replay_error_iff (nameSets_total (itemAt_of_closed hc)) e).mp
        (commonVars_error_iff.mp hx)
      exact absurd hdefect ((Program.whole_iff _).mp hw e)
  text number := by
    have hne : p.program.isEmpty = false := List.isEmpty_eq_false_iff.mpr hw.ne_nil
    unfold render
    rw [hne]
    cases hx : p.program.replay { Program.textual fun _ => "" with leaf := p.leafText number } with
    | ok text => exact ⟨text, by simp⟩
    | error e =>
      have hdefect := (Program.replay_error_iff (leafText_total hc number) e).mp hx
      exact absurd hdefect ((Program.whole_iff _).mp hw e)
  value h := evaluate_clear hw h

/-- A composite fails if an operand is missing at the end of its program. -/
theorem fails_of_underflow (hc : (p.outline s).Closed)
    (hd : p.program.Defect .binaryUnderflow) : p.Fails s where
  common := commonVars_error_iff.mpr
    ((Program.replay_error_iff (nameSets_total (itemAt_of_closed hc)) _).mpr hd)
  text number := by
    have hne : p.program.isEmpty = false := by
      rw [List.isEmpty_eq_false_iff]
      intro hnil
      obtain ⟨before, node, after, e, split, -, -⟩ | ⟨-, -⟩ := hnil ▸ hd
      simp at split
    unfold render
    rw [hne]
    exact (Program.replay_error_iff (leafText_total hc number) _).mpr hd
  value input x hx := by
    obtain ⟨point, -, hpoint⟩ := bind_eq_ok_iff.mp hx
    exact (Program.whole_iff _).mp (Program.whole_of_replay hpoint) _ hd

end Composite

/-! ### Sessions -/

/-- The call is one of arithmetic, and a making is not bare; if it is hollow, it is refused. -/
def Call.Orderly (σ : Session α) : Call α → Prop
  | .make m => m.Binary ∧ ¬ m.Bare ∧
      (m.Hollow σ.objects → ∀ o t, (m.run σ.objects).outcome σ.store ≠ (.ok o, t))
  | c => c.Arithmetic σ

theorem Call.Orderly.arithmetic {σ : Session α} {c : Call α} (h : c.Orderly σ) :
    c.Arithmetic σ := by
  cases c with
  | make m => exact h.1
  | _ => exact h

namespace Session

/-- The programs of all composites are in order. -/
def InOrder (σ : Session α) : Prop :=
  ∀ p, .density (.composite p) ∈ σ.objects → p.program.InOrder

omit [Scalar α] in
theorem InOrder.densities {σ : Session α} (h : σ.InOrder) (m : Making α) :
    ∀ d ∈ m.densities σ.objects, d.program.InOrder := by
  intro d hd
  cases d with
  | model k => exact .inr (Program.whole_leaf _)
  | composite p => exact h p (Making.mem_densities hd)

/-- One more orderly call leaves all programs in order. -/
theorem InOrder.step {σ : Session α} (hσ : σ.Valid) (hcl : σ.Closed) (h : σ.InOrder) {c : Call α}
    (hc : c.Orderly σ) : (σ.step c).InOrder := by
  intro p hp
  rcases mem_objects_step hp with hold | ⟨new, hnew, hrun⟩
  · exact h p hold
  · rcases (Call.run_draws hσ hcl hc.arithmetic).ok hrun _ hnew with ⟨m, rfl, hdraws⟩ | hprimitive
    · rcases Making.Drafted.program_eq hdraws (h.densities m) hc.2.1 with ⟨-, hq⟩ | ⟨hhollow, -⟩
      · exact hq
      · obtain ⟨o, u, ho, -⟩ := Run.outcome_bind_eq_ok hrun
        exact absurd ho (hc.2.2 hhollow o u)
    · exact absurd hprimitive id

theorem inOrder_after {calls : List (Call α)} (h : Throughout Call.Orderly start calls) :
    (after calls).InOrder :=
  h.invariant_of_closed (fun _ _ hc => hc.arithmetic)
    (fun _ _ hσ hcl ho hc => InOrder.step hσ hcl ho hc) fun _ hp => absurd hp List.not_mem_nil

/-- **When programs are in order.** In every orderly session the program of every composite is
empty or whole, and a composite with a program answers. Whatever is made next of the objects
of the session, by builders, operators or copies, answers again if one of its densities has a
program, unless the making is hollow: it fails then. -/
theorem programs_in_order {calls : List (Call α)} (h : Throughout Call.Orderly start calls) :
    (∀ p, .density (.composite p) ∈ (after calls).objects →
      p.program.InOrder ∧ (p.program ≠ [] → p.Answers (after calls).store)) ∧
    ∀ (m : Making α) (q : Composite α) (t : Store α), m.Binary → ¬ m.Bare →
      (m.run (after calls).objects).outcome (after calls).store =
        (.ok (.density (.composite q)), t) →
      (¬ m.Hollow (after calls).objects ∧ q.program.InOrder ∧
        ∀ d ∈ m.densities (after calls).objects, d.program ≠ [] →
          q.program.Whole ∧ q.Answers t) ∨
      m.Hollow (after calls).objects ∧ q.Fails t := by
  have hvalid := after_valid calls
  have hclosed := closed_after (h.mono fun _ _ hc => hc.arithmetic)
  have hinOrder := inOrder_after h
  set σ := after calls
  refine ⟨fun p hp => ⟨hinOrder p hp, fun hne => ?_⟩, fun m q t hm hb hrun => ?_⟩
  · exact Composite.answers_of_whole (hclosed _ hp) ((hinOrder p hp).resolve_left hne)
  · have hdraws : m.Drafted σ.store t σ.objects q :=
      (Making.run_draws hvalid.sound hvalid.objects hclosed hm).ok hrun
    have hq : (q.outline t).Closed :=
      (show m.Draws σ.store t σ.objects (.density (.composite q)) from hdraws).closed hclosed
    rcases hdraws.program_eq (hinOrder.densities m) hb with
      ⟨hfull, hprogram⟩ | ⟨hhollow, p, op, hwhole, hop, hprogram⟩
    · refine .inl ⟨hfull, hprogram, fun d hd hne => ?_⟩
      have hwhole := hprogram.resolve_left (hdraws.ne_nil hd hne)
      exact ⟨hwhole, Composite.answers_of_whole hq hwhole⟩
    · exact .inr ⟨hhollow, Composite.fails_of_underflow hq (hprogram ▸ hwhole.underflow hop)⟩

end Session

namespace Sample

/-- A composite of a normal density, and an empty one. -/
def unequal : List (Call ℚ) :=
  [ .cell ⟨.variable, "t", .scalar 0, .scalar 0⟩,
    .cell ⟨.parameter, "a", .scalar 1, .scalar 0⟩,
    .cell ⟨.parameter, "w", .scalar 1, .scalar 0⟩,
    .gaussian "Gaussian" 0 1 2,
    .make (.single (.held 3)),
    .make .empty ]

theorem unequal_orderly : Session.Throughout Call.Orderly .start unequal := by
  have hsingle : ∀ os : List (Object ℚ), ¬ (Making.single (.held 3)).Hollow os := by
    rintro os ⟨d, e, hds, -⟩
    rw [Making.densities_single] at hds
    cases hd : (Passed.held 3).density? os <;> simp [hd] at hds
  have hempty : ∀ os : List (Object ℚ), ¬ Making.empty.Hollow os := by
    rintro os ⟨d, e, hds, -⟩
    cases hds
  refine Session.Throughout.of_forall (fun c hc σ => ?_) _
  simp only [unequal, List.mem_cons, List.not_mem_nil, or_false] at hc
  rcases hc with rfl | rfl | rfl | rfl | rfl | rfl
  · trivial
  · trivial
  · trivial
  · trivial
  · exact ⟨trivial, id, fun h => absurd h (hsingle _)⟩
  · exact ⟨trivial, id, fun h => absurd h (hempty _)⟩

end Sample

/-- The product with an empty composite is accepted, and fails. -/
theorem Session.programs_in_order_hollow : ∃ (q : Composite ℚ) (t : Store ℚ),
    let σ := Session.after Sample.unequal
    Throughout Call.Orderly start Sample.unequal ∧
    ((Making.build .product 4 (.held 5)).run σ.objects).outcome σ.store =
      (.ok (.density (.composite q)), t) ∧
    (Making.build .product 4 (.held 5)).Hollow σ.objects ∧ q.Fails t := by
  have hleft : ∃ p ∈ (Held.composite (Session.after Sample.unequal).objects 4).toOption,
      p.program ≠ [] := by decide +kernel
  have hright : ∃ e ∈ (Held.composite (Session.after Sample.unequal).objects 5).toOption,
      e.program = [] := by decide +kernel
  have hmade : (Sample.composite? (((Making.build .product 4 (.held 5)).run
      (Session.after Sample.unequal).objects).outcome
        (Session.after Sample.unequal).store)).isSome = true := by decide +kernel
  obtain ⟨⟨q, t⟩, hq⟩ := Option.isSome_iff_exists.mp hmade
  have hrun := Sample.outcome_of_composite? hq
  have hhollow : (Making.build .product 4 (.held 5)).Hollow
      (Session.after Sample.unequal).objects := by
    obtain ⟨p, hp, hne⟩ := hleft
    obtain ⟨e, he, hnil⟩ := hright
    have hp' := Held.composite_eq_ok (Sample.eq_ok_of_toOption hp)
    have he' := Held.composite_eq_ok (Sample.eq_ok_of_toOption he)
    refine ⟨.composite p, e, ?_, hne, hnil⟩
    rw [Making.densities_build .product hp']
    simp [Passed.density?, he']
  rcases (programs_in_order Sample.unequal_orderly).2 (.build .product 4 (.held 5)) q t trivial id
    hrun with ⟨hfull, -⟩ | hfails
  · exact absurd hhollow hfull
  · exact ⟨q, t, Sample.unequal_orderly, hrun, hfails⟩

end DensityAlgebra
