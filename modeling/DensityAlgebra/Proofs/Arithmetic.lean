/-
# Sessions of arithmetic

An expression may be given by any program and any cells. Sessions of arithmetic give
expressions only by whole programs over numbers and the cells that are named, and put
only binary operators between operands; what they make of expressions is arithmetic
then, and every composite is over its own models and parameters.

How a composite was drafted says what its outline is: nothing at all, that of its one
operand, that of the density it was built on, extended by the operand, or that of the
composite it is a copy of.

Key definitions: `Object.Closed`, `Making.Drafted`, `Making.Draws`, `Call.Arithmetic`,
`Session.Throughout`.
Key theorems: `Making.run_draws`, `Making.Draws.closed`, `Call.run_draws`,
`Session.Throughout.keeps`, `Session.Throughout.invariant`, `Session.closed_after`.
-/
import DensityAlgebra.Proofs.Linking
import DensityAlgebra.Proofs.Sessions

namespace DensityAlgebra

variable {α : Type} [Scalar α]

/-! ### Closed objects -/

theorem Density.outline_pars (s : Store α) (d : Density α) :
    (d.outline s).pars = s.value? d.pars := by
  cases d <;> rfl

/-- An outline is over the models of its operand. -/
theorem Operand.outline_count (s : Store α) (x : Operand α) :
    (x.outline s).count = x.models.length := by
  rcases x.outline_cases s with ⟨d, -, hm, hx⟩ | ⟨hm, ⟨op, -, hx⟩ | ⟨e, -, hx⟩ | hx⟩ <;>
    rw [hm, hx]
  · cases d <;> rfl
  all_goals rfl

/-- A composite is over its own models and parameters, and an expression is arithmetic. -/
def Object.Closed (s : Store α) : Object α → Prop
  | .expression _ e => e.Arithmetic
  | .density d => (d.outline s).Closed
  | _ => True

section

variable {s t : Store α}

/-- A closed density stays closed while its registries hold what they held. -/
theorem Density.closed_of_grows {d : Density α} (h : (d.outline s).Closed) (hd : d.Valid s)
    (hst : s.Grows t) : (d.outline t).Closed := by
  have hreg : t.registry d.pars = s.registry d.pars := hst.registries _ hd.pars_bounded
  have hknown : ∀ n, ((d.outline s).pars n).isSome = true → ((d.outline t).pars n).isSome = true := by
    intro n hn
    rw [outline_pars] at hn ⊢
    simpa only [Store.value?, hreg, Option.isSome_map] using hn
  cases d with
  | model m => exact m.outline_closed t
  | composite p => exact fun l hl => (h l hl).mono le_rfl hknown

theorem Object.Closed.grows {o : Object α} (h : o.Closed s) (ho : o.Valid s) (hst : s.Grows t) :
    o.Closed t := by
  cases o with
  | density d => exact Density.closed_of_grows h ho hst
  | expression k e => exact h
  | _ => trivial

theorem Object.Closed.operand {o : Object α} (h : o.Closed s) : (o.operand s).Closed s := by
  cases o with
  | cell c =>
    simp only [Object.operand]
    cases (s.cell c).kind <;> trivial
  | density d =>
    cases d with
    | model m => trivial
    | composite p => exact h
  | expression k e => exact h
  | _ => trivial

variable {os : List (Object α)}

/-- What is passed is closed if all that is held is. -/
theorem Passed.operand_closed (hos : ∀ o ∈ os, o.Closed s) (x : Passed α) :
    (x.operand os).Ends s (fun y _ => y.Closed s) fun _ => True := by
  cases x with
  | held i =>
    refine Run.ends_reading_bind trivial fun o ho => Run.ends_get_bind (Run.ends_pure ?_)
    exact (hos o (List.mem_of_getElem? (Held.object_eq_ok ho))).operand
  | plain d => exact Run.ends_pure trivial
  | operation op => exact Run.ends_pure trivial

/-- Reading what is passed changes nothing. -/
theorem Passed.operand_outcome (hs : s.Sound) (hos : ∀ o ∈ os, o.Valid s)
    (hcl : ∀ o ∈ os, o.Closed s) (x : Passed α) :
    (x.operand os).Ends s (fun y t => t = s ∧ (x.operand os).outcome s = (.ok y, s) ∧ y.Valid s ∧
      y.Closed s ∧ y.density? = x.density? os) fun _ => True := by
  have hspec := (x.operand_spec hos (E := fun _ => True) trivial).and (x.operand_closed hcl)
  rw [Run.ends_iff]
  refine ⟨fun y t hy => ?_, fun _ _ _ => trivial⟩
  obtain ⟨⟨rfl, hval, hd⟩, hc⟩ := hspec.ok hy
  exact ⟨rfl, hy, hval, hc, hd⟩

/-! ### How composites are drafted -/

/-- The expressions among objects. -/
def Object.expressions (os : List (Object α)) : Set (Expression α) :=
  {e | ∃ k, .expression k e ∈ os}

theorem Object.expressions_arithmetic (hcl : ∀ o ∈ os, o.Closed s) :
    ∀ e ∈ expressions os, e.Arithmetic := by
  rintro e ⟨k, hk⟩
  exact hcl _ hk

/-- An expression that is passed is held. -/
theorem Passed.expression_of_operand {x : Passed α} {e : Expression α} {t : Store α}
    (h : (x.operand os).outcome s = (.ok (.expression e), t)) : e ∈ Object.expressions os := by
  cases x with
  | held i =>
    obtain ⟨o, hread, hrest⟩ := Run.outcome_reading_bind_eq_ok h
    have hoperand : o.operand s = .expression e := Except.ok.inj (Prod.mk.inj hrest).1
    cases o with
    | cell c =>
      simp only [Object.operand] at hoperand
      split at hoperand <;> cases hoperand
    | density d => cases d <;> cases hoperand
    | expression k e' =>
      obtain rfl := Operand.expression.inj hoperand
      exact ⟨k, List.mem_of_getElem? (Held.object_eq_ok hread)⟩
    | _ => cases hoperand
  | plain d => cases Except.ok.inj (Prod.mk.inj h).1
  | operation op => cases Except.ok.inj (Prod.mk.inj h).1

/-- How a composite came about, and what its outline is for that. -/
inductive Making.Drafted (s t : Store α) (os : List (Object α)) :
    Making α → Composite α → Prop
  | empty {q : Composite α} (outline : q.outline t = .empty) : Drafted s t os .empty q
  | single {x : Passed α} {y : Operand α} {q : Composite α} (closed : y.Closed s)
      (passed : (x.operand os).outcome s = (.ok y, s)) (density : y.density? = x.density? os)
      (outline : q.outline t = y.outline s) : Drafted s t os (.single x) q
  | joined {m : Making α} {d : Density α} {y : Operand α} {q : Composite α}
      (densities : m.densities os = d :: y.density?.toList)
      (given : ∀ e, y = .expression e → e.From (Object.expressions os))
      (joined : (Operand.composite q).JoinOf s t d y) : Drafted s t os m q
  | copied {i : Nat} {p q : Composite α} (held : os[i]? = some (.density (.composite p)))
      (outline : q.outline t = p.outline s) : Drafted s t os (.copy i) q

/-- What a making has made: a composite as it was drafted, and of expressions arithmetic over
them. -/
def Making.Draws (s t : Store α) (os : List (Object α)) (m : Making α) : Object α → Prop
  | .density (.composite q) => m.Drafted s t os q
  | .expression _ e => e.From (Object.expressions os)
  | _ => True

/-- The operator, if there is one, is binary. -/
def Making.Binary : Making α → Prop
  | .operator op _ _ => op.isBinary = true
  | _ => True

/-- What an operator drafted is an object, or the operator fails. -/
theorem Making.named_draws {u : Store α} {m : Making α} {y : Operand α} {xs : List (Operand α)}
    (h : y.Drafted s u xs) (hds : xs.filterMap Operand.density? = m.densities os)
    (hxs : Operand.expressions xs ⊆ Object.expressions os) :
    (named os y).Ends u (fun o t => m.Draws s t os o) fun _ => True := by
  unfold named
  cases y with
  | composite q =>
    refine Run.ends_pure ?_
    rcases h with ⟨d, x, hd, hgiven, hjoin⟩ | ⟨hnone, -⟩
    · exact .joined (hds ▸ hd) (fun e he => (hgiven e he).mono hxs) hjoin
    · simp [Operand.density?] at hnone
  | expression e =>
    refine Run.ends_pure ?_
    rcases h with ⟨d, x, -, -, hjoin⟩ | ⟨-, hfrom⟩
    · exact absurd hjoin id
    · exact (hfrom e rfl).mono hxs
  | operation op => exact Run.ends_throw trivial
  | other k => exact Run.ends_throw trivial
  | _ => exact Run.ends_pure trivial

/-- A copy is drafted after the original. -/
theorem Object.copy_draws {i : Nat} {o : Object α} (hs : s.Sound) (ho : o.Valid s)
    (hi : os[i]? = some o) :
    (o.copy os.length).Ends s (fun o' t => (Making.copy i).Draws s t os o') fun _ => True := by
  have hany : ∀ {β : Type} (x : Run α β) (k : β → Object α),
      (∀ b t, (Making.copy i).Draws s t os (k b)) →
      (x >>= fun b => pure (k b)).Ends s (fun o' t => (Making.copy i).Draws s t os o')
        fun _ => True := fun x k hk =>
    (Run.ends_true x s).bind fun b t _ => Run.ends_pure (hk b t)
  cases o with
  | density d =>
    cases d with
    | model m => exact hany _ (fun m => .density (.model m)) fun _ _ => trivial
    | composite p =>
      obtain ⟨q, t, f, g, ht, -, hf, hcopy⟩ := Composite.copy_spec hs p ho.bounded_states
      exact Run.ends_ok_bind ht (Run.ends_pure (.copied hi (hcopy.outline hf)))
  | expression k e =>
    obtain ⟨t, g, ht, -, -⟩ := Expression.copy_spec hs e
    have he : e ∈ Object.expressions os := ⟨k, List.mem_of_getElem? hi⟩
    exact Run.ends_ok_bind ht (Run.ends_pure (Expression.From.copied (.given he) g))
  | weight w => exact hany _ .weight fun _ _ => trivial
  | amplitude a => exact hany _ .amplitude fun _ _ => trivial
  | cell c => exact Run.ends_get_bind (hany _ .cell fun _ _ => trivial)
  | registry r => exact absurd ho id
  | _ => exact Run.ends_pure trivial

/-- **What is made of closed objects** is drafted from them. -/
theorem Making.run_draws (hs : s.Sound) (hos : ∀ o ∈ os, o.Valid s) (hcl : ∀ o ∈ os, o.Closed s)
    {m : Making α} (hm : m.Binary) :
    (m.run os).Ends s (fun o t => m.Draws s t os o) fun _ => True := by
  have hpassed := Passed.operand_outcome hs hos hcl
  cases m with
  | empty =>
    obtain ⟨p, t, ht, -⟩ := Composite.new_spec (Store.Apart.refl hs)
    exact Run.ends_ok_bind ht (Run.ends_pure (.empty (Composite.new_outline ht)))
  | single x =>
    refine (hpassed x).bind ?_
    rintro y t ⟨rfl, hy, hval, hc, hd⟩
    exact (Composite.ofOperand_outline hs hval hc).bind fun q t hq =>
      Run.ends_pure (.single hc hy hd hq)
  | build how i x =>
    refine Run.ends_reading_bind trivial fun p hp => ?_
    have hi := Held.composite_eq_ok hp
    have hpv : p.Valid s := hos _ (List.mem_of_getElem? hi)
    refine (hpassed x).bind ?_
    rintro y t ⟨rfl, hy, hval, hc, hd⟩
    refine (Operand.joinOf_run how hs hpv hval hc).bind fun q t hq => Run.ends_pure ?_
    exact .joined (by rw [densities_build how hi, hd])
      (fun e he => .given (Passed.expression_of_operand (he ▸ hy))) hq
  | operator op l r =>
    refine (hpassed l).bind ?_
    rintro y t ⟨rfl, hyp, hy, hyc, hyd⟩
    refine (hpassed r).bind ?_
    rintro z t ⟨rfl, hzp, hz, hzc, hzd⟩
    refine (Operand.apply_outline hm hs hy hz hyc hzc).bind fun o t ho => named_draws ho ?_ ?_
    · rw [densities_operator, ← hyd, ← hzd]
      cases hy : y.density? <;> cases hz : z.density? <;> simp [hy, hz]
    · intro e he
      rcases List.mem_pair.mp he with rfl | rfl
      · exact Passed.expression_of_operand hyp
      · exact Passed.expression_of_operand hzp
  | negate x =>
    refine (hpassed x).bind ?_
    rintro y t ⟨rfl, hyp, hval, hc, hd⟩
    refine Operand.negate_outline.bind fun o t ho => named_draws ho ?_ ?_
    · unfold densities passed
      cases hx : x.density? os <;> simp [hd, hx]
    · intro e he
      obtain rfl := List.mem_singleton.mp he
      exact Passed.expression_of_operand hyp
  | copy i =>
    refine Run.ends_reading_bind trivial fun o ho => ?_
    have hi := Held.object_eq_ok ho
    have hmem := List.mem_of_getElem? hi
    exact Object.copy_draws hs (hos o hmem) hi
  | withWeight d w =>
    refine Run.ends_reading_bind trivial fun e _ => Run.ends_reading_bind trivial fun v _ => ?_
    exact (Run.ends_true (e.withWeight v) s).bind fun _ _ _ => Run.ends_pure trivial

/-- **What is made of closed objects is closed.** -/
theorem Making.Draws.closed {m : Making α} {o : Object α} (h : m.Draws s t os o)
    (hcl : ∀ o ∈ os, o.Closed s) : o.Closed t := by
  have hdensities : ∀ d ∈ m.densities os, (d.outline s).Closed :=
    fun d hd => hcl _ (Making.mem_densities hd)
  cases o with
  | density d =>
    cases d with
    | model k => exact k.outline_closed t
    | composite q =>
      show (q.outline t).Closed
      cases h with
      | empty houtline => exact houtline ▸ Outline.closed_empty
      | single hy _ _ houtline => exact houtline ▸ hy.outline
      | joined hds _ hjoin =>
        obtain ⟨-, hy, how, -, houtline⟩ := hjoin
        rw [houtline]
        exact (hdensities _ (hds ▸ List.mem_cons_self)).extended hy.outline how.operation
      | copied hi houtline => exact houtline ▸ hcl _ (List.mem_of_getElem? hi)
  | expression k e => exact h.arithmetic (Object.expressions_arithmetic hcl)
  | _ => trivial

/-! ### Calls -/

/-- The expressions that are given are whole programs over numbers and the named cells;
the operators are binary. -/
def Call.Arithmetic (σ : Session α) : Call α → Prop
  | .expression program pars => program.Whole ∧ ∀ l, .leaf l ∈ program →
      l.Among 0 fun n => ∃ i ∈ pars, ∃ c, Held.cell σ.objects i = .ok c ∧ (σ.store.cell c).name = n
  | .make m => m.Binary
  | _ => True

/-- The object is no composite; an expression is as `K` says. -/
def Object.Primitive (K : Expression α → Prop) : Object α → Prop
  | .density (.composite _) => False
  | .expression _ e => K e
  | _ => True

theorem Object.Primitive.closed {o : Object α} (h : o.Primitive Expression.Arithmetic)
    (s : Store α) : o.Closed s := by
  cases o with
  | density d =>
    cases d with
    | model m => exact m.outline_closed s
    | composite p => exact absurd h id
  | expression k e => exact h
  | _ => trivial

omit [Scalar α] in
/-- A part of an object is no composite. -/
theorem Object.part_primitive {K : Expression α → Prop} {o x : Object α} {name : String} {i : Int}
    (h : o.part name i = .ok x) : x.Primitive K := by
  cases o with
  | density d =>
    cases d with
    | composite p =>
      simp only [Object.part] at h
      split_ifs at h
      obtain ⟨m, -, rfl⟩ := Composite.itemAt_bind_eq_ok h
      trivial
    | model m =>
      cases m with
      | decay d =>
        simp only [Object.part] at h
        split at h
        · obtain ⟨w, -, rfl⟩ := Composite.itemAt_bind_eq_ok h
          trivial
        · obtain rfl := Except.ok.inj h
          trivial
        · obtain rfl := Except.ok.inj h
          trivial
        · cases h
      | _ => cases h
  | _ => cases h

/-- No composite is added, and no expression but those that `K` describes. -/
def Call.AddsPrimitive (K : Expression α → Prop) (s : Store α) (x : Run α (List (Object α))) :
    Prop :=
  x.Ends s (fun new _ => ∀ o ∈ new, o.Primitive K) fun _ => True

variable {K : Expression α → Prop}

omit [Scalar α] in
theorem Call.addsPrimitive_one {β : Type} (x : Run α β) (k : β → Object α)
    (hk : ∀ b, (k b).Primitive K) : AddsPrimitive K s (x >>= fun b => pure [k b]) :=
  (Run.ends_true x s).bind fun b t _ => Run.ends_pure fun o ho => by
    rw [List.mem_singleton.mp ho]
    exact hk b

omit [Scalar α] in
theorem Call.addsPrimitive_none {β : Type} (x : Run α β) :
    AddsPrimitive K s (x >>= fun _ => pure []) :=
  (Run.ends_true x s).bind fun _ _ _ => Run.ends_pure (List.forall_mem_nil _)

omit [Scalar α] in
theorem Call.addsPrimitive_reading {β : Type} {f : Store α → Except (Fault α) β}
    {k : β → Run α (List (Object α))} (hk : ∀ b, AddsPrimitive K s (k b)) :
    AddsPrimitive K s (Run.reading f >>= k) :=
  Run.ends_reading_bind trivial fun b _ => hk b

/-- Only makings make composites; expressions that are given are as `K` says if it holds of
their programs with the cells that are named. -/
theorem Call.run_primitive {σ : Session α} {c : Call α}
    (hgiven : ∀ program pars cs r, c = .expression program pars →
      pars.mapM (Held.cell σ.objects) = .ok cs → Run.gather σ.store cs .empty = .ok r →
      K ⟨program, r⟩)
    (hm : ∀ m, c ≠ .make m) : AddsPrimitive K σ.store (c.run σ.objects) := by
  have hmodel : ∀ m : Model α, (Object.density (.model m)).Primitive K := fun _ => trivial
  cases c with
  | cell x => exact addsPrimitive_one _ .cell fun _ => trivial
  | setCell i value error => exact addsPrimitive_reading fun c => addsPrimitive_none _
  | expression program pars =>
    refine Run.ends_reading_bind trivial fun cs hcs => Run.ends_reading_bind trivial fun r hr => ?_
    refine Run.ends_pure fun o ho => ?_
    obtain rfl := List.mem_singleton.mp ho
    exact hgiven program pars cs r rfl hcs hr
  | flat z => exact addsPrimitive_one _ .amplitude fun _ => trivial
  | resonance mass width channel =>
    exact addsPrimitive_reading fun m => addsPrimitive_reading fun w =>
      addsPrimitive_one _ .amplitude fun _ => trivial
  | sum terms =>
    exact addsPrimitive_reading fun es => addsPrimitive_one _ .amplitude fun _ => trivial
  | weight name args body vars pars =>
    exact addsPrimitive_reading fun vs => addsPrimitive_reading fun ps =>
      addsPrimitive_one _ .weight fun _ => trivial
  | gaussian name x mu sigma =>
    exact addsPrimitive_reading fun cx => addsPrimitive_reading fun cm =>
      addsPrimitive_reading fun cw => addsPrimitive_one _ _ hmodel
  | uniform name x lo hi => exact addsPrimitive_reading fun cx => addsPrimitive_one _ _ hmodel
  | formula name vars pars body =>
    exact addsPrimitive_reading fun vs => addsPrimitive_reading fun ps =>
      addsPrimitive_one _ _ hmodel
  | decay name m12 m13 m23 a space resolution envelope maxAttempts source =>
    exact addsPrimitive_reading fun c12 => addsPrimitive_reading fun c13 =>
      addsPrimitive_reading fun c23 => addsPrimitive_reading fun b =>
        addsPrimitive_one _ (fun d => .density (.model (.decay d))) fun d => hmodel (.decay d)
  | part name i o =>
    refine addsPrimitive_reading fun x => Run.ends_reading_bind trivial fun y hy => ?_
    exact Run.ends_pure fun o ho => (List.mem_singleton.mp ho).symm ▸ Object.part_primitive hy
  | member kind name o =>
    exact addsPrimitive_reading fun x => addsPrimitive_one _ .cell fun _ => trivial
  | make m => exact absurd rfl (hm m)
  | set i setter => exact addsPrimitive_reading fun d => addsPrimitive_none _
  | fit minimizer i data options =>
    exact addsPrimitive_reading fun d => addsPrimitive_one
      (DensityAlgebra.fit minimizer d data options) (fun r => .result _ r.1) fun _ => trivial
  | tune i resolution envelope maxAttempts =>
    exact addsPrimitive_reading fun d => addsPrimitive_none _

/-- An expression that is given in arithmetic is arithmetic. -/
theorem Call.Arithmetic.given {σ : Session α} {c : Call α} (hc : c.Arithmetic σ)
    {program : Program α} {pars : List Nat} {cs : List CellId} {r : Registry}
    (heq : c = .expression program pars) (hcs : pars.mapM (Held.cell σ.objects) = .ok cs)
    (hr : Run.gather σ.store cs .empty = .ok r) : Expression.Arithmetic ⟨program, r⟩ := by
  subst heq
  refine ⟨hc.1, fun l hl => (hc.2 l hl).mono le_rfl ?_⟩
  rintro n ⟨i, hi, c, hheld, rfl⟩
  have hmem : c ∈ cs := mem_mapM_of_mem hcs hi hheld
  exact Registry.mem_names_of_find? ((Run.gather_spec _ cs hr).2.1 c hmem)

/-- **What a call of arithmetic adds** was drafted by a making, or is no composite. -/
theorem Call.run_draws {σ : Session α} (h : σ.Valid) (hcl : ∀ o ∈ σ.objects, o.Closed σ.store)
    {c : Call α} (hc : c.Arithmetic σ) :
    (c.run σ.objects).Ends σ.store (fun new t => ∀ o ∈ new,
      (∃ m, c = .make m ∧ m.Draws σ.store t σ.objects o) ∨ o.Primitive Expression.Arithmetic)
      fun _ => True := by
  by_cases hm : ∃ m, c = .make m
  · obtain ⟨m, rfl⟩ := hm
    refine (Making.run_draws h.sound h.objects hcl hc).bind fun o t ho => Run.ends_pure ?_
    intro x hx
    exact .inl ⟨m, rfl, (List.mem_singleton.mp hx).symm ▸ ho⟩
  · exact (run_primitive (fun _ _ _ _ => hc.given) fun m hcm => hm ⟨m, hcm⟩).mono
      (fun _ _ hnew o ho => .inr (hnew o ho)) fun _ h => h

end

/-! ### Sessions -/

namespace Session

/-- `P` holds of every call, in the session in which it is made. -/
def Throughout (P : Session α → Call α → Prop) : Session α → List (Call α) → Prop
  | _, [] => True
  | σ, c :: rest => P σ c ∧ Throughout P (σ.step c) rest

/-- What every such call preserves holds of what a session comes to. -/
theorem Throughout.keeps {P : Session α → Call α → Prop} {I : Session α → Prop}
    (step : ∀ σ c, I σ → P σ c → I (σ.step c)) {calls : List (Call α)} {σ : Session α}
    (h : Throughout P σ calls) (hσ : I σ) : I (calls.foldl Session.step σ) := by
  induction calls generalizing σ with
  | nil => exact hσ
  | cons c rest ih => exact ih h.2 (step σ c hσ h.1)

theorem Throughout.mono {P Q : Session α → Call α → Prop} (hPQ : ∀ σ c, P σ c → Q σ c)
    {calls : List (Call α)} {σ : Session α} (h : Throughout P σ calls) :
    Throughout Q σ calls := by
  induction calls generalizing σ with
  | nil => trivial
  | cons c rest ih => exact ⟨hPQ σ c h.1, ih h.2⟩

theorem Throughout.append {P : Session α → Call α → Prop} {calls rest : List (Call α)}
    {σ : Session α} (h : Throughout P σ calls) (hrest : Throughout P (calls.foldl step σ) rest) :
    Throughout P σ (calls ++ rest) := by
  induction calls generalizing σ with
  | nil => exact hrest
  | cons c calls ih => exact ⟨h.1, ih h.2 hrest⟩

/-- Calls that are fine in every session are so in the one in which they are made. -/
theorem Throughout.of_forall {P : Session α → Call α → Prop} : ∀ {calls : List (Call α)},
    (∀ c ∈ calls, ∀ σ, P σ c) → ∀ σ, Throughout P σ calls
  | [], _, _ => trivial
  | c :: rest, h, σ => by
    rw [List.forall_mem_cons] at h
    exact ⟨h.1 σ, of_forall h.2 _⟩

/-- What such calls preserve in valid sessions holds of what they come to from the start. -/
theorem Throughout.invariant {P : Session α → Call α → Prop} {I : Session α → Prop}
    (step : ∀ σ c, σ.Valid → I σ → P σ c → I (σ.step c)) {calls : List (Call α)}
    (h : Throughout P start calls) (hstart : I start) : I (after calls) :=
  (h.keeps (I := fun σ => σ.Valid ∧ I σ)
    (fun σ c hσ hc => ⟨hσ.1.step c, step σ c hσ.1 hσ.2 hc⟩) ⟨after_valid [], hstart⟩).2

/-- All objects are closed. -/
def Closed (σ : Session α) : Prop := ∀ o ∈ σ.objects, o.Closed σ.store

/-- One more call of arithmetic leaves all objects closed. -/
theorem Closed.step {σ : Session α} (h : σ.Valid) (hcl : σ.Closed) {c : Call α}
    (hc : c.Arithmetic σ) : (σ.step c).Closed := by
  intro o ho
  rcases mem_objects_step ho with hold | ⟨new, hnew, hrun⟩
  · exact (hcl o hold).grows (h.objects o hold) (h.evolves c).toGrows
  · rcases (Call.run_draws h hcl hc).ok hrun o hnew with ⟨m, -, hdraws⟩ | hprimitive
    · exact hdraws.closed hcl
    · exact hprimitive.closed _

/-- **In a session of arithmetic all objects are closed.** -/
theorem closed_after {calls : List (Call α)} (h : Throughout Call.Arithmetic start calls) :
    (after calls).Closed :=
  h.invariant (fun _ _ hσ hcl hc => hcl.step hσ hc) (List.forall_mem_nil _)

/-- So does what the calls of a session of arithmetic preserve where all objects are closed. -/
theorem Throughout.invariant_of_closed {P : Session α → Call α → Prop} {I : Session α → Prop}
    (arithmetic : ∀ σ c, P σ c → c.Arithmetic σ)
    (step : ∀ σ c, σ.Valid → σ.Closed → I σ → P σ c → I (σ.step c)) {calls : List (Call α)}
    (h : Throughout P start calls) (hstart : I start) : I (after calls) :=
  (h.invariant (I := fun σ => σ.Closed ∧ I σ)
    (fun σ c hσ hI hc => ⟨hI.1.step hσ (arithmetic σ c hc), step σ c hσ hI.1 hI.2 hc⟩)
    ⟨List.forall_mem_nil _, hstart⟩).2

end Session

end DensityAlgebra
