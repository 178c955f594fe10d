/-
# How an operator finds what to do

An operator looks at the kinds of its operands and then builds on one of them, multiplies a
decay density by a function, does arithmetic of expressions or of plain data, or is refused.
A builder looks at its operand first and then extends a copy of the composite by it.

Each rule here says for one of these functions what has to be shown of the actions that it can
come to in order to know what it does itself.

Key definitions: `Composite.Builder`, `Composite.Builder.Accepts`, `Operand.Fits`.
Key theorems: `Operand.lift?_cases`, `Operand.Fits.cases`, `Composite.Builder.run_cases`,
`Operand.applyComposite_ends`, `Operand.applyModel_ends`, `Operand.apply_model_left_ends`,
`Operand.apply_model_right_ends`, `Operand.apply_factors_ends`, `Operand.negate_ends`.
-/
import DensityAlgebra.Operators
import DensityAlgebra.Proofs.Runs

namespace DensityAlgebra

variable {α : Type} [Scalar α]

/-- Whether the operand is a number out of reach, which looks like a factor but cannot be
used as one. -/
def Operand.isBeyond : Operand α → Bool
  | plain d => d.isReal && d.number?.isNone
  | _ => false

/-- The operand is one that a builder can use: a density, or a factor in reach. -/
def Operand.Fits (x : Operand α) : Prop :=
  (x.isDensity = true ∨ x.isFactor = true) ∧ x.isBeyond = false

variable {s : Store α} {E : Store α → Prop}

namespace Operand

/-- A factor as an expression: a parameter, an expression itself, or a number. -/
theorem lift?_cases {x : Operand α} {e : Expression α} (h : x.lift? s = some e) :
    (∃ c, x = .parameter c ∧ e = .ofParameter (s.cell c).name c) ∨ x = .expression e ∨
      ∃ d y, x = .plain d ∧ d.number? = some y ∧ e = .ofNumber y := by
  cases x with
  | parameter c => exact .inl ⟨c, rfl, (Option.some.inj h).symm⟩
  | expression e' => exact .inr (.inl (congrArg expression (Option.some.inj h)))
  | plain d =>
    obtain ⟨y, hy, he⟩ := Option.map_eq_some_iff.mp h
    exact .inr (.inr ⟨d, y, rfl, hy, he.symm⟩)
  | _ => cases h

/-- What is out of reach is a number. -/
theorem exists_number_of_isBeyond {x : Operand α} (h : x.isBeyond = true) :
    ∃ d, x = plain d ∧ d.isReal = true ∧ d.number? = none := by
  cases x with
  | plain d => exact ⟨d, rfl, by simpa [isBeyond] using h⟩
  | _ => cases h

/-- A number that a builder can use is in reach. -/
theorem Fits.number {d : Datum α} (h : (plain d).Fits) : ∃ y, d.number? = some y := by
  have hreal : d.isReal = true := h.1.resolve_left Bool.false_ne_true
  cases hd : d.number? with
  | none => exact absurd h.2 (by simp [isBeyond, hreal, hd])
  | some y => exact ⟨y, rfl⟩

/-- What a builder can use is a model, a composite, or a factor. -/
theorem Fits.cases {x : Operand α} (h : x.Fits) (s : Store α) :
    (∃ m, x = .model m) ∨ (∃ p, x = .composite p) ∨ ∃ e, x.lift? s = some e := by
  cases x with
  | model m => exact .inl ⟨m, rfl⟩
  | composite p => exact .inr (.inl ⟨p, rfl⟩)
  | parameter c => exact .inr (.inr ⟨_, rfl⟩)
  | expression e => exact .inr (.inr ⟨e, rfl⟩)
  | plain d =>
    obtain ⟨y, hy⟩ := h.number
    exact .inr (.inr ⟨.ofNumber y, congrArg (Option.map Expression.ofNumber) hy⟩)
  | _ => simp [Fits, isDensity, isFactor] at h

end Operand

namespace Composite

/-! ### Builders -/

/-- The ways to build a composite from another one and an operand. -/
inductive Builder where
  | sum
  | product
  | scale
  | division
  deriving DecidableEq, Repr

/-- What a way of building makes. -/
def Builder.run (how : Builder) (p : Composite α) (x : Operand α) : Run α (Composite α) :=
  match how with
  | .sum => p.withSum x
  | .product => p.withProduct x
  | .scale => p.withScale x
  | .division => p.withDivision x

/-- The operation that a way of building puts behind its operands. -/
def Builder.operation : Builder → Operation
  | .sum => .plus
  | .product | .scale => .mult
  | .division => .div

theorem Builder.operation_isBinary (how : Builder) : how.operation.isBinary = true := by
  cases how <;> rfl

/-- The operand is of the kind that the way of building is for. -/
def Builder.Suits (x : Operand α) : Builder → Prop
  | .sum | .product => x.isDensity = true
  | .scale | .division => x.isFactor = true

/-- The operand is of the right kind, and a density has the right variables: those of the
composite, if there is anything in it to be added to, or none of them to be multiplied by. -/
def Builder.Accepts (s : Store α) (p : Composite α) (x : Operand α) (how : Builder) : Prop :=
  how.Suits x ∧
    match how with
    | .sum => p.program ≠ [] → p.varNames s = varNamesOf s x
    | .product => ∀ n ∈ p.varNames s, n ∉ varNamesOf s x
    | .scale | .division => True

variable {p : Composite α} {x : Operand α}

theorem Builder.Suits.fits {how : Builder} (h : how.Suits x) (hx : x.isBeyond = false) :
    x.Fits := by
  cases how with
  | sum => exact ⟨.inl h, hx⟩
  | product => exact ⟨.inl h, hx⟩
  | scale => exact ⟨.inr h, hx⟩
  | division => exact ⟨.inr h, hx⟩

omit [Scalar α] in
/-- Factors have no variables that a builder could look at. -/
theorem Builder.Suits.accepts_factor {how : Builder} (h : how.Suits x) (hx : x.isFactor = true) :
    how.Accepts s p x := by
  have hdensity : x.isDensity = false := by
    cases x <;> first | rfl | cases hx
  cases how with
  | sum => exact absurd (hdensity.symm.trans h) Bool.false_ne_true
  | product => exact absurd (hdensity.symm.trans h) Bool.false_ne_true
  | scale => exact ⟨h, trivial⟩
  | division => exact ⟨h, trivial⟩

theorem outcome_withSum (s : Store α) (p : Composite α) (x : Operand α) :
    (p.withSum x).outcome s =
      if (!x.isDensity) = true then (.error (.cannotAdd x.kindName), s)
      else if (!p.program.isEmpty && p.varNames s != varNamesOf s x) = true then
        (.error (.incompatibleVariables (p.varNames s) (varNamesOf s x)), s)
      else (p.extended x .plus).outcome s := by
  unfold withSum
  rw [Run.outcome_guard, Run.outcome_bind_ok _ (Run.outcome_get s), Run.outcome_guard]

theorem outcome_withProduct (s : Store α) (p : Composite α) (x : Operand α) :
    (p.withProduct x).outcome s =
      if (!x.isDensity) = true then (.error (.cannotMultiply x.kindName), s)
      else if (!((p.varNames s).filter (varNamesOf s x).contains).isEmpty) = true then
        (.error (.overlappingVariables ((p.varNames s).filter (varNamesOf s x).contains)), s)
      else (p.extended x .mult).outcome s := by
  unfold withProduct
  rw [Run.outcome_guard, Run.outcome_bind_ok _ (Run.outcome_get s), Run.outcome_guard]

theorem outcome_withScale (s : Store α) (p : Composite α) (x : Operand α) :
    (p.withScale x).outcome s =
      if (!x.isFactor) = true then (.error (.cannotScale x.kindName), s)
      else (p.extended x .mult).outcome s := by
  unfold withScale
  rw [Run.outcome_guard]

theorem outcome_withDivision (s : Store α) (p : Composite α) (x : Operand α) :
    (p.withDivision x).outcome s =
      if (!x.isFactor) = true then (.error (.cannotDivide x.kindName), s)
      else (p.extended x .div).outcome s := by
  unfold withDivision
  rw [Run.outcome_guard]

/-- **A builder checks first.** What it accepts extends the composite; else it is refused, and
nothing has changed. -/
theorem Builder.run_cases (how : Builder) (s : Store α) (p : Composite α) (x : Operand α) :
    (how.Accepts s p x ∧ (how.run p x).outcome s = (p.extended x how.operation).outcome s) ∨
      (¬ how.Accepts s p x ∧ ∃ e, (how.run p x).outcome s = (.error e, s)) := by
  cases how with
  | sum =>
    by_cases hx : x.isDensity = true
    · by_cases hv : p.program ≠ [] → p.varNames s = varNamesOf s x
      · refine .inl ⟨⟨hx, hv⟩, (outcome_withSum s p x).trans ?_⟩
        rw [if_neg (by simp [hx]), if_neg (by simpa using hv)]
        rfl
      · refine .inr ⟨fun h => hv h.2, .incompatibleVariables (p.varNames s) (varNamesOf s x), ?_⟩
        refine (outcome_withSum s p x).trans ?_
        rw [if_neg (by simp [hx]), if_pos (by simpa using hv)]
    · exact .inr ⟨fun h => hx h.1, _, (outcome_withSum s p x).trans (if_pos (by simpa using hx))⟩
  | product =>
    by_cases hx : x.isDensity = true
    · by_cases hv : ∀ n ∈ p.varNames s, n ∉ varNamesOf s x
      · refine .inl ⟨⟨hx, hv⟩, (outcome_withProduct s p x).trans ?_⟩
        rw [if_neg (by simp [hx]), if_neg (by simpa using hv)]
        rfl
      · refine .inr ⟨fun h => hv h.2,
          .overlappingVariables ((p.varNames s).filter (varNamesOf s x).contains), ?_⟩
        refine (outcome_withProduct s p x).trans ?_
        rw [if_neg (by simp [hx]), if_pos (by simpa using hv)]
    · exact .inr ⟨fun h => hx h.1, _,
        (outcome_withProduct s p x).trans (if_pos (by simpa using hx))⟩
  | scale =>
    by_cases hx : x.isFactor = true
    · exact .inl ⟨⟨hx, trivial⟩, (outcome_withScale s p x).trans (if_neg (by simp [hx]))⟩
    · exact .inr ⟨fun h => hx h.1, _, (outcome_withScale s p x).trans (if_pos (by simpa using hx))⟩
  | division =>
    by_cases hx : x.isFactor = true
    · exact .inl ⟨⟨hx, trivial⟩, (outcome_withDivision s p x).trans (if_neg (by simp [hx]))⟩
    · exact .inr ⟨fun h => hx h.1, _,
        (outcome_withDivision s p x).trans (if_pos (by simpa using hx))⟩

/-- What a builder does is known from extending what it accepts. -/
theorem Builder.run_ends {how : Builder} {Q : Composite α → Store α → Prop} (he : E s)
    (hext : how.Accepts s p x → (p.extended x how.operation).Ends s Q E) :
    (how.run p x).Ends s Q E := by
  rcases how.run_cases s p x with ⟨haccepts, hrun⟩ | ⟨-, e, hrun⟩
  · exact (hext haccepts).congr hrun
  · exact Run.ends_of_error hrun he

/-- Where an operand is accepted, the builder is not refused. -/
theorem Builder.run_ends_accepted {how : Builder} {Q : Composite α → Store α → Prop}
    (h : how.Accepts s p x) (hext : (p.extended x how.operation).Ends s Q E) :
    (how.run p x).Ends s Q E := by
  rcases how.run_cases s p x with ⟨-, hrun⟩ | ⟨hnot, -⟩
  · exact hext.congr hrun
  · exact absurd h hnot

end Composite

namespace Operand

/-! ### Operators on densities -/

variable {p : Composite α} {m : Model α} {op : Operation} {l r x : Operand α}

/-- An operator of a composite is one of the ways to build with an operand that suits it, or the
composite does not have it. -/
theorem applyComposite_ends {Q : Option (Composite α) → Store α → Prop}
    (hbuild : ∀ how : Composite.Builder, how.operation = op → how.Suits x →
      (how.run p x).Ends s (fun q t => Q (some q) t) E)
    (hnone : Q none s) : (applyComposite p op x).Ends s Q E := by
  have hsome : ∀ how : Composite.Builder, how.operation = op → how.Suits x →
      (do return some (← how.run p x)).Ends s Q E := fun how hop hx =>
    (hbuild how hop hx).bind fun q t hq => Run.ends_pure hq
  unfold applyComposite
  cases op with
  | plus => exact Run.ends_ite (hsome .sum rfl) fun _ => Run.ends_pure hnone
  | mult =>
    exact Run.ends_ite (hsome .product rfl) fun _ =>
      Run.ends_ite (hsome .scale rfl) fun _ => Run.ends_pure hnone
  | div => exact Run.ends_ite (hsome .division rfl) fun _ => Run.ends_pure hnone
  | _ => exact Run.ends_pure hnone

/-- An operator of a model multiplies a decay density by a function, or builds on a composite
of the model, or the model does not have it. -/
theorem applyModel_ends {Q : Option (Operand α) → Store α → Prop}
    (hweight : ∀ d w, m = .decay d → op = .mult → x = .weight w →
      (d.withWeight w).Ends s (fun e t => Q (some (.model (.decay e))) t) E)
    (hbuild : modelHas op = true → (∀ d w, m = .decay d → op = .mult → x ≠ .weight w) →
      (Composite.ofOperand (.model m)).Ends s (fun p t =>
        (applyComposite p op x).Ends t (fun o u => Q (o.map composite) u) E) E)
    (hnone : modelHas op = false → Q none s) : (applyModel m op x).Ends s Q E := by
  unfold applyModel
  split
  · rename_i d w
    exact (hweight d w rfl rfl rfl).bind fun e t he => Run.ends_pure he
  · rename_i hother
    refine Run.ends_ite (fun hop => ?_) fun hop => Run.ends_pure (hnone (by simpa using hop))
    refine (hbuild hop fun d w hm hop hx => hother d w hm hop hx).bind fun p t hp => ?_
    exact hp.bind fun o u ho => Run.ends_pure ho

variable {Q : Operand α → Store α → Prop}

/-- A model on the left is tried with the other operand, and if that is a parameter which the
model does not take, once more with the parameter as an expression. -/
theorem apply_model_left_ends {R : Option (Operand α) → Store α → Prop}
    (hfirst : (applyModel m op r).Ends s R E) (hsome : ∀ y t, R (some y) t → Q y t)
    (hnone : ∀ t, R none t → (∀ c, r ≠ .parameter c) → E t)
    (hagain : ∀ c t, R none t → r = .parameter c →
      (applyModel m op (.expression (.ofParameter (s.cell c).name c))).Ends t
        (fun o u => o.elim (E u) fun y => Q y u) E) :
    (apply op (.model m) r).Ends s Q E := by
  unfold apply
  refine Run.ends_get_bind (hfirst.bind ?_)
  rintro (_ | y) t ht
  · cases r with
    | parameter c =>
      refine (hagain c t ht rfl).bind ?_
      rintro (_ | y) u hu
      · exact Run.ends_throw hu
      · exact Run.ends_pure hu
    | _ => exact Run.ends_throw (hnone t ht nofun)
  · exact Run.ends_pure (hsome y t ht)

theorem apply_composite_left_ends
    (hbuild : ∀ how : Composite.Builder, how.operation = op → how.Suits r →
      (how.run p r).Ends s (fun q t => Q (.composite q) t) E) (he : E s) :
    (apply op (.composite p) r).Ends s Q E := by
  have happly : (applyComposite p op r).Ends s
      (fun o t => o.elim (E t) fun q => Q (.composite q) t) E := applyComposite_ends hbuild he
  unfold apply
  refine Run.ends_get_bind (happly.bind ?_)
  rintro (_ | q) t ht
  · exact Run.ends_throw ht
  · exact Run.ends_pure ht

/-- A model on the right, with no density on the left, is multiplied by a function, or scaled as
a composite. -/
theorem apply_model_right_ends (hl : l.isDensity = false)
    (hweight : ∀ w d, l = .weight w → m = .decay d → op = .mult →
      (d.withWeight w).Ends s (fun e t => Q (.model (.decay e)) t) E)
    (hscale : op = .mult → (∀ w d, l = .weight w → m ≠ .decay d) →
      (Composite.ofOperand (.model m)).Ends s (fun p t => (l.isFactor = false → E t) ∧
        (l.isFactor = true →
          (Composite.Builder.scale.run p l).Ends t (fun q u => Q (.composite q) u) E)) E)
    (he : op ≠ .mult → E s) : (apply op l (.model m)).Ends s Q E := by
  have hscaled : op = .mult → (∀ w d, l = .weight w → m ≠ .decay d) → (do
      let p ← Composite.ofOperand (.model m)
      if l.isFactor then return .composite (← p.withScale l) else throw .unsupportedOperands :
      Run α (Operand α)).Ends s Q E := fun hop hother =>
    (hscale hop hother).bind fun p t hp => Run.ends_ite
      (fun hf => (hp.2 hf).bind fun q u hq => Run.ends_pure hq)
      fun hf => Run.ends_throw (hp.1 (by simpa using hf))
  unfold apply
  refine Run.ends_get_bind ?_
  by_cases hop : op = .mult
  · subst hop
    cases l with
    | model k => cases hl
    | composite k => cases hl
    | weight w =>
      cases m with
      | decay d => exact (hweight w d rfl rfl rfl).bind fun e t he => Run.ends_pure he
      | _ => exact hscaled rfl (by simp)
    | _ => exact hscaled rfl (by simp)
  · have hthrow : (throw .unsupportedOperands : Run α (Operand α)).Ends s Q E :=
      Run.ends_throw (he hop)
    cases l with
    | model k => cases hl
    | composite k => cases hl
    | weight w =>
      cases op with
      | mult => exact absurd rfl hop
      | _ => cases m <;> exact hthrow
    | _ =>
      cases op with
      | mult => exact absurd rfl hop
      | _ => exact hthrow

/-- A composite on the right, with no density on the left, is scaled. -/
theorem apply_composite_right_ends (hl : l.isDensity = false)
    (hscale : op = .mult → l.isFactor = true →
      (Composite.Builder.scale.run p l).Ends s (fun q t => Q (.composite q) t) E)
    (he : E s) : (apply op l (.composite p)).Ends s Q E := by
  have hscaled : (if op = .mult ∧ l.isFactor then return .composite (← p.withScale l)
      else throw .unsupportedOperands : Run α (Operand α)).Ends s Q E :=
    Run.ends_ite (fun h => (hscale h.1 h.2).bind fun q t hq => Run.ends_pure hq)
      fun _ => Run.ends_throw he
  unfold apply
  refine Run.ends_get_bind ?_
  cases l with
  | model k => cases hl
  | composite k => cases hl
  | _ => exact hscaled

/-! ### Operators on factors -/

/-- Whichever operand is asked, the operands keep their places. -/
theorem combineSymbolic_eq (s : Store α) (op : Operation) (l r : Operand α) :
    combineSymbolic s op l r =
      if l.isSymbolic || r.isSymbolic then
        match l.lift? s, r.lift? s with
        | some a, some b => return .expression (.combine op a b)
        | _, _ => throw (if l.isFactor && r.isFactor then .overflow else .unsupportedOperands)
      else throw (if l.isFactor && r.isFactor then .overflow else .unsupportedOperands) := by
  unfold combineSymbolic symbolic?
  have hsome : ∀ x : Operand α, x.isSymbolic = true → ∃ e, x.lift? s = some e := by
    intro x hx
    cases x <;> first | exact ⟨_, rfl⟩ | cases hx
  cases hl : l.isSymbolic with
  | true =>
    obtain ⟨a, ha⟩ := hsome l hl
    cases hb : r.lift? s with
    | none =>
      have hr : r.isSymbolic = false := Bool.eq_false_iff.mpr fun hr => by
        obtain ⟨b, hb'⟩ := hsome r hr
        cases hb.symm.trans hb'
      simp [ha, hb, hr, joinFactor]
    | some b => simp [ha, hb, joinFactor]
  | false =>
    cases hr : r.isSymbolic with
    | false => simp
    | true =>
      obtain ⟨b, hb⟩ := hsome r hr
      cases ha : l.lift? s <;> simp [ha, hb, joinFactor]

theorem combineSymbolic_ends
    (hcombine : ∀ a b, l.lift? s = some a → r.lift? s = some b →
      Q (.expression (.combine op a b)) s) (he : E s) :
    (combineSymbolic s op l r).Ends s Q E := by
  rw [combineSymbolic_eq]
  refine Run.ends_ite (fun _ => ?_) fun _ => Run.ends_throw he
  cases ha : l.lift? s with
  | none => exact Run.ends_throw he
  | some a =>
    cases hb : r.lift? s with
    | none => exact Run.ends_throw he
    | some b => exact Run.ends_pure (hcombine a b ha hb)

/-- Operands that are no densities make an expression over the cells of both, or are plain
data. -/
theorem apply_factors_ends (hl : l.isDensity = false) (hr : r.isDensity = false)
    (hcombine : ∀ a b, l.lift? s = some a → r.lift? s = some b →
      Q (.expression (.combine op a b)) s)
    (hplain : ∀ d, Q (.plain d) s) (he : E s) : (apply op l r).Ends s Q E := by
  have hsymbolic : (combineSymbolic s op l r).Ends s Q E := combineSymbolic_ends hcombine he
  unfold apply
  refine Run.ends_get_bind ?_
  cases l with
  | model k => cases hl
  | composite k => cases hl
  | plain a =>
    cases r with
    | model k => cases hr
    | composite k => cases hr
    | plain b => exact Run.ends_reading_bind he fun d _ => Run.ends_pure (hplain d)
    | _ => exact hsymbolic
  | _ =>
    cases r with
    | model k => cases hr
    | composite k => cases hr
    | _ => exact hsymbolic

/-- A minus in front makes an expression, or is plain arithmetic. -/
theorem negate_ends (hnegate : ∀ e, x.lift? s = some e → Q (.expression e.negate) s)
    (hplain : ∀ d, Q (.plain d) s) (he : E s) : (negate x).Ends s Q E := by
  have hlift : (lift x).Ends s (fun e t => t = s ∧ x.lift? s = some e) E := by
    unfold lift
    refine Run.ends_get_bind ?_
    cases hx : x.lift? s with
    | none => exact Run.ends_throw he
    | some e => exact Run.ends_pure ⟨rfl, rfl⟩
  have hother : (if x.isSymbolic then return .expression (← lift x).negate
      else throw .unsupportedOperands : Run α (Operand α)).Ends s Q E := by
    refine Run.ends_ite (fun _ => hlift.bind ?_) fun _ => Run.ends_throw he
    rintro e t ⟨rfl, hx⟩
    exact Run.ends_pure (hnegate e hx)
  unfold negate
  cases x with
  | plain d => exact Run.ends_reading_bind he fun y _ => Run.ends_pure (hplain y)
  | _ => exact hother

end Operand

end DensityAlgebra
