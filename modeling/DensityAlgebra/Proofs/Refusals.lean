/-
# What a failing operation leaves

An operation on densities that fails leaves the cells, the registries and the normalizations
of its operands as they were; it builds beside them or not at all. A builder of composites
checks its operands before it copies anything, so if it refuses them nothing has changed. The
check does not notice a number out of reach; that is found when the composite is copied.

An operator of a model is another matter. It makes a composite of the model first, and then
lets a builder check. So where the model is a decay density, a refused operation has taken a
child of its random source, and the next copy of the density gets another one; with a
parameter on the right that cannot be added, the model is tried twice and two children are
gone. Multiplying by a function takes a child if the check of variables is passed and the
normalization of the product fails.

Key definitions: `Composite.copiedFor`, `Decay.weighed`, `Operand.attempted`,
`Making.attempted`, `Session.Seeded`.
Key theorems: `Composite.Builder.run_takes`, `Decay.withWeight_fails`, `Operand.apply_fails`,
`Making.run_fails`, `Session.making_fails`.
-/
import DensityAlgebra.Proofs.Rational
import DensityAlgebra.Proofs.Spawning

namespace DensityAlgebra

variable {α : Type} [Scalar α]

/-! ### Builders -/

namespace Composite

variable {s : Store α} {p : Composite α} {x : Operand α}

/-- The children that are taken for an operand before it is found to be out of reach: the
composite is copied by then. -/
def copiedFor (p : Composite α) (x : Operand α) : List SourceId :=
  if x.isBeyond then p.models.flatMap Model.sources else []

/-- The children that a failing builder has taken. Densities are never out of reach. -/
def Builder.attempted (p : Composite α) (x : Operand α) : Builder → List SourceId
  | .sum | .product => []
  | .scale | .division => p.copiedFor x

/-- A number out of reach is not put behind anything. -/
theorem append_beyond (hx : x.isBeyond = true) (q : Composite α) (s : Store α) :
    (q.append x).outcome s = (.error .overflow, s) := by
  obtain ⟨d, rfl, hreal, hd⟩ := Operand.exists_number_of_isBeyond hx
  simp only [append, hreal, hd]
  rfl

theorem extended_beyond (hx : x.isBeyond = true) (op : Operation) :
    (p.extended x op).Ends s (fun _ _ => False)
      fun t => s.Spawns (p.models.flatMap Model.sources) t := by
  have hfails : ∀ q : Composite α, ∀ t, s.Spawns (p.models.flatMap Model.sources) t →
      (q.append x).Ends t (fun _ _ => False)
        fun u => s.Spawns (p.models.flatMap Model.sources) u := fun q t ht =>
    Run.ends_of_error (append_beyond hx q t) ht
  unfold extended
  refine p.copy_takes.ends_bind fun q t ht => Run.ends_ite (fun _ => hfails q t ht) fun _ => ?_
  exact (hfails q t ht).bind fun _ _ h => h.elim

theorem Builder.attempted_of_suits {how : Builder} (h : how.Suits x) :
    how.attempted p x = p.copiedFor x := by
  have hdensity : x.isDensity = true → p.copiedFor x = [] := fun hx => by
    cases x <;> first | rfl | cases hx
  cases how with
  | sum => exact (hdensity h).symm
  | product => exact (hdensity h).symm
  | _ => rfl

/-- What a builder refuses at its check is not out of reach. -/
theorem Builder.attempted_of_refused {how : Builder} (h : ¬ how.Accepts s p x) :
    how.attempted p x = [] := by
  have hfactor : ¬ x.isFactor = true → p.copiedFor x = [] := fun hx => by
    cases x with
    | plain d =>
      exact if_neg (by simpa [Operand.isBeyond, Operand.isFactor] using fun h => absurd h hx)
    | _ => rfl
  cases how with
  | scale => exact hfactor fun hx => h ⟨hx, trivial⟩
  | division => exact hfactor fun hx => h ⟨hx, trivial⟩
  | _ => rfl

/-- For a number out of reach the composite is copied in vain. -/
theorem Builder.run_beyond {how : Builder} (hsuits : how.Suits x) (hx : x.isBeyond = true) :
    (how.run p x).Ends s (fun _ _ => False) fun t => s.Spawns (p.copiedFor x) t := by
  rw [copiedFor, if_pos hx]
  obtain ⟨d, rfl, hreal, -⟩ := Operand.exists_number_of_isBeyond hx
  exact run_ends_accepted (hsuits.accepts_factor hreal) (extended_beyond hx _)

/-- **A builder that fails has changed nothing**, or has copied the composite for a number out of
reach; otherwise it has copied both operands. -/
theorem Builder.run_takes (how : Builder) :
    (how.run p x).Ends s
      (fun _ t => s.Spawns (p.models.flatMap Model.sources ++ x.sources) t)
      fun t => s.Spawns (how.attempted p x) t := by
  rcases how.run_cases s p x with ⟨haccepts, hrun⟩ | ⟨hnot, e, hrun⟩
  · refine Run.Ends.congr ?_ hrun
    cases hx : x.isBeyond with
    | false =>
      exact (p.extended_takes (haccepts.1.fits hx) how.operation s).mono (fun _ _ h => h)
        fun _ h => h.elim
    | true =>
      rw [attempted_of_suits haccepts.1, copiedFor, if_pos hx]
      exact (extended_beyond hx how.operation).mono (fun _ _ h => h.elim) fun _ h => h
  · rw [attempted_of_refused hnot]
    exact Run.ends_of_error hrun (.refl s)

/-- Factors in reach are not refused. -/
theorem Builder.run_factor_takes {how : Builder} (hsuits : how.Suits x) (hx : x.isFactor = true)
    (hreach : x.isBeyond = false) :
    (how.run p x).Ends s
      (fun _ t => s.Spawns (p.models.flatMap Model.sources ++ x.sources) t) fun _ => False :=
  run_ends_accepted (hsuits.accepts_factor hx)
    (p.extended_takes ⟨.inr hx, hreach⟩ how.operation s)

end Composite

/-! ### Multiplying by a function -/

namespace Decay

/-- The child that multiplying by a function takes: none if the density lacks a variable of the
function. -/
def weighed (s : Store α) (d : Decay α) (w : Weight α) : List SourceId :=
  match d.checkDeclares s w.name (s.registry w.vars).sortedNames with
  | .ok _ => [d.source]
  | .error _ => []

/-- **Multiplying by a function fails** at the check of its variables, and nothing has changed,
or at the normalization of the product, when the density is copied already. -/
theorem withWeight_fails (s : Store α) (d : Decay α) (w : Weight α) :
    (d.withWeight w).Ends s (fun _ _ => True) fun t => s.Spawns (d.weighed s w) t := by
  unfold withWeight weighed
  refine Run.ends_read_bind (fun e he => ?_) fun _ hok => ?_
  · simp only [he]
    exact .refl s
  · simp only [hok]
    refine d.copy_takes.ends_bind fun out s₁ h₁ => ?_
    refine w.copy_takes.ends_bind fun added s₂ h₂ => ?_
    refine Run.Takes.ends_bind (Run.Takes.modify fun t => .of_eq rfl rfl rfl) fun _ s₃ h₃ => ?_
    refine (Run.rebind_takes _ _).ends_bind fun _ s₄ h₄ => ?_
    refine (Decay.shareCells_takes _).ends_bind fun _ s₅ h₅ => ?_
    have hs : s.Spawns [d.source] s₅ :=
      (((h₁.then_quiet h₂).then_quiet h₃).then_quiet h₄).then_quiet h₅
    refine ((Decay.cache_spec _ _).mono (fun _ _ _ => trivial) fun v hv => hv ▸ hs).bind ?_
    exact fun _ t _ => Run.ends_pure trivial

end Decay

/-! ### Operators -/

namespace Operand

variable {s : Store α}

/-- The children that an operator of composites takes for a number out of reach. -/
def scaledFor (p : Composite α) (op : Operation) (x : Operand α) : List SourceId :=
  match op with
  | .mult | .div => p.copiedFor x
  | _ => []

/-- A factor on the right, in reach or not, is one to scale or to divide by. -/
theorem applyComposite_beyond (p : Composite α) {op : Operation} {x : Operand α}
    (hx : x.isBeyond = true) (hop : op = .mult ∨ op = .div) :
    (applyComposite p op x).Ends s (fun _ _ => False) fun t => s.Spawns (scaledFor p op x) t := by
  obtain ⟨d, rfl, hreal, -⟩ := exists_number_of_isBeyond hx
  have hsome : ∀ how : Composite.Builder, how.Suits (.plain d) →
      (do return some (← how.run p (.plain d))).Ends s (fun _ _ => False)
        fun t => s.Spawns (p.copiedFor (.plain d)) t := fun how hsuits =>
    (Composite.Builder.run_beyond hsuits hx).bind fun _ _ h => h.elim
  unfold applyComposite
  rcases hop with rfl | rfl
  · refine Run.ends_ite nofun fun _ => Run.ends_ite (hsome .scale) fun hno => absurd hreal hno
  · exact Run.ends_ite (hsome .division) fun hno => absurd hreal hno

/-- **An operator of composites that fails**, or that they do not have, has copied the composite
for a number out of reach at most. -/
theorem applyComposite_refused (p : Composite α) (op : Operation) (x : Operand α) :
    (applyComposite p op x).Ends s (fun o t => o = none → t = s ∧ scaledFor p op x = [])
      fun t => s.Spawns (scaledFor p op x) t := by
  by_cases hbeyond : x.isBeyond = true ∧ (op = .mult ∨ op = .div)
  · exact (applyComposite_beyond p hbeyond.1 hbeyond.2).mono (fun _ _ h => h.elim) fun _ h => h
  · have hnothing : scaledFor p op x = [] := by
      unfold scaledFor Composite.copiedFor
      split
      · exact if_neg fun hx => hbeyond ⟨hx, .inl rfl⟩
      · exact if_neg fun hx => hbeyond ⟨hx, .inr rfl⟩
      · rfl
    rw [hnothing]
    refine applyComposite_ends (fun how hop hsuits => ?_) fun _ => ⟨rfl, rfl⟩
    refine how.run_takes.mono (fun _ _ _ => nofun) fun t ht => ?_
    rw [Composite.Builder.attempted_of_suits hsuits] at ht
    have hcopied : p.copiedFor x = [] := if_neg fun hx => hbeyond ⟨hx, ?_⟩
    · rwa [hcopied] at ht
    · -- only factors are out of reach
      obtain ⟨d, rfl, -⟩ := exists_number_of_isBeyond hx
      subst hop
      cases how with
      | sum => cases hsuits
      | product => cases hsuits
      | scale => exact .inl rfl
      | division => exact .inr rfl

/-- With a factor in reach on the right, an operator of composites is one that they do not have,
or it does not fail. -/
theorem applyComposite_factor (p : Composite α) (op : Operation) {x : Operand α}
    (hx : x.isFactor = true) (hreach : x.isBeyond = false) :
    (applyComposite p op x).Ends s (fun o t => o = none → t = s) fun _ => False :=
  applyComposite_ends (fun _ _ hsuits =>
    (Composite.Builder.run_factor_takes hsuits hx hreach).mono (fun _ _ _ => nofun) fun _ h => h)
    fun _ => rfl

/-- The child that an operator takes of a model on its left before anything is checked. -/
def opened (m : Model α) (op : Operation) : List SourceId := if modelHas op then m.sources else []

/-- The children that an operator has taken that fails with a model on its left. -/
def attemptedOnLeft (s : Store α) (m : Model α) (op : Operation) (r : Operand α) :
    List SourceId :=
  match m, op, r with
  | .decay d, .mult, .weight w => d.weighed s w
  | m, op, .parameter _ => opened m op ++ opened m op
  | m, op, _ => opened m op

/-- The children that an operator has taken that fails with a model on its right and no density
on its left. -/
def attemptedOnRight (s : Store α) (l : Operand α) (op : Operation) (m : Model α) :
    List SourceId :=
  match l, op, m with
  | .weight w, .mult, .decay d => d.weighed s w
  | _, .mult, m => m.sources
  | _, _, _ => []

/-- The children that a failing operator has taken. -/
def attempted (s : Store α) (op : Operation) (l r : Operand α) : List SourceId :=
  match l, r with
  | .model m, r => attemptedOnLeft s m op r
  | .composite p, r => scaledFor p op r
  | l, .model m => attemptedOnRight s l op m
  | l, .composite p => if op = .mult then p.copiedFor l else []
  | _, _ => []

omit [Scalar α] in
theorem model_sources (m : Model α) : (Operand.model m).sources = m.sources :=
  List.flatMap_singleton _ m

/-- A model is copied before the operator is looked up among those of composites. -/
theorem applyModel_opens {m : Model α} {op : Operation} {x : Operand α} {E : Store α → Prop}
    (hcomposite : ∀ p u, s.Spawns (opened m op) u →
      (∀ r ∈ p.models.flatMap Model.sources, s.sources.size ≤ r.index) →
      (applyComposite p op x).Ends u (fun o t => o = none → t = u) E)
    (hother : ∀ d w, m = .decay d → op = .mult → x ≠ .weight w) :
    (applyModel m op x).Ends s (fun o t => o = none → s.Spawns (opened m op) t) E := by
  refine applyModel_ends (fun d w hm hop hx => absurd hx (hother d w hm hop)) (fun hop _ => ?_)
    fun hop _ => ?_
  · have hcopy := Composite.ofOperand_takes (x := .model m) ⟨.inl rfl, rfl⟩
    rw [model_sources] at hcopy
    refine ((hcopy s).and (Composite.ofModel_new m s)).mono (fun p u hu => ?_) fun _ h => h.1.elim
    have hopened : s.Spawns (opened m op) u := by
      unfold opened
      rw [if_pos hop]
      exact hu.1
    refine (hcomposite p u hopened hu.2).mono (fun o t ho hnone => ?_) fun _ h => h
    rw [ho (Option.map_eq_none_iff.mp hnone)]
    exact hopened
  · unfold opened
    rw [hop]
    exact .refl s

/-- **A model is copied before an operator is refused.** What is copied of the composite of the
model after that has new sources. -/
theorem applyModel_spawns {m : Model α} {op : Operation} {x : Operand α}
    (hother : ∀ d w, m = .decay d → op = .mult → x ≠ .weight w) :
    (applyModel m op x).Ends s (fun o t => o = none → s.Spawns (opened m op) t)
      fun t => s.Spawns (opened m op) t := by
  refine applyModel_opens (fun p u hu hnew => ?_) hother
  refine (applyComposite_refused p op x).mono (fun _ _ h ho => (h ho).1) fun t ht => ?_
  refine (hu.trans ht).of_new fun r hr => hnew r ?_
  unfold scaledFor Composite.copiedFor at hr
  split at hr <;> first | exact absurd hr List.not_mem_nil | split_ifs at hr
  · exact hr
  · exact absurd hr List.not_mem_nil
  · exact hr
  · exact absurd hr List.not_mem_nil

/-- A model is not refused with a factor in reach, though it may not have the operator. -/
theorem applyModel_factor (m : Model α) (op : Operation) {x : Operand α}
    (hx : x.isFactor = true) (hreach : x.isBeyond = false) :
    (applyModel m op x).Ends s (fun o t => o = none → s.Spawns (opened m op) t)
      fun _ => False :=
  applyModel_opens (fun p _ _ _ => applyComposite_factor p op hx hreach)
    fun d w _ _ h => by rw [h] at hx; cases hx

omit [Scalar α] in
theorem attemptedOnLeft_parameter (m : Model α) (op : Operation) (c : CellId) :
    attemptedOnLeft s m op (.parameter c) = opened m op ++ opened m op := by
  cases m <;> cases op <;> rfl

omit [Scalar α] in
theorem attemptedOnLeft_other {m : Model α} {op : Operation} {r : Operand α}
    (h : ∀ d w, m = .decay d → op = .mult → r ≠ .weight w) (hr : ∀ c, r ≠ .parameter c) :
    attemptedOnLeft s m op r = opened m op := by
  unfold attemptedOnLeft
  split
  · rename_i d w
    exact absurd rfl (h d w rfl rfl)
  · rename_i c
    exact absurd rfl (hr c)
  · rfl

/-- **What fails with a model on the left.** -/
theorem apply_left_fails (m : Model α) (op : Operation) (r : Operand α) :
    (apply op (.model m) r).Ends s (fun _ _ => True)
      fun t => s.Spawns (attemptedOnLeft s m op r) t := by
  by_cases hweight : ∃ d w, m = .decay d ∧ op = .mult ∧ r = .weight w
  · obtain ⟨d, w, rfl, rfl, rfl⟩ := hweight
    have hsome : (applyModel (.decay d) .mult (.weight w)).Ends s
        (fun o _ => o ≠ none) fun t => s.Spawns (d.weighed s w) t :=
      (d.withWeight_fails s w).bind fun e t _ => Run.ends_pure nofun
    exact apply_model_left_ends hsome (fun _ _ _ => trivial) (fun _ h => absurd rfl h)
      fun _ _ h => absurd rfl h
  have hother : ∀ d w, m = .decay d → op = .mult → r ≠ .weight w :=
    fun d w hm hop hr => hweight ⟨d, w, hm, hop, hr⟩
  by_cases hparameter : ∃ c, r = .parameter c
  · obtain ⟨c, rfl⟩ := hparameter
    rw [attemptedOnLeft_parameter]
    refine apply_model_left_ends ((applyModel_factor m op (x := .parameter c) rfl rfl).mono
      (fun _ _ h => h) fun _ h => h.elim) (fun _ _ _ => trivial)
      (fun _ _ h => absurd rfl (h c)) fun c' u hu _ => ?_
    -- the second try, with the parameter as an expression
    refine (applyModel_factor m op rfl rfl).mono ?_ fun _ h => h.elim
    rintro (_ | y) t ht
    · exact (hu rfl).trans (ht rfl)
    · trivial
  · push Not at hparameter
    rw [attemptedOnLeft_other hother hparameter]
    exact apply_model_left_ends (applyModel_spawns hother) (fun _ _ _ => trivial)
      (fun _ ht _ => ht rfl) fun c _ _ hr => absurd hr (hparameter c)

omit [Scalar α] in
theorem attemptedOnRight_mult {l : Operand α} {m : Model α}
    (h : ∀ w d, l = .weight w → m ≠ .decay d) : attemptedOnRight s l .mult m = m.sources := by
  cases l with
  | weight w =>
    cases m with
    | decay d => exact absurd rfl (h w d rfl)
    | _ => rfl
  | _ => rfl

/-- **What fails with a model on the right**, and no density on the left. -/
theorem apply_right_fails (l : Operand α) (op : Operation) (m : Model α)
    (hl : l.isDensity = false) :
    (apply op l (.model m)).Ends s (fun _ _ => True)
      fun t => s.Spawns (attemptedOnRight s l op m) t := by
  refine apply_model_right_ends hl ?_ ?_ fun hop => ?_
  · rintro w d rfl rfl rfl
    exact d.withWeight_fails s w
  · rintro rfl hother
    have hcopy := Composite.ofOperand_takes (x := .model m) ⟨.inl rfl, rfl⟩
    rw [model_sources] at hcopy
    rw [attemptedOnRight_mult hother]
    refine ((hcopy s).and (Composite.ofModel_new m s)).mono (fun p u hu => ⟨fun _ => hu.1, ?_⟩)
      fun _ h => h.1.elim
    refine fun _ => Composite.Builder.scale.run_takes.mono (fun _ _ _ => trivial) fun t ht => ?_
    -- the composite of the model has new sources
    refine (hu.1.trans ht).of_new fun r hr => hu.2 r ?_
    unfold Composite.Builder.attempted Composite.copiedFor at hr
    split_ifs at hr
    · exact hr
    · exact absurd hr List.not_mem_nil
  · have hnothing : attemptedOnRight s l op m = [] := by
      unfold attemptedOnRight
      split <;> first | rfl | exact absurd rfl hop
    rw [hnothing]
    exact .refl s

/-- **What fails with a composite on the left.** -/
theorem apply_composite_refused (p : Composite α) (op : Operation) (r : Operand α) :
    (apply op (.composite p) r).Ends s (fun _ _ => True)
      fun t => s.Spawns (scaledFor p op r) t := by
  unfold apply
  refine Run.ends_get_bind ((applyComposite_refused p op r).bind ?_)
  rintro (_ | q) t ht
  · obtain ⟨rfl, hnothing⟩ := ht rfl
    exact Run.ends_throw (hnothing ▸ .refl _)
  · exact Run.ends_pure trivial

/-- **What fails with a composite on the right**, and no density on the left. -/
theorem apply_scaled_refused {l : Operand α} (op : Operation) (p : Composite α)
    (hl : l.isDensity = false) : (apply op l (.composite p)).Ends s (fun _ _ => True) fun t =>
      s.Spawns (if op = .mult then p.copiedFor l else []) t := by
  by_cases hbeyond : op = .mult ∧ l.isBeyond = true
  · obtain ⟨rfl, hx⟩ := hbeyond
    rw [if_pos rfl]
    obtain ⟨d, rfl, hreal, -⟩ := exists_number_of_isBeyond hx
    have hsuits : Composite.Builder.Suits (.plain d) .scale := hreal
    have hscaled := (Composite.Builder.run_beyond (s := s) (p := p) hsuits hx).bind
      (f := fun q => (pure (.composite q) : Run α (Operand α))) (Q := fun _ _ => True)
      fun _ _ h => h.elim
    exact Run.ends_get_bind (Run.ends_ite (fun _ => hscaled) fun hno => absurd ⟨rfl, hreal⟩ hno)
  · have hnothing : (if op = .mult then p.copiedFor l else []) = [] := by
      unfold Composite.copiedFor
      split_ifs with hop hx
      · exact absurd ⟨hop, hx⟩ hbeyond
      · rfl
      · rfl
    rw [hnothing]
    refine apply_composite_right_ends hl (fun hop hfactor => ?_) (.refl s)
    have hreach : l.isBeyond = false := Bool.eq_false_iff.mpr fun hx => hbeyond ⟨hop, hx⟩
    have hsuits : Composite.Builder.Suits l .scale := hfactor
    exact (Composite.Builder.run_factor_takes hsuits hfactor hreach).mono
      (fun _ _ _ => trivial) fun _ h => h.elim

/-- What fails without a density has changed nothing. -/
theorem apply_others_refused {l r : Operand α} (op : Operation) (hl : l.isDensity = false)
    (hr : r.isDensity = false) : (apply op l r).Ends s (fun _ _ => True) fun t => t = s :=
  apply_factors_ends hl hr (fun _ _ _ _ => trivial) (fun _ => trivial) rfl

theorem attempted_right {l : Operand α} (hl : l.isDensity = false) (op : Operation) (m : Model α) :
    attempted s op l (.model m) = attemptedOnRight s l op m := by
  cases l with
  | model k => cases hl
  | composite k => cases hl
  | _ => rfl

theorem attempted_scaled {l : Operand α} (hl : l.isDensity = false) (op : Operation)
    (p : Composite α) :
    attempted s op l (.composite p) = if op = .mult then p.copiedFor l else [] := by
  cases l with
  | model k => cases hl
  | composite k => cases hl
  | _ => rfl

theorem attempted_others {l r : Operand α} (hl : l.isDensity = false) (hr : r.isDensity = false)
    (op : Operation) : attempted s op l r = [] := by
  unfold attempted
  split
  · cases hl
  · cases hl
  · cases hr
  · cases hr
  · rfl

/-- **A failing operator has taken children of models at most.** -/
theorem apply_fails (op : Operation) (l r : Operand α) :
    (apply op l r).Ends s (fun _ _ => True) fun t => s.Spawns (attempted s op l r) t := by
  cases hl : l.isDensity with
  | true =>
    cases l with
    | model m => exact apply_left_fails m op r
    | composite p => exact apply_composite_refused p op r
    | _ => cases hl
  | false =>
    cases hr : r.isDensity with
    | true =>
      cases r with
      | model m =>
        rw [attempted_right hl]
        exact apply_right_fails l op m hl
      | composite p =>
        rw [attempted_scaled hl]
        exact apply_scaled_refused op p hl
      | _ => cases hr
    | false =>
      rw [attempted_others hl hr]
      exact (apply_others_refused op hl hr).mono (fun _ _ h => h) fun t ht => ht ▸ .refl s

/-- A minus in front that is refused has changed nothing. -/
theorem negate_refused (x : Operand α) : (negate x).Ends s (fun _ _ => True) fun t => t = s :=
  negate_ends (fun _ _ => trivial) (fun _ => trivial) rfl

end Operand

/-! ### Objects -/

section

variable {s : Store α} {os : List (Object α)}

/-- The operand that is passed, if the object is there. -/
def Passed.operand? (s : Store α) (os : List (Object α)) : Passed α → Option (Operand α)
  | held i => os[i]?.map (·.operand s)
  | plain d => some (.plain d)
  | operation op => some (.operation op)

theorem Passed.operand_reads (x : Passed α) :
    (x.operand os).Ends s (fun y t => t = s ∧ x.operand? s os = some y)
      fun t => t = s ∧ x.operand? s os = none := by
  cases x with
  | held i =>
    refine Run.ends_read_bind (fun e he => ⟨rfl, ?_⟩) fun o ho =>
      Run.ends_get_bind (Run.ends_pure ⟨rfl, ?_⟩)
    · show os[i]?.map _ = _
      rw [Held.object_eq_error he]
      rfl
    · show os[i]?.map _ = _
      rw [Held.object_eq_ok ho]
      rfl
  | plain d => exact Run.ends_pure ⟨rfl, rfl⟩
  | operation op => exact Run.ends_pure ⟨rfl, rfl⟩

/-- A composite of one operand has copied nothing if the operand is refused. -/
theorem Composite.ofOperand_fails (x : Operand α) :
    (ofOperand x).Ends s (fun _ _ => True) fun t => s.Spawns [] t := by
  refine new_takes.ends_bind fun p t ht => ?_
  have htakes : x.Fits → (p.append x).Ends t (fun _ _ => True) fun u => s.Spawns [] u := fun hx =>
    (p.append_takes hx t).mono (fun _ _ _ => trivial) fun _ h => h.elim
  cases x with
  | operation op => exact Run.ends_pure trivial
  | plain d =>
    simp only [append]
    split
    · exact Run.ends_pure trivial
    · exact Run.ends_throw ht
  | weight w => exact Run.ends_throw ht
  | other k => exact Run.ends_throw ht
  | model m => exact htakes ⟨.inl rfl, rfl⟩
  | composite y => exact htakes ⟨.inl rfl, rfl⟩
  | parameter c => exact htakes ⟨.inr rfl, rfl⟩
  | expression e => exact htakes ⟨.inr rfl, rfl⟩

/-- Objects can be copied. -/
theorem Object.copy_succeeds (o : Object α) (key : Nat) :
    (o.copy key).Ends s (fun _ _ => True) fun _ => False := by
  cases o with
  | density d =>
    cases d with
    | model m => exact m.copy_takes.ends_bind fun _ _ _ => Run.ends_pure trivial
    | composite p => exact p.copy_takes.ends_bind fun _ _ _ => Run.ends_pure trivial
  | weight w => exact w.copy_takes.ends_bind fun _ _ _ => Run.ends_pure trivial
  | amplitude a => exact a.copy_takes.ends_bind fun _ _ _ => Run.ends_pure trivial
  | expression k e => exact e.copy_takes.ends_bind fun _ _ _ => Run.ends_pure trivial
  | cell c =>
    exact Run.ends_get_bind ((Run.newCell_takes _).ends_bind fun _ _ _ => Run.ends_pure trivial)
  | registry r =>
    exact Run.ends_get_bind ((Run.newRegistry_takes _).ends_bind fun _ _ _ => Run.ends_pure trivial)
  | _ => exact Run.ends_pure trivial

namespace Making

/-- The children that are taken by what fails to make an object. -/
def attempted (s : Store α) (os : List (Object α)) : Making α → List SourceId
  | build how i x =>
    match Held.composite os i, x.operand? s os with
    | .ok p, some x => how.attempted p x
    | _, _ => []
  | operator op l r =>
    match l.operand? s os, r.operand? s os with
    | some l, some r => Operand.attempted s op l r
    | _, _ => []
  | withWeight d w =>
    match Held.decay os d, Held.weight os w with
    | .ok d, .ok w => d.weighed s w
    | _, _ => []
  | _ => []

/-- There is an object for whatever an operator makes. -/
theorem named_succeeds {b u : Store α} {ds : List (Density α)} {y : Operand α}
    (hy : y.Made b s u ds) {t : Store α} :
    (named os y).Ends t (fun _ _ => True) fun _ => False := by
  cases y with
  | composite q => exact Run.ends_pure trivial
  | model k => exact Run.ends_pure trivial
  | expression e => exact Run.ends_pure trivial
  | plain d => exact Run.ends_pure trivial
  | _ => exact absurd hy id

/-- **What fails to make an object** has taken children of random sources at most. -/
theorem run_fails (hs : s.Sound) (hos : ∀ o ∈ os, o.Valid s) (m : Making α) :
    (m.run os).Ends s (fun _ _ => True) fun t => s.Spawns (m.attempted s os) t := by
  have hpassed : ∀ x : Passed α, (x.operand os).Ends s
      (fun y t => t = s ∧ x.operand? s os = some y ∧ y.Valid s)
      fun t => t = s ∧ x.operand? s os = none := fun x =>
    ((x.operand_reads).and (Passed.operand_spec hos (E := fun _ => True) trivial x)).mono
      (fun _ _ h => ⟨h.1.1, h.1.2, h.2.2.1⟩) fun _ h => h.1
  have hself := Store.Apart.refl hs
  cases m with
  | empty => exact Composite.new_takes.ends_bind fun p t _ => Run.ends_pure trivial
  | single x =>
    refine ((hpassed x).mono (fun _ _ h => h) fun t ht => ht.1 ▸ .refl s).bind ?_
    rintro y t ⟨rfl, -, -⟩
    exact (Composite.ofOperand_fails y).bind fun q t _ => Run.ends_pure trivial
  | build how i x =>
    refine Run.ends_read_bind (fun e he => ?_) fun p hp => ?_
    · simp only [attempted, he]
      exact .refl s
    refine ((hpassed x).mono (fun _ _ h => h) fun t ht => ?_).bind ?_
    · have hnothing : (build how i x).attempted s os = [] := by simp only [attempted, hp, ht.2]
      rw [hnothing, ht.1]
      exact .refl s
    rintro y t ⟨rfl, hy, -⟩
    have hattempted : (build how i x).attempted t os = how.attempted p y := by
      simp only [attempted, hp, hy]
    rw [hattempted]
    refine (how.run_takes.mono (fun _ _ h => h) fun _ h => h).bind ?_
    exact fun q t _ => Run.ends_pure trivial
  | operator op l r =>
    refine ((hpassed l).mono (fun _ _ h => h) fun t ht => ?_).bind ?_
    · have hnothing : (operator op l r).attempted s os = [] := by simp only [attempted, ht.2]
      rw [hnothing, ht.1]
      exact .refl s
    rintro y t ⟨rfl, hy, hyv⟩
    refine ((hpassed r).mono (fun _ _ h => h) fun u hu => ?_).bind ?_
    · have hnothing : (operator op l r).attempted t os = [] := by simp only [attempted, hy, hu.2]
      rw [hnothing, hu.1]
      exact .refl t
    rintro z t ⟨rfl, hz, hzv⟩
    have hattempted : (operator op l r).attempted t os = Operand.attempted t op y z := by
      simp only [attempted, hy, hz]
    rw [hattempted]
    refine (((Operand.apply_fails op y z).and (Operand.apply_spec op hself hyv hzv)).mono
      (fun _ _ h => h) fun _ h => h.1).bind fun o u ho => ?_
    exact (named_succeeds ho.2.2).mono (fun _ _ h => h) fun _ h => h.elim
  | negate x =>
    refine ((hpassed x).mono (fun _ _ h => h) fun t ht => ht.1 ▸ .refl s).bind ?_
    rintro y t ⟨rfl, -, hyv⟩
    refine ((y.negate_refused.and (Operand.negate_spec [] hself hyv)).mono
      (fun _ _ h => h) fun _ h => h.1 ▸ .refl _).bind fun o u ho => ?_
    exact (named_succeeds ho.2.2).mono (fun _ _ h => h) fun _ h => h.elim
  | copy i =>
    refine Run.ends_reading_bind (.refl s) fun o _ => ?_
    exact (o.copy_succeeds os.length).mono (fun _ _ h => h) fun _ h => h.elim
  | withWeight i j =>
    refine Run.ends_read_bind (fun e he => ?_) fun d hd =>
      Run.ends_read_bind (fun e he => ?_) fun w hw => ?_
    · simp only [attempted, he]
      exact .refl s
    · simp only [attempted, hd, he]
      exact .refl s
    · simp only [attempted, hd, hw]
      exact (d.withWeight_fails s w).bind fun e t _ => Run.ends_pure trivial

end Making

end

/-! ### Sessions -/

namespace Session

/-- What sessions with random sources come to. Between their calls sources are made and drawn
from, formulas are evaluated and notices are given; none of this touches cells, registries or
normalizations. -/
inductive Seeded : Session α → Prop
  | start : Seeded start
  | step {σ : Session α} (h : Seeded σ) (c : Call α) : Seeded (σ.step c)
  | same {σ : Session α} {t : Store α} (h : Seeded σ) (ht : σ.store.Same t) : Seeded ⟨t, σ.objects⟩

theorem Seeded.valid {σ : Session α} (h : Seeded σ) : σ.Valid := by
  induction h with
  | start => exact after_valid []
  | step _ c ih => exact ih.step c
  | same _ ht ih =>
    refine ⟨ih.sound.of_same ht, fun o ho => (ih.objects o ho).grows ?_⟩
    exact (ht.within (C := ∅) (D := ∅)).toGrows

theorem Seeded.run {σ : Session α} (h : Seeded σ) : ∀ calls : List (Call α),
    Seeded (calls.foldl Session.step σ)
  | [] => h
  | c :: rest => (h.step c).run rest

end Session

/-- **Making an object fails.** The cells, registries and normalizations that were there are
as they were. Each random source has given the children that the making has attempted to
use, and no other change is left; so the sources are as they were just if there is no decay
density among the models that were copied in vain. -/
theorem Session.making_fails {σ : Session α} (hσ : σ.Seeded) {m : Making α} {e : Fault α}
    {t : Store α} (h : (m.run σ.objects).outcome σ.store = (.error e, t)) :
    σ.store.Apart t ∧ σ.store.Spawns (m.attempted σ.store σ.objects) t ∧
      ((∀ r : SourceId, r.index < σ.store.sources.size → t.source r = σ.store.source r) ↔
        ∀ r ∈ m.attempted σ.store σ.objects, σ.store.sources.size ≤ r.index) := by
  have hspawns := (m.run_fails hσ.valid.sound hσ.valid.objects).error h
  exact ⟨(m.run_spec hσ.valid.sound hσ.valid.objects).error h, hspawns, hspawns.sources_same_iff⟩

namespace Sample

/-- A random source, and a decay density that uses it. -/
def seeded : Session ℚ :=
  [ .cell ⟨.variable, "m12", .scalar 0, .scalar 0⟩,
    .cell ⟨.variable, "m13", .scalar 0, .scalar 0⟩,
    .cell ⟨.variable, "m23", .scalar 0, .scalar 0⟩,
    .flat (.ofReal 1),
    .decay "Decay3Body" 0 1 2 3 ⟨7, 0, 1, 0⟩ (.ok 1) 14 (.ok 10) ⟨0⟩ ].foldl Session.step
      ⟨{ Store.empty with sources := #[.ofSeed 7 []] }, []⟩

/-- The decay density times itself. -/
def squared : Making ℚ := .operator .mult (.held 4) (.held 4)

theorem seeded_seeded : seeded.Seeded :=
  have hsource : Session.Seeded (⟨{ Store.empty with sources := #[.ofSeed 7 []] }, []⟩ :
      Session ℚ) := .same (σ := Session.start) .start ⟨rfl, rfl, rfl⟩
  hsource.run _

end Sample

/-- A decay density cannot be multiplied by itself. Its random source has given a child to the
attempt, so that a copy made afterwards gets another one. -/
theorem Session.making_fails_squared : ∃ e t,
    (Sample.squared.run Sample.seeded.objects).outcome Sample.seeded.store = (.error e, t) ∧
      (Sample.seeded.store.source ⟨0⟩).spawned = 0 ∧ (t.source ⟨0⟩).spawned = 1 ∧
      (t.source ⟨0⟩).spawn.1.seed ≠ (Sample.seeded.store.source ⟨0⟩).spawn.1.seed := by
  have hrun : ((Sample.squared.run Sample.seeded.objects).outcome
        Sample.seeded.store).1.isOk = false ∧
      Sample.squared.attempted Sample.seeded.store Sample.seeded.objects = [⟨0⟩] ∧
      Sample.seeded.store.sources.size = 1 ∧ (Sample.seeded.store.source ⟨0⟩).seed = 7 ∧
      (Sample.seeded.store.source ⟨0⟩).spawned = 0 := by
    decide +kernel
  obtain ⟨hfails, hattempted, hsize, hseed, hspawned⟩ := hrun
  rcases hout : (Sample.squared.run Sample.seeded.objects).outcome Sample.seeded.store with
    ⟨e | o, t⟩
  · obtain ⟨-, hspawns, -⟩ := Session.making_fails Sample.seeded_seeded hout
    have hafter := hspawns.sources ⟨0⟩ (by rw [hsize]; exact Nat.zero_lt_one)
    rw [hattempted, hspawned] at hafter
    refine ⟨e, t, rfl, hspawned, ?_, ?_⟩
    · rw [hafter]
      rfl
    · -- the seeds of the first two children of the seed 7
      simp only [hafter, Source.spawn, Source.ofSeed, hseed, hspawned]
      decide
  · rw [hout] at hfails
    cases hfails

end DensityAlgebra
