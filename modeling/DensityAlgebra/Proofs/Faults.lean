/-
# Faults of programs

Missing and left-over operands and unknown operators are faults of programs. A
computation is clear of them if it does not fail with one. Models compute by formulas and
by arithmetic on values, which fail in other ways only; so the value of a model is clear,
wherever what is given for its variables is. A whole program is clear as its leaves are.

Key definitions: `Fault.Kind.ofProgram`, `Clear`, `Given.Clear`, `Input.Clear`.
Key theorems: `Clear.bind`, `Amplitude.evaluate_clear`, `Model.density_clear`,
`Model.evaluate_clear`, `Program.evaluate_clear`, `Expression.value_clear`.
-/
import DensityAlgebra.Proofs.Arithmetic

namespace DensityAlgebra

variable {α β γ : Type}

/-- Operands are missing or left over, or an operator is unknown. -/
def Fault.Kind.ofProgram : Fault.Kind → Bool
  | .stackUnderflow | .unknownOperator | .malformedProgram => true
  | _ => false

/-- The computation does not fail with a fault of programs. -/
def Clear (x : Except (Fault α) β) : Prop := ∀ e, x = .error e → e.kind.ofProgram = false

namespace Clear

theorem ok (b : β) : Clear (.ok b : Except (Fault α) β) := fun _ h => by cases h

theorem error {e : Fault α} (h : e.kind.ofProgram = false) :
    Clear (.error e : Except (Fault α) β) := by
  intro e' he
  rwa [← Except.error.inj he]

/-- A sequence is clear if its parts are. -/
theorem bind {x : Except (Fault α) β} {f : β → Except (Fault α) γ} (hx : Clear x)
    (hf : ∀ b, x = .ok b → Clear (f b)) : Clear (x >>= f) := by
  cases x with
  | error e =>
    intro e' he
    rw [error_bind] at he
    exact hx e' (congrArg Except.error (Except.error.inj he))
  | ok b => exact hf b rfl

theorem map {x : Except (Fault α) β} (hx : Clear x) (f : β → γ) :
    Clear (do return f (← x)) := hx.bind fun b _ => ok (f b)

theorem ite {c : Prop} {_ : Decidable c} {x y : Except (Fault α) β} (hx : Clear x)
    (hy : Clear y) : Clear (if c then x else y) := by
  split
  · exact hx
  · exact hy

theorem mapM {f : β → Except (Fault α) γ} {xs : List β} (h : ∀ x ∈ xs, Clear (f x)) :
    Clear (xs.mapM f) := by
  induction xs with
  | nil => exact ok []
  | cons x xs ih =>
    rw [List.forall_mem_cons] at h
    rw [List.mapM_cons]
    exact h.1.bind fun y _ => (ih h.2).bind fun ys _ => ok (y :: ys)

end Clear

/-! ### Values -/

namespace Value

theorem combine_clear {δ : Type} (f : β → γ → δ) (v : Value β) (w : Value γ) :
    Clear (combine f v w : Except (Fault α) (Value δ)) := by
  cases v with
  | scalar x => cases w <;> exact .ok _
  | column xs =>
    cases w with
    | scalar y => exact .ok _
    | column ys =>
      refine .ite (.ok _) ?_
      split
      · exact .ok _
      · exact .ok _
      · exact .error rfl

theorem combine₃_clear {δ ε : Type} (f : β → γ → δ → ε) (u : Value β) (v : Value γ)
    (w : Value δ) : Clear (combine₃ f u v w : Except (Fault α) (Value ε)) :=
  (combine_clear _ u v).bind fun g _ => combine_clear _ g w

theorem single?_clear (v : Value β) : Clear (v.single? : Except (Fault α) β) := by
  cases v with
  | scalar x => exact .ok x
  | column xs => exact .error rfl

theorem power_clear [Scalar α] (v w : Value α) : Clear (v.power w) := by
  unfold power
  split
  · exact .ok _
  · exact .ok _
  · exact combine_clear _ v w

end Value

/-! ### What is given -/

/-- The number of an expression is clear. -/
def Given.Clear : Given α → Prop
  | .expression v => DensityAlgebra.Clear v
  | _ => True

namespace Given

/-- What is given by a content is clear. -/
theorem Clear.of_content (c : Content α) : c.given.Clear := by
  rcases c with v | d | (- | x)
  · trivial
  · trivial
  · trivial
  · exact .ok _

variable [Scalar α]

theorem toReal_clear (d : Datum α) : DensityAlgebra.Clear d.toReal := by
  unfold Datum.toReal
  split
  · exact .ok _
  · split_ifs
    · exact .error rfl
    · exact .error rfl

theorem toNumber_clear (d : Datum α) : DensityAlgebra.Clear d.toNumber := by
  unfold Datum.toNumber
  split
  · split
    · exact .ok _
    · exact .error rfl
  · exact toReal_clear _

theorem plain_clear (g : Given α) : DensityAlgebra.Clear g.plain := by
  cases g with
  | value v => exact .ok v
  | datum d => exact (toReal_clear d).map _
  | expression v => exact .error rfl
  | object => exact .error rfl

theorem array_clear (g : Given α) : DensityAlgebra.Clear g.array := by
  unfold array
  split
  · exact (Clear.mapM fun d _ => toReal_clear d).map _
  · exact g.plain_clear

theorem Clear.operand {g : Given α} (h : g.Clear) : DensityAlgebra.Clear g.operand := by
  unfold Given.operand
  split
  · rename_i v
    have hv : DensityAlgebra.Clear v := h
    exact hv.bind fun w _ => w.single?_clear.map _
  · exact g.array_clear

theorem readDatum_clear (d : Datum α) : DensityAlgebra.Clear (readDatum d) := by
  unfold readDatum
  split
  · exact .ok _
  · exact toNumber_clear d

theorem Clear.read {g : Given α} (h : g.Clear) : DensityAlgebra.Clear g.read := by
  unfold Given.read
  split
  · exact (Clear.mapM fun d _ => readDatum_clear d).map _
  · exact (readDatum_clear _).map _
  · exact h.operand

end Given

/-- All that is given at a point is clear. -/
def PointClear (point : List (String × Given α)) : Prop := ∀ e ∈ point, e.2.Clear

theorem PointClear.lookup {point : List (String × Given α)} (h : PointClear point) {n : String}
    {g : Given α} (hg : point.lookup n = some g) : g.Clear := by
  obtain ⟨ys, zs, rfl, -⟩ := List.lookup_eq_some_iff.mp hg
  exact h (n, g) (by simp)

section

variable [Scalar α] {s : Store α}

theorem Store.lookup_clear (s : Store α) (r : RegistryId) (n : String) : Clear (s.lookup r n) := by
  unfold Store.lookup
  cases (s.registry r).find? n with
  | some c => exact .ok _
  | none => exact .error rfl

/-! ### Formulas and weight functions -/

theorem Formula.evaluate_clear {env : String → Except (Fault α) (Value α)}
    (h : ∀ n, Clear (env n)) : ∀ body : Formula α, Clear (body.evaluate env)
  | .argument name => h name
  | .constant x => .ok _
  | .unary f x => (Formula.evaluate_clear h x).map _
  | .binary f x y => (Formula.evaluate_clear h x).bind fun u _ =>
      (Formula.evaluate_clear h y).bind fun v _ => by
        unfold Binary.combine
        split
        · exact u.power_clear v
        · exact Value.combine_clear _ u v

theorem Formula.evaluateGiven_clear {env : String → Except (Fault α) (Given α)}
    (h : ∀ n, Clear (env n)) (hg : ∀ n g, env n = .ok g → g.Clear) (body : Formula α) :
    Clear (body.evaluateGiven env) := by
  unfold evaluateGiven
  split
  · exact (h _).bind fun g hn => (hg _ g hn).read
  · exact Formula.evaluate_clear (fun n => (h n).bind fun g hn => (hg n g hn).operand) _

theorem Weight.argument_clear (w : Weight α) (point : List (String × Given α)) (n : String) :
    Clear (w.argument s point n) := by
  unfold Weight.argument
  cases (s.registry w.vars).find? n with
  | some c => exact .ok _
  | none => exact (s.lookup_clear _ _).map _

theorem Decay.weightProduct_clear (point : List (String × Given α)) :
    ∀ (ws : List (Weight α)) (product : Value α), Clear (weightProduct s point ws product)
  | [], product => .ok product
  | w :: rest, product => by
    have hfactor : Clear (w.factor s point) := Formula.evaluate_clear
      (fun n => (w.argument_clear point n).bind fun g _ => g.array_clear) _
    exact hfactor.bind fun v _ => (Value.combine_clear _ product v).bind fun x _ =>
      weightProduct_clear point rest x

/-! ### Amplitudes -/

theorem Amplitude.coefficient_clear (r : RegistryId) (re im : String) :
    Clear (coefficient s r re im) :=
  (s.lookup_clear r re).bind fun x _ => (s.lookup_clear r im).bind fun y _ =>
    (Given.Clear.of_content x).operand.bind fun v _ => v.single?_clear.bind fun _ _ =>
      (Given.Clear.of_content y).operand.bind fun w _ => w.single?_clear.map _

theorem Amplitude.propagator_clear (m width x : Value α) : Clear (propagator m width x) := by
  have hsquare : Clear (massSquare m) := by
    cases m with
    | scalar y =>
      simp only [massSquare]
      cases Scalar.square? y with
      | some z => exact .ok _
      | none => exact .error rfl
    | column ys => exact .ok _
  exact hsquare.bind fun y _ => (Value.combine_clear _ y x).bind fun d _ =>
    (Value.combine_clear _ _ width).bind fun g _ => (Value.combine_clear _ d g).map _

mutual

/-- The value of an amplitude is clear where the point is. -/
theorem Amplitude.evaluate_clear {m12 m13 m23 : Given α} (h12 : m12.Clear) (h13 : m13.Clear)
    (h23 : m23.Clear) : ∀ a : Amplitude α, Clear (a.evaluate s m12 m13 m23)
  | .flat _ z => Value.combine₃_clear _ _ _ _
  | .resonance r mass width channel => by
    have hchannel : (channel.select m12 m13 m23).Clear := by
      cases channel
      · exact h12
      · exact h13
      · exact h23
    exact (s.lookup_clear r mass).bind fun m _ => (s.lookup_clear r width).bind fun g _ =>
      m.given.plain_clear.bind fun v _ => g.given.plain_clear.bind fun w _ =>
        hchannel.read.bind fun x _ => propagator_clear v w x
  | .sum r terms => Amplitude.Terms.evaluate_clear h12 h13 h23 terms r _

theorem Amplitude.Terms.evaluate_clear {m12 m13 m23 : Given α} (h12 : m12.Clear)
    (h13 : m13.Clear) (h23 : m23.Clear) : ∀ (ts : Amplitude.Terms α) (r : RegistryId)
    (total : Value (ComplexNumber α)), Clear (ts.evaluate s r m12 m13 m23 total)
  | .nil, _, total => .ok total
  | .cons re im factor rest, r, total =>
    (Amplitude.coefficient_clear r re im).bind fun _ _ =>
      (Amplitude.evaluate_clear h12 h13 h23 factor).bind fun _ _ =>
        (Value.combine_clear _ total _).bind fun x _ =>
          Amplitude.Terms.evaluate_clear h12 h13 h23 rest r x

end

/-! ### Models -/

theorem Decay.densityAt_clear (d : Decay α) {m12 m13 m23 : Given α} (h12 : m12.Clear)
    (h13 : m13.Clear) (h23 : m23.Clear) : Clear (d.densityAt s m12 m13 m23) := by
  have hweight : Clear (d.weight s m12 m13 m23) := (weightProduct_clear _ d.weights _).map _
  have hintensity : Clear (d.intensity s m12 m13 m23) :=
    (d.amplitude.evaluate_clear h12 h13 h23).bind fun a _ => hweight.bind fun w _ =>
      Value.combine_clear _ _ w
  exact hintensity.map _

/-- **The density of a model is clear** where the point is. -/
theorem Model.density_clear (m : Model α) {point : List (String × Given α)}
    (h : PointClear point) : Clear (m.density s point) := by
  have hmissing : ∀ {δ : Type}, Clear (.error .missingKey : Except (Fault α) δ) :=
    .error rfl
  cases m with
  | gaussian head x mu sigma =>
    simp only [density]
    cases hx : point.lookup x with
    | none => exact hmissing
    | some v =>
      exact (s.lookup_clear _ mu).bind fun mean _ => (s.lookup_clear _ sigma).bind fun width _ =>
        (h.lookup hx).read.bind fun y _ => mean.given.array_clear.bind fun v _ =>
          width.given.array_clear.bind fun w _ => Value.combine₃_clear _ y v w
  | uniform head x lo hi =>
    simp only [density]
    cases hx : point.lookup x with
    | none => exact hmissing
    | some v => exact (h.lookup hx).read.map _
  | formula head body c =>
    refine Formula.evaluateGiven_clear (fun n => ?_) (fun n g hg => ?_) body
    · cases point.lookup n with
      | some v => exact .ok v
      | none => exact (s.lookup_clear _ n).map _
    · cases hn : point.lookup n with
      | some v =>
        rw [hn] at hg
        exact Except.ok.inj hg ▸ h.lookup hn
      | none =>
        rw [hn] at hg
        obtain ⟨v, -, hv⟩ := bind_eq_ok_iff.mp hg
        exact Except.ok.inj hv ▸ Given.Clear.of_content v
  | decay d =>
    simp only [density]
    cases h12 : point.lookup d.role12 with
    | none => exact hmissing
    | some a =>
      cases h13 : point.lookup d.role13 with
      | none => exact hmissing
      | some b =>
        cases h23 : point.lookup d.role23 with
        | none => exact hmissing
        | some c => exact d.densityAt_clear (h.lookup h12) (h.lookup h13) (h.lookup h23)

/-! ### Points -/

omit [Scalar α] in
/-- All that a row or a mapping gives is clear. -/
def Input.Clear : Input α → Prop
  | .row gs => ∀ g ∈ gs, g.Clear
  | .mapping entries => ∀ e ∈ entries, e.2.toGiven.Clear
  | _ => True

omit [Scalar α] in
theorem Input.toSequence_clear {input : Input α} (hinput : input.Clear) :
    DensityAlgebra.Clear input.toSequence ∧
      ∀ gs, input.toSequence = .ok gs → ∀ g ∈ gs, g.Clear := by
  cases input with
  | row gs =>
    refine ⟨.ok _, fun gs' h => ?_⟩
    obtain rfl := Except.ok.inj h
    exact hinput
  | mapping entries =>
    refine ⟨.ok _, fun gs h g hg => ?_⟩
    obtain rfl := Except.ok.inj h
    obtain ⟨e, -, rfl⟩ := List.mem_map.mp hg
    trivial
  | text t =>
    refine ⟨.ok _, fun gs h g hg => ?_⟩
    obtain rfl := Except.ok.inj h
    obtain ⟨c, -, rfl⟩ := List.mem_map.mp hg
    trivial
  | _ => exact ⟨.error rfl, fun gs h => by cases h⟩

omit [Scalar α] in
/-- Finding the point that is given is clear, and so is the point. -/
theorem Model.genericPoint_clear (owner : String) (names : List String) {input : Input α}
    (h : input.Clear) : Clear (genericPoint owner names input) ∧
      ∀ point, genericPoint owner names input = .ok point → PointClear point := by
  have hrow : ∀ input : Input α, input.Clear →
      Clear (do pickSequence owner names (← input.toSequence) : Except (Fault α) _) ∧
        ∀ point, (do pickSequence owner names (← input.toSequence) : Except (Fault α) _) =
          .ok point → PointClear point := by
    intro input hinput
    obtain ⟨hclear, hgiven⟩ := Input.toSequence_clear hinput
    refine ⟨hclear.bind fun gs _ => .ite (.ok _) (.error rfl), fun point hp e he => ?_⟩
    obtain ⟨gs, hgs, hpick⟩ := bind_eq_ok_iff.mp hp
    unfold pickSequence at hpick
    split at hpick
    · obtain rfl := Except.ok.inj hpick
      exact hgiven gs hgs e.2 (List.of_mem_zip he).2
    · cases hpick
  cases input with
  | mapping entries =>
    constructor
    · refine .ite (.mapM fun n _ => ?_) (.error rfl)
      cases entries.lookup n with
      | some e => exact .ok _
      | none => exact .error rfl
    · intro point hp e he
      simp only [genericPoint, pickNamed] at hp
      split at hp
      · obtain ⟨n, -, hn⟩ := mem_of_mapM_eq_ok hp e he
        cases hl : entries.lookup n with
        | some x =>
          rw [hl] at hn
          obtain rfl := Except.ok.inj hn
          obtain ⟨ys, zs, rfl, -⟩ := List.lookup_eq_some_iff.mp hl
          exact h (n, x) (by simp)
        | none =>
          rw [hl] at hn
          cases hn
      · cases hp
  | _ => exact hrow _ h

/-- **A model is clear** where what is given is, and at its current values. -/
theorem Model.evaluate_clear (m : Model α) {input : Input α} (h : input.Clear) :
    Clear (m.evaluate s input) := by
  have hpoint : Clear (m.point s input) ∧ ∀ point, m.point s input = .ok point →
      PointClear point := by
    unfold point
    split
    · rename_i d a b
      obtain ⟨ha, hb⟩ : a.Clear ∧ b.Clear := by simpa [Input.Clear] using h
      have hthird : ∀ v w, Clear (d.third v w) := fun v w =>
        Value.combine_clear _ v w
      refine ⟨ha.operand.bind fun v _ => hb.operand.bind fun w _ => (hthird v w).map _,
        fun point hp e he => ?_⟩
      obtain ⟨v, -, hv⟩ := bind_eq_ok_iff.mp hp
      obtain ⟨w, -, hw⟩ := bind_eq_ok_iff.mp hv
      obtain ⟨c, -, hc⟩ := bind_eq_ok_iff.mp hw
      obtain rfl := Except.ok.inj hc
      simp only [List.mem_cons, List.not_mem_nil, or_false] at he
      rcases he with rfl | rfl | rfl
      · exact ha
      · exact hb
      · trivial
    · exact genericPoint_clear _ _ h
  cases input with
  | nothing =>
    refine m.density_clear fun e he => ?_
    obtain ⟨x, -, rfl⟩ := List.mem_map.mp he
    exact Given.Clear.of_content x.2
  | _ => exact hpoint.1.bind fun point hp => m.density_clear (hpoint.2 point hp)

/-! ### Programs -/

/-- **A whole program is clear** if its leaves are. -/
theorem Program.evaluate_clear {p : Program α} (hp : p.Whole)
    {leaf : Leaf α → Except (Fault α) (Value α)} (h : ∀ l, .leaf l ∈ p → Clear (leaf l)) :
    Clear (p.evaluate leaf) := by
  obtain ⟨t, ht, rfl⟩ := hp
  rw [evaluate, t.replay_spell _ ht]
  refine Tree.induction_on_leaves (motive := fun t => Clear (t.fold (numeric leaf)))
    (fun l hl => hl) (fun op l r hl hr => ?_) (fun op t ht => ht.bind fun x _ => .ok _) h
  refine hl.bind fun x _ => hr.bind fun y _ => ?_
  simp only [numeric]
  split
  · exact x.power_clear y
  · exact Value.combine_clear _ x y

omit [Scalar α] in
theorem Composite.itemAt_clear {δ : Type} (xs : List δ) (i : Int) :
    Clear (itemAt xs i : Except (Fault α) δ) := by
  unfold itemAt
  split
  · exact .ite (.error rfl) (.ok _)
  · exact .error rfl

/-- **A composite whose program is whole is clear** where what is given is, and at its
current values. -/
theorem Composite.evaluate_clear {p : Composite α} (hp : p.program.Whole) {input : Input α}
    (h : input.Clear) : Clear (p.evaluate s input) := by
  have hpoint : Clear (p.point s input) ∧ ∀ point, p.point s input = .ok point →
      ∀ pt, point = some pt → PointClear pt := by
    obtain ⟨hclear, hgiven⟩ := Model.genericPoint_clear "Pdf" (p.varNames s) h
    cases input with
    | nothing =>
      refine ⟨.ok _, fun point hpt pt hsome => ?_⟩
      obtain rfl := Except.ok.inj hpt
      cases hsome
    | _ =>
      refine ⟨hclear.map _, fun point hpt pt hsome => ?_⟩
      obtain ⟨x, hx, hxs⟩ := bind_eq_ok_iff.mp hpt
      obtain rfl := Except.ok.inj hxs
      exact Option.some.inj hsome ▸ hgiven x hx
  refine hpoint.1.bind fun point hpt => Program.evaluate_clear hp fun l _ => ?_
  cases l with
  | model i =>
    refine (itemAt_clear p.models i).bind fun m _ => ?_
    cases point with
    | none =>
      have hnow : (Input.nothing : Input α).Clear := trivial
      exact m.evaluate_clear hnow
    | some pt =>
      have hpt' := hpoint.2 _ hpt pt rfl
      refine Clear.bind (.mapM fun n _ => ?_) fun own hown => m.density_clear fun e he => ?_
      · cases pt.lookup n with
        | some v => exact .ok _
        | none => exact .error rfl
      · obtain ⟨n, -, hn⟩ := mem_of_mapM_eq_ok hown e he
        cases hl : pt.lookup n with
        | some v =>
          rw [hl] at hn
          obtain rfl := Except.ok.inj hn
          exact hpt'.lookup hl
        | none =>
          rw [hl] at hn
          cases hn
  | parameter name =>
    exact (s.lookup_clear _ name).bind fun v _ => (Given.Clear.of_content v).operand
  | constant x => exact .ok _

end

end DensityAlgebra
