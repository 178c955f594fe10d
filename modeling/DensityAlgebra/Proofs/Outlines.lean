/-
# Outlines

What a density says, apart from how its models look inside: a program over numbered
models, how many models there are, the names of the variables, and the values of the
parameters. Factors have an outline as well; they are over no models. Two outlines are
linked by numbering the models of the second one on after those of the first; where
both have a parameter of one name, the value of the first one counts.

An outline is closed if its program is about its own models and parameters. What is
linked from closed outlines is closed, and so is what arithmetic makes of parameters and
numbers.

Key definitions: `Outline`, `Outline.append`, `Outline.extended`, `Outline.Closed`,
`Composite.outline`, `Operand.outline`, `Expression.Arithmetic`, `Expression.From`.
Key theorems: `Program.Whole.join`, `Outline.extended_of_nonempty`, `Outline.Closed.extended`,
`Operand.outline_cases`, `Expression.Arithmetic.combine`, `Operand.Closed.outline`,
`Operand.outline_of_within`.
-/
import DensityAlgebra.Proofs.Makings
import DensityAlgebra.Proofs.Parsing

namespace DensityAlgebra

variable {α : Type}

/-! ### Numbering models on -/

/-- The leaf where `k` models come first. -/
def Leaf.shift (k : Nat) : Leaf α → Leaf α
  | .model i => .model (i + k)
  | l => l

/-- The leaf is one of `n` models, a parameter whose name is known, or a number. -/
def Leaf.Among (n : Nat) (known : String → Prop) : Leaf α → Prop
  | .model i => 0 ≤ i ∧ i < n
  | .parameter name => known name
  | .constant _ => True

theorem Leaf.Among.mono {n m : Nat} {known known' : String → Prop} {l : Leaf α}
    (h : l.Among n known) (hn : n ≤ m) (hk : ∀ name, known name → known' name) :
    l.Among m known' := by
  cases l with
  | model i =>
    obtain ⟨h0, hi⟩ := h
    exact ⟨h0, by omega⟩
  | parameter name => exact hk name h
  | constant x => trivial

theorem Leaf.Among.shift {n : Nat} {known : String → Prop} {l : Leaf α} (h : l.Among n known)
    (k : Nat) : (l.shift k).Among (k + n) known := by
  cases l with
  | model i =>
    obtain ⟨h0, hi⟩ := h
    simp only [Leaf.shift, Among]
    omega
  | parameter name => exact h
  | constant x => trivial

/-- Where there are no models, there is nothing to number. -/
theorem Leaf.Among.shift_eq {known : String → Prop} {l : Leaf α} (h : l.Among 0 known) (k : Nat) :
    l.shift k = l := by
  cases l with
  | model i =>
    obtain ⟨h0, hi⟩ := h
    exact absurd hi (by simpa using h0)
  | _ => rfl

theorem Leaf.shift_zero (l : Leaf α) : l.shift 0 = l := by
  cases l with
  | model i => exact congrArg Leaf.model (Int.add_zero i)
  | _ => rfl

/-- The node where `k` models come first. -/
def Node.shift (k : Nat) : Node α → Node α
  | .leaf l => .leaf (l.shift k)
  | node => node

namespace Tree

/-- The tree where `k` models come first. -/
def shift (k : Nat) : Tree α → Tree α
  | leaf l => leaf (l.shift k)
  | binary op l r => binary op (l.shift k) (r.shift k)
  | unary op t => unary op (t.shift k)

theorem WellTyped.shift {t : Tree α} (h : t.WellTyped) (k : Nat) : (t.shift k).WellTyped := by
  induction t with
  | leaf l => trivial
  | binary op l r ihl ihr => exact ⟨h.1, ihl h.2.1, ihr h.2.2⟩
  | unary op t ih => exact ⟨h.1, ih h.2⟩

theorem spell_shift (t : Tree α) (k : Nat) : (t.shift k).spell = t.spell.shiftModels k := by
  induction t with
  | leaf l => cases l <;> rfl
  | binary op l r ihl ihr =>
    simp only [shift, spell, ihl, ihr, Program.shiftModels, List.map_append]
    rfl
  | unary op t ih =>
    simp only [shift, spell, ih, Program.shiftModels, List.map_append]
    rfl

end Tree

namespace Program

theorem shiftModels_eq_map (p : Program α) (k : Nat) :
    p.shiftModels k = p.map (Node.shift k) := by
  refine List.map_congr_left fun node _ => ?_
  rcases node with (l | _ | _) | _ | _ | _ <;> rfl

theorem mem_shiftModels {p : Program α} {k : Nat} {l : Leaf α} :
    .leaf l ∈ p.shiftModels k ↔ ∃ l', .leaf l' ∈ p ∧ l = l'.shift k := by
  rw [shiftModels_eq_map, List.mem_map]
  constructor
  · rintro ⟨node, hn, heq⟩
    cases node with
    | leaf l' => exact ⟨l', hn, (Node.leaf.inj heq).symm⟩
    | _ => cases heq
  · rintro ⟨l', hl, rfl⟩
    exact ⟨.leaf l', hl, rfl⟩

/-- A program whose leaves stay as they are stays as it is. -/
theorem shiftModels_eq_self {p : Program α} {k : Nat}
    (h : ∀ l, .leaf l ∈ p → l.shift k = l) : p.shiftModels k = p := by
  rw [shiftModels_eq_map]
  refine (List.map_congr_left fun node hn => ?_).trans (List.map_id p)
  cases node with
  | leaf l => exact congrArg Node.leaf (h l hn)
  | _ => rfl

/-- A program numbered on spells a tree as before. -/
theorem Whole.shift {p : Program α} (h : p.Whole) (k : Nat) : (p.shiftModels k).Whole := by
  obtain ⟨t, typed, rfl⟩ := h
  exact ⟨t.shift k, typed.shift k, t.spell_shift k⟩

/-- Two whole programs with an operator behind them are a whole program. -/
theorem Whole.join {p q : Program α} {op : Operation} (hp : p.Whole) (hq : q.Whole)
    (hop : op.isBinary = true) : Whole (p ++ q ++ [.binary op]) := by
  obtain ⟨t, ht, rfl⟩ := hp
  obtain ⟨u, hu, rfl⟩ := hq
  exact ⟨.binary op t u, ⟨hop, ht, hu⟩, rfl⟩

theorem Whole.apply {p : Program α} {op : Operation} (hp : p.Whole) (hop : op.isBinary = false) :
    Whole (p ++ [.unary op]) := by
  obtain ⟨t, ht, rfl⟩ := hp
  exact ⟨.unary op t, ⟨hop, ht⟩, rfl⟩

theorem whole_leaf (l : Leaf α) : Whole [.leaf l] := ⟨.leaf l, trivial, rfl⟩

theorem Whole.ne_nil {p : Program α} (h : p.Whole) : p ≠ [] := by
  obtain ⟨t, -, rfl⟩ := h
  cases t <;> simp [Tree.spell]

end Program

/-! ### Outlines -/

/-- A program over numbered models, how many they are, the names of variables, and the
values of parameters. -/
@[ext]
structure Outline (α : Type) where
  program : Program α
  count : Nat
  vars : Set String
  pars : String → Option (Content α)

namespace Outline

/-- Nothing at all. -/
def empty : Outline α := ⟨[], 0, ∅, fun _ => none⟩

/-- The second outline after the first one; the parameters of the first one count. -/
def append (o o' : Outline α) : Outline α where
  program := o.program ++ o'.program.shiftModels o.count
  count := o.count + o'.count
  vars := o.vars ∪ o'.vars
  pars n := (o.pars n).or (o'.pars n)

/-- The outline with an operation behind it. -/
def operated (o : Outline α) (op : Operation) : Outline α :=
  { o with program := o.program ++ [.binary op] }

/-- What becomes of an outline when another one is joined to it by an operation: where
there was no program, only the other one. -/
def extended (op : Operation) (o o' : Outline α) : Outline α :=
  if o.program.isEmpty then o.append o' else (o.append o').operated op

/-- Every model of the program is there, and every parameter has a value. -/
def Closed (o : Outline α) : Prop :=
  ∀ l, .leaf l ∈ o.program → l.Among o.count fun n => (o.pars n).isSome = true

theorem empty_append (o : Outline α) : empty.append o = o := by
  have hprogram : o.program.shiftModels 0 = o.program :=
    Program.shiftModels_eq_self fun l _ => l.shift_zero
  simp [append, empty, hprogram]

theorem extended_of_empty {o o' : Outline α} {op : Operation} (h : o.program = []) :
    extended op o o' = o.append o' := by
  simp [extended, h]

theorem extended_of_nonempty {o o' : Outline α} {op : Operation} (h : o.program ≠ []) :
    extended op o o' = (o.append o').operated op := by
  simp [extended, h]

/-- What is joined of a program is a program. -/
theorem extended_ne_nil {o o' : Outline α} {op : Operation}
    (h : o.program ≠ [] ∨ o'.program ≠ []) : (extended op o o').program ≠ [] := by
  by_cases ho : o.program = []
  · have ho' : o'.program ≠ [] := h.resolve_left (not_not_intro ho)
    rw [extended_of_empty ho]
    simpa [append, ho, Program.shiftModels] using ho'
  · rw [extended_of_nonempty ho]
    simp [operated]

theorem closed_empty : (empty : Outline α).Closed := fun _ h => absurd h List.not_mem_nil

theorem Closed.append {o o' : Outline α} (h : o.Closed) (h' : o'.Closed) :
    (o.append o').Closed := by
  intro l hl
  rcases List.mem_append.mp hl with hl | hl
  · refine (h l hl).mono (Nat.le_add_right _ _) fun n hn => ?_
    simp [Outline.append, hn]
  · obtain ⟨l', hl', rfl⟩ := Program.mem_shiftModels.mp hl
    refine ((h' l' hl').shift o.count).mono le_rfl fun n hn => ?_
    simp [Outline.append, hn]

theorem Closed.operated {o : Outline α} (h : o.Closed) (op : Operation) :
    (o.operated op).Closed := by
  intro l hl
  rcases List.mem_append.mp hl with hl | hl
  · exact h l hl
  · simp at hl

/-- **What is joined from closed outlines is closed.** -/
theorem Closed.extended {o o' : Outline α} (h : o.Closed) (h' : o'.Closed) (op : Operation) :
    (extended op o o').Closed := by
  unfold Outline.extended
  split
  · exact h.append h'
  · exact (h.append h').operated op

end Outline

/-! ### Outlines of operands -/

variable [Scalar α]

def Expression.outline (s : Store α) (e : Expression α) : Outline α where
  program := e.program
  count := 0
  vars := ∅
  pars n := (e.pars.find? n).map fun c => (s.cell c).value

def Model.outline (s : Store α) (m : Model α) : Outline α where
  program := [.leaf (.model 0)]
  count := 1
  vars := {n | n ∈ (s.registry m.head.vars).names}
  pars := s.value? m.head.pars

def Composite.outline (s : Store α) (p : Composite α) : Outline α where
  program := p.program
  count := p.models.length
  vars := {n | n ∈ (s.registry p.vars).names}
  pars := s.value? p.pars

def Density.outline (s : Store α) : Density α → Outline α
  | .model m => m.outline s
  | .composite p => p.outline s

/-- What stands beside an operator: a density, a factor as an expression, or an operation. -/
def Operand.outline (s : Store α) : Operand α → Outline α
  | .model m => m.outline s
  | .composite p => p.outline s
  | .operation op => Outline.empty.operated op
  | x => (x.lift? s).elim .empty (Expression.outline s)

theorem Operand.outline_of_density {x : Operand α} {d : Density α} (s : Store α)
    (h : x.density? = some d) : x.outline s = d.outline s := by
  cases x with
  | model m =>
    obtain rfl := Option.some.inj h
    rfl
  | composite p =>
    obtain rfl := Option.some.inj h
    rfl
  | _ => cases h

theorem Operand.outline_of_lift? {s : Store α} {x : Operand α} {e : Expression α}
    (h : x.lift? s = some e) : x.outline s = e.outline s := by
  rcases lift?_cases h with ⟨c, rfl, rfl⟩ | rfl | ⟨d, y, rfl, hy, rfl⟩
  · rfl
  · rfl
  · simp [outline, lift?, hy]

/-- A density, or an operation, a factor or nothing that counts, without models. -/
theorem Operand.outline_cases (s : Store α) (x : Operand α) :
    (∃ d, x.density? = some d ∧ x.models = d.models ∧ x.outline s = d.outline s) ∨
    x.models = [] ∧
      ((∃ op, x = .operation op ∧ x.outline s = Outline.empty.operated op) ∨
      (∃ e, x.lift? s = some e ∧ x.outline s = e.outline s) ∨ x.outline s = .empty) := by
  cases x with
  | model m => exact .inl ⟨_, rfl, rfl, rfl⟩
  | composite p => exact .inl ⟨_, rfl, rfl, rfl⟩
  | operation op => exact .inr ⟨rfl, .inl ⟨op, rfl, rfl⟩⟩
  | parameter c => exact .inr ⟨rfl, .inr (.inl ⟨_, rfl, rfl⟩)⟩
  | expression e => exact .inr ⟨rfl, .inr (.inl ⟨e, rfl, rfl⟩)⟩
  | plain d =>
    refine .inr ⟨rfl, .inr ?_⟩
    cases he : (plain d : Operand α).lift? s with
    | none =>
      refine .inr ?_
      show ((plain d : Operand α).lift? s).elim .empty (Expression.outline s) = _
      rw [he]
      rfl
    | some e => exact .inl ⟨e, rfl, outline_of_lift? he⟩
  | weight w => exact .inr ⟨rfl, .inr (.inr rfl)⟩
  | other k => exact .inr ⟨rfl, .inr (.inr rfl)⟩

theorem Operand.mem_outline_vars {s : Store α} {x : Operand α} {n : String} :
    n ∈ (x.outline s).vars ↔ n ∈ Composite.varNamesOf s x := by
  have hfactor : n ∈ ((x.lift? s).elim .empty (Expression.outline s)).vars ↔ n ∈ [] := by
    cases x.lift? s <;> simp [Outline.empty, Expression.outline]
  cases x with
  | model m => exact Registry.mem_sortNames.symm
  | composite p => exact Registry.mem_sortNames.symm
  | operation op => simp [Operand.outline, Outline.operated, Outline.empty, Composite.varNamesOf]
  | _ => exact hfactor

omit [Scalar α] in
/-- The expression is one that arithmetic builds: a whole program over its own parameters
and numbers. -/
def Expression.Arithmetic (e : Expression α) : Prop :=
  e.program.Whole ∧ ∀ l, .leaf l ∈ e.program → l.Among 0 (· ∈ e.pars.names)

/-- The leaves of an operand are its own; an expression is arithmetic. -/
def Operand.Closed (s : Store α) : Operand α → Prop
  | .composite p => (p.outline s).Closed
  | .expression e => e.Arithmetic
  | _ => True

omit [Scalar α] in
theorem Expression.ofParameter_arithmetic (name : String) (c : CellId) :
    (ofParameter name c : Expression α).Arithmetic := by
  refine ⟨Program.whole_leaf _, fun l hl => ?_⟩
  obtain rfl : l = .parameter name := by simpa [ofParameter] using hl
  simp [Leaf.Among, ofParameter, Registry.names]

omit [Scalar α] in
theorem Expression.ofNumber_arithmetic (x : α) : (ofNumber x : Expression α).Arithmetic := by
  refine ⟨Program.whole_leaf _, fun l hl => ?_⟩
  obtain rfl : l = .constant x := by simpa [ofNumber] using hl
  trivial

omit [Scalar α] in
/-- **Arithmetic stays arithmetic** when two expressions are combined. -/
theorem Expression.Arithmetic.combine {e e' : Expression α} {op : Operation} (h : e.Arithmetic)
    (h' : e'.Arithmetic) (hop : op.isBinary = true) : (Expression.combine op e e').Arithmetic := by
  have hnames : ∀ n, n ∈ (Registry.update e'.pars e.pars).names ↔
      n ∈ e'.pars.names ∨ n ∈ e.pars.names := fun n =>
    Registry.mem_names_update e.pars.entries e'.pars n
  refine ⟨h.1.join h'.1 hop, fun l hl => ?_⟩
  simp only [Expression.combine, List.mem_append, List.mem_singleton, reduceCtorEq, or_false] at hl
  rcases hl with hl | hl
  · exact (h.2 l hl).mono le_rfl fun n hn => (hnames n).mpr (.inr hn)
  · exact (h'.2 l hl).mono le_rfl fun n hn => (hnames n).mpr (.inl hn)

omit [Scalar α] in
/-- A unary operation behind arithmetic leaves arithmetic. -/
theorem Expression.Arithmetic.unary {e : Expression α} {op : Operation} (h : e.Arithmetic)
    (hop : op.isBinary = false) : Arithmetic ⟨e.program ++ [.unary op], e.pars⟩ :=
  ⟨h.1.apply hop, fun l hl => h.2 l (by simpa using hl)⟩

omit [Scalar α] in
theorem Expression.Arithmetic.negate {e : Expression α} (h : e.Arithmetic) :
    e.negate.Arithmetic := h.unary rfl

omit [Scalar α] in
theorem Expression.Arithmetic.rename {e : Expression α} (h : e.Arithmetic) (g : CellId → CellId) :
    ({ e with pars := e.pars.rename g } : Expression α).Arithmetic :=
  ⟨h.1, fun l hl => (h.2 l hl).mono le_rfl fun n hn => by simpa using hn⟩

/-- What operators make of given expressions, of parameters and of numbers, and copies of
that. -/
inductive Expression.From (given : Set (Expression α)) : Expression α → Prop
  | given {e : Expression α} (mem : e ∈ given) : From given e
  | parameter (name : String) (c : CellId) : From given (.ofParameter name c)
  | number (x : α) : From given (.ofNumber x)
  | combine {op : Operation} {e e' : Expression α} (binary : op.isBinary = true)
      (left : From given e) (right : From given e') : From given (.combine op e e')
  | negate {e : Expression α} (arg : From given e) : From given e.negate
  | copied {e : Expression α} (original : From given e) (g : CellId → CellId) :
      From given { e with pars := e.pars.rename g }

namespace Expression.From

variable {given given' : Set (Expression α)} {e : Expression α}

omit [Scalar α] in
theorem mono (h : e.From given) (hsub : given ⊆ given') : e.From given' := by
  induction h with
  | given mem => exact .given (hsub mem)
  | parameter name c => exact .parameter name c
  | number x => exact .number x
  | combine binary _ _ ihl ihr => exact .combine binary ihl ihr
  | negate _ ih => exact .negate ih
  | copied _ g ih => exact .copied ih g

omit [Scalar α] in
/-- What is made of arithmetic is arithmetic. -/
theorem arithmetic (h : e.From given) (hgiven : ∀ e ∈ given, e.Arithmetic) : e.Arithmetic := by
  induction h with
  | given mem => exact hgiven _ mem
  | parameter name c => exact ofParameter_arithmetic name c
  | number x => exact ofNumber_arithmetic x
  | combine binary _ _ ihl ihr => exact ihl.combine ihr binary
  | negate _ ih => exact ih.negate
  | copied _ g ih => exact ih.rename g

end Expression.From

/-- The expressions among operands. -/
def Operand.expressions (xs : List (Operand α)) : Set (Expression α) := {e | .expression e ∈ xs}

/-- A factor as an expression is made of the expressions among the operands. -/
theorem Operand.lift?_from {s : Store α} {x : Operand α} {xs : List (Operand α)} (hx : x ∈ xs)
    {e : Expression α} (he : x.lift? s = some e) : e.From (expressions xs) := by
  rcases lift?_cases he with ⟨c, rfl, rfl⟩ | rfl | ⟨d, y, rfl, -, rfl⟩
  · exact .parameter _ _
  · exact .given hx
  · exact .number y

/-- A closed factor is arithmetic as an expression. -/
theorem Operand.Closed.lift? {s : Store α} {x : Operand α} (h : x.Closed s) {e : Expression α}
    (he : x.lift? s = some e) : e.Arithmetic := by
  refine (lift?_from (List.mem_singleton_self x) he).arithmetic fun e' he' => ?_
  obtain rfl : .expression e' = x := List.mem_singleton.mp he'
  exact h

theorem Expression.Arithmetic.outline {e : Expression α} (h : e.Arithmetic) (s : Store α) :
    (e.outline s).Closed := by
  intro l hl
  refine (h.2 l hl).mono le_rfl fun n hn => ?_
  obtain ⟨c, hc⟩ := Registry.find?_eq_some_of_mem hn
  simp [Expression.outline, hc]

theorem Model.outline_closed (s : Store α) (m : Model α) : (m.outline s).Closed := by
  intro l hl
  obtain rfl : l = .model 0 := by simpa [Model.outline] using hl
  simp [Leaf.Among, Model.outline]

/-- A closed operand has a closed outline. -/
theorem Operand.Closed.outline {s : Store α} {x : Operand α} (h : x.Closed s) :
    (x.outline s).Closed := by
  have hlift : ((x.lift? s).elim .empty (Expression.outline s)).Closed := by
    cases he : x.lift? s with
    | none => exact Outline.closed_empty
    | some e => exact (h.lift? he).outline s
  cases x with
  | model m => exact m.outline_closed s
  | composite p => exact h
  | operation op => exact Outline.closed_empty.operated op
  | _ => exact hlift

omit [Scalar α] in
/-- A factor that arithmetic builds has no models to number. -/
theorem Expression.Arithmetic.shiftModels {e : Expression α} (h : e.Arithmetic) (k : Nat) :
    e.program.shiftModels k = e.program :=
  Program.shiftModels_eq_self fun l hl => (h.2 l hl).shift_eq k

/-! ### Outlines in a later store -/

section

variable {s t : Store α}

theorem Expression.outline_of_within {e : Expression α} (h : Store.Within ∅ ∅ s t)
    (he : s.Holds e.pars) : e.outline t = e.outline s := by
  unfold Expression.outline
  congr 1
  funext n
  cases hc : e.pars.find? n with
  | none => rfl
  | some c =>
    simp only [Option.map_some]
    rw [h.cells c (he.find?_bounded hc) (Set.notMem_empty _)]

/-- The outline of a density is as it was where the old store was left alone. -/
theorem Density.outline_of_within {d : Density α} (hs : s.Sound) (h : Store.Within ∅ ∅ s t)
    (hd : d.Valid s) : d.outline t = d.outline s := by
  have hpars : t.value? d.pars = s.value? d.pars := funext fun n =>
    h.value?_eq hs hd.pars_bounded fun _ _ => Set.notMem_empty _
  have hvars : t.registry d.vars = s.registry d.vars := h.registries _ hd.vars_bounded
  cases d with
  | model m =>
    show Outline.mk _ _ {n | n ∈ (t.registry m.head.vars).names} (t.value? m.head.pars) = _
    rw [show t.registry m.head.vars = s.registry m.head.vars from hvars,
      show t.value? m.head.pars = s.value? m.head.pars from hpars]
    rfl
  | composite p =>
    show Outline.mk _ _ {n | n ∈ (t.registry p.vars).names} (t.value? p.pars) = _
    rw [show t.registry p.vars = s.registry p.vars from hvars,
      show t.value? p.pars = s.value? p.pars from hpars]
    rfl

/-- So is the outline of an operand. -/
theorem Operand.outline_of_within {x : Operand α} (hs : s.Sound) (h : Store.Within ∅ ∅ s t)
    (hx : x.Valid s) : x.outline t = x.outline s := by
  cases x with
  | model m => exact Density.outline_of_within (d := .model m) hs h hx
  | composite p => exact Density.outline_of_within (d := .composite p) hs h hx
  | expression e => exact Expression.outline_of_within h hx
  | parameter c =>
    have hc : t.cell c = s.cell c := h.cells c hx (Set.notMem_empty _)
    have hlift : Operand.lift? t (.parameter c) = Operand.lift? s (.parameter c) := by
      simp only [Operand.lift?, hc]
    have hholds : s.Holds (Expression.ofParameter (α := α) (s.cell c).name c).pars :=
      Operand.lift?_holds (x := .parameter c) hx rfl
    show Expression.outline t (.ofParameter (t.cell c).name c) = _
    rw [hc]
    exact Expression.outline_of_within h hholds
  | plain d =>
    show ((d.number?.map Expression.ofNumber).elim .empty (Expression.outline t)) = _
    cases hn : d.number? with
    | none => simp [Operand.outline, Operand.lift?, hn]
    | some y =>
      simp only [Option.map_some, Option.elim_some, Operand.outline, Operand.lift?, hn]
      exact Expression.outline_of_within h (Store.holds_empty s)
  | _ => rfl

/-- What is closed stays so. -/
theorem Operand.Closed.of_within {x : Operand α} (h : x.Closed s) (hs : s.Sound)
    (hst : Store.Within ∅ ∅ s t) (hx : x.Valid s) : x.Closed t := by
  cases x with
  | composite p =>
    show (p.outline t).Closed
    rw [show p.outline t = p.outline s from
      Density.outline_of_within (d := .composite p) hs hst hx]
    exact h
  | expression e => exact h
  | _ => trivial

end

end DensityAlgebra
