/-
# Operators between operands

What an arithmetic operator between two operands builds. Parameters and numbers
make parameter expressions; densities add up and multiply, and a factor scales a
density from either side or divides it. A weight function multiplies a decay
density from either side. Plain data have their own arithmetic. Everything else is
unsupported.

A model is turned into a composite before the other operand is looked at, so
trying an operator on a decay density takes a child of its random source even if
the operation is then refused. A parameter on the right makes a model try once
more with the parameter as an expression.

Key definitions: `Operand.lift?`, `Operand.combineSymbolic`, `Operand.apply`,
`Operand.negate`.
-/
import DensityAlgebra.Datum.Arithmetic
import DensityAlgebra.Density
import DensityAlgebra.Decay.Build

namespace DensityAlgebra.Operand

variable {α : Type} [Scalar α]

/-- A factor as an expression; a number has to be in reach. -/
def lift? (s : Store α) : Operand α → Option (Expression α)
  | parameter c => some (.ofParameter (s.cell c).name c)
  | expression e => some e
  | plain d => d.number?.map .ofNumber
  | _ => none

/-- A factor as an expression; anything else is refused. -/
def lift (x : Operand α) : Run α (Expression α) := do
  match x.lift? (← get) with
  | some e => return e
  | none => throw (if x.isFactor then .overflow else .cannotLift x.kindName)

/-- Whether the operand has parameter arithmetic of its own. -/
def isSymbolic : Operand α → Bool
  | parameter _ | expression _ => true
  | _ => false

/-- A composite with an operator and an operand on its right; nothing if the
operator is not one of composites. -/
def applyComposite (p : Composite α) (op : Operation) (x : Operand α) :
    Run α (Option (Composite α)) := do
  match op with
  | .plus => if x.isDensity then return some (← p.withSum x) else return none
  | .mult =>
    if x.isDensity then return some (← p.withProduct x)
    else if x.isFactor then return some (← p.withScale x)
    else return none
  | .div => if x.isFactor then return some (← p.withDivision x) else return none
  | _ => return none

/-- Whether models have the operator. -/
def modelHas : Operation → Bool
  | .plus | .mult | .div => true
  | _ => false

/-- A model with an operator and an operand on its right. -/
def applyModel (m : Model α) (op : Operation) (x : Operand α) : Run α (Option (Operand α)) := do
  match m, op, x with
  | .decay d, .mult, .weight w => return some (.model (.decay (← d.withWeight w)))
  | m, op, x =>
    if modelHas op then
      return (← applyComposite (← Composite.ofOperand (.model m)) op x).map .composite
    else return none

/-- An operand that has parameter arithmetic of its own, as an expression. -/
def symbolic? (s : Store α) (x : Operand α) : Option (Expression α) :=
  if x.isSymbolic then x.lift? s else none

/-- An expression with an operator and another factor on its right or, reflected, on its
left; nothing if the other operand is no factor in reach. -/
def joinFactor (s : Store α) (op : Operation) (reflected : Bool) (e : Expression α)
    (other : Operand α) : Option (Expression α) := do
  let e' ← other.lift? s
  let (left, right) := if reflected then (e', e) else (e, e')
  return .combine op left right

/-- What an operator makes of two operands that are no densities, if one of them is a
parameter or an expression: the left one is asked first, and then, reflected, the right
one. A number out of reach is the only factor that cannot be joined. -/
def combineSymbolic (s : Store α) (op : Operation) (l r : Operand α) : Run α (Operand α) :=
  let direct := do joinFactor s op false (← l.symbolic? s) r
  let reflected := do joinFactor s op true (← r.symbolic? s) l
  match direct.or reflected with
  | some e => return .expression e
  | none => throw (if l.isFactor && r.isFactor then .overflow else .unsupportedOperands)

/-- What an operator makes of two operands. -/
def apply (op : Operation) (l r : Operand α) : Run α (Operand α) := do
  let s ← get
  match l, r with
  | .model m, r =>
    match ← applyModel m op r with
    | some out => return out
    | none =>
      match r with
      | .parameter c =>
        let e := Expression.ofParameter (s.cell c).name c
        match ← applyModel m op (.expression e) with
        | some out => return out
        | none => throw .unsupportedOperands
      | _ => throw .unsupportedOperands
  | .composite p, r =>
    match ← applyComposite p op r with
    | some out => return .composite out
    | none => throw .unsupportedOperands
  | l, .model m =>
    match l, m, op with
    | .weight w, .decay d, .mult => return .model (.decay (← d.withWeight w))
    | l, m, .mult =>
      let p ← Composite.ofOperand (.model m)
      if l.isFactor then return .composite (← p.withScale l) else throw .unsupportedOperands
    | _, _, _ => throw .unsupportedOperands
  | l, .composite p =>
    if op = .mult ∧ l.isFactor then return .composite (← p.withScale l)
    else throw .unsupportedOperands
  | .plain a, .plain b => return .plain (← Run.reading fun _ => a.combine op b)
  | l, r => combineSymbolic s op l r

/-- What a minus in front makes of an operand. -/
def negate (x : Operand α) : Run α (Operand α) := do
  match x with
  | .plain d => return .plain (← Run.reading fun _ => d.negate)
  | x =>
    if x.isSymbolic then return .expression (← lift x).negate
    else throw .unsupportedOperands

end DensityAlgebra.Operand
