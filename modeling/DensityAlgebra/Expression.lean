/-
# Parameter expressions

Arithmetic over parameters and numbers builds an expression: a post-order
program together with the cells of the parameters that it names. Where both
operands name the same parameter, the cell of the left operand is kept, so an
expression has one cell per name.

Key definitions: `Expression`, `Expression.ofParameter`, `Expression.combine`,
`Expression.apply`, `Expression.value`, `Expression.render`.
-/
import DensityAlgebra.Program
import DensityAlgebra.Store

namespace DensityAlgebra

/-- A program over parameters and numbers, with the cells of the parameters. -/
structure Expression (α : Type) where
  program : Program α
  pars : Registry

namespace Expression

variable {α : Type}

/-- The expression of one number. -/
def ofNumber (x : α) : Expression α := ⟨[.leaf (.constant x)], .empty⟩

/-- The expression of one parameter. -/
def ofParameter (name : String) (c : CellId) : Expression α :=
  ⟨[.leaf (.parameter name)], ⟨[(name, c)]⟩⟩

/-- Two expressions joined by an operation; the left cells win. -/
def combine (op : Operation) (left right : Expression α) : Expression α :=
  ⟨left.program ++ right.program ++ [.binary op], right.pars.update left.pars⟩

/-- A unary operation on an expression. -/
def apply (op : Operation) (e : Expression α) : Except (Fault α) (Expression α) :=
  if op.isBinary then .error (.notUnary op)
  else .ok ⟨e.program ++ [.unary op], e.pars⟩

/-- The minus in front of an expression. -/
def negate (e : Expression α) : Expression α := ⟨e.program ++ [.unary .neg], e.pars⟩

variable [Scalar α]

/-- What a leaf stands for; only parameters and numbers stand for something. -/
def leafValue (s : Store α) (pars : Registry) : Leaf α → Except (Fault α) (Value α)
  | .parameter name =>
    match pars.find? name with
    | some c => (s.cell c).value.given.operand
    | none => .error .missingKey
  | .constant x => .ok (.scalar x)
  | .model i => .error (.foreignLeaf (.model i))

/-- The value of an expression at the current values of its cells. -/
def value (s : Store α) (e : Expression α) : Except (Fault α) (Value α) :=
  e.program.evaluate (leafValue s e.pars)

/-- The text of a leaf, given that of a number. -/
def leafText (number : α → String) : Leaf α → String
  | .parameter name => name
  | .constant x => number x
  | .model _ => "?"

/-- The infix text of an expression. -/
def render (number : α → String) (e : Expression α) : Except (Fault α) String :=
  e.program.render (leafText number)

end Expression

end DensityAlgebra
