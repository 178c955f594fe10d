/-
# What is given for a variable

What is given for a variable comes in forms that are looked at only where a number is
needed: a value, an expression, a plain datum, or an object of another kind. An
expression is known by what it evaluates to. A datum that is a real number in reach is
given as its value, and any other datum as it is.

The forms are read in five ways, as strict as the place that reads them: as one
number, which a text may spell; as numbers, for which a row of them will do as well;
as an operand of a formula, where an expression counts by its number; in arithmetic on
columns; and in arithmetic on numbers.

A cell holds whatever it was given. Of an expression or another object only the number
that it has is known then, if it has one.

Key definitions: `Given`, `Given.single`, `Given.read`, `Given.operand`,
`Given.array`, `Given.plain`, `Given.extent`, `Formula.evaluateGiven`, `Content`,
`Content.given`, `Content.error?`.
-/
import DensityAlgebra.Datum.Conversion
import DensityAlgebra.Formula

namespace DensityAlgebra

/-- What is given for a variable. -/
inductive Given (α : Type) where
  | value (v : Value α)
  | expression (v : Except (Fault α) (Value α))
  | datum (d : Datum α)
  | object

namespace Given

variable {α : Type}

/-- The single number that an expression has. -/
def number (v : Except (Fault α) (Value α)) : Except (Fault α) (Value α) := do
  return .scalar (← (← v).single?)

variable [Scalar α]

/-- What a plain datum gives: its number, or the datum if it is none in reach. -/
def ofDatum (d : Datum α) : Given α := d.number?.elim (datum d) fun x => value (.scalar x)

/-- The value where one number is needed. -/
def single : Given α → Except (Fault α) α
  | value v => v.single?
  | expression v => do (← v).single?
  | datum d => d.toNumber
  | object => .error .notANumber

/-- The value where numbers are computed with one by one. -/
def plain : Given α → Except (Fault α) (Value α)
  | value v => .ok v
  | datum d => do return .scalar (← d.toReal)
  | expression _ | object => .error .notANumber

/-- The value where columns are computed with; a row of real numbers is one. -/
def array : Given α → Except (Fault α) (Value α)
  | datum (.list items) => do return .column (← items.toList.mapM Datum.toReal)
  | g => g.plain

/-- The value as an operand of a formula. -/
def operand : Given α → Except (Fault α) (Value α)
  | expression v => number v
  | g => g.array

/-- A datum where numbers are asked for; nothing stands for an undefined one. -/
def readDatum : Datum α → Except (Fault α) α
  | .nothing => .ok Scalar.undefined
  | d => d.toNumber

/-- The value where numbers are asked for. -/
def read : Given α → Except (Fault α) (Value α)
  | datum (.list items) => do return .column (← items.toList.mapM readDatum)
  | datum d => do return .scalar (← readDatum d)
  | g => g.operand

/-- How many entries there are, or that a single thing is given. -/
def extent : Given α → Value Unit
  | value v => v.map fun _ => ()
  | datum (.list items) => .column (items.toList.map fun _ => ())
  | _ => .scalar ()

end Given

/-- The value of a formula where `env` gives the arguments in some form. A formula
that is nothing but an argument reads it. -/
def Formula.evaluateGiven {α : Type} [Scalar α] (env : String → Except (Fault α) (Given α)) :
    Formula α → Except (Fault α) (Value α)
  | argument name => do (← env name).read
  | body => body.evaluate fun name => do (← env name).operand

/-- What a cell holds: a value, a plain datum, or an object of another kind, which may
have a number. -/
inductive Content (α : Type) where
  | value (v : Value α)
  | datum (d : Datum α)
  | object (number : Option α)
  deriving Repr, DecidableEq

/-- What is held of what was given. -/
def Given.content {α : Type} : Given α → Content α
  | value v => .value v
  | expression v => .object (v.bind (Value.single? (α := α))).toOption
  | datum d => .datum d
  | object => .object none

namespace Content

variable {α : Type}

/-- A single number. -/
@[match_pattern]
abbrev scalar (x : α) : Content α := value (.scalar x)

/-- What a content gives for a variable. -/
def given : Content α → Given α
  | value v => .value v
  | datum d => .datum d
  | object (some x) => .expression (.ok (.scalar x))
  | object none => .object

/-- The error that a content gives: one number, or none where nothing is given. -/
def error? [Scalar α] : Content α → Except (Fault α) (Option α)
  | datum .nothing => .ok none
  | v => do return some (← v.given.single)

end Content

end DensityAlgebra
