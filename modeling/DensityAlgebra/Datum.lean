/-
# Plain data

What has no structure of this library: nothing, truth values, integers, real and
complex numbers, text, and rows and mappings of such. Plain data stand where
something else was expected, as settings of a drawing, or beside an operator.

Truth values, integers and real numbers are real; the first two are integers. An
integer has no bounds, so a real datum may lie beyond all numbers that are computed
with.

Key definitions: `Datum`, `Datum.kindName`, `Datum.integer?`, `Datum.isReal`,
`Datum.number?`.
-/
import DensityAlgebra.ComplexNumber

namespace DensityAlgebra

mutual

/-- A plain datum. -/
inductive Datum (α : Type) where
  | nothing
  | flag (b : Bool)
  | whole (n : Int)
  | real (x : α)
  | complex (z : ComplexNumber α)
  | text (s : String)
  | list (items : Datum.Items α)
  | mapping (fields : Datum.Fields α)
  deriving Repr, DecidableEq

/-- Data in a row. -/
inductive Datum.Items (α : Type) where
  | nil
  | cons (head : Datum α) (rest : Datum.Items α)
  deriving Repr, DecidableEq

/-- Data under names. -/
inductive Datum.Fields (α : Type) where
  | nil
  | cons (name : String) (head : Datum α) (rest : Datum.Fields α)
  deriving Repr, DecidableEq

end

instance {α : Type} : Inhabited (Datum α) := ⟨.nothing⟩

namespace Datum

variable {α : Type}

def Items.ofList : List (Datum α) → Items α
  | [] => .nil
  | x :: rest => .cons x (ofList rest)

def Items.toList : Items α → List (Datum α)
  | .nil => []
  | .cons x rest => x :: rest.toList

def Fields.ofList : List (String × Datum α) → Fields α
  | [] => .nil
  | (name, x) :: rest => .cons name x (ofList rest)

def Fields.toList : Fields α → List (String × Datum α)
  | .nil => []
  | .cons name x rest => (name, x) :: rest.toList

/-- What messages call the datum. -/
def kindName : Datum α → String
  | nothing => "NoneType"
  | flag _ => "bool"
  | whole _ => "int"
  | real _ => "float"
  | complex _ => "complex"
  | text _ => "str"
  | list _ => "list"
  | mapping _ => "dict"

/-- The integer that a datum is. -/
def integer? : Datum α → Option Int
  | flag b => some (if b then 1 else 0)
  | whole n => some n
  | _ => none

/-- Whether the datum is a real number, be it in reach or not. -/
def isReal : Datum α → Bool
  | flag _ | whole _ | real _ => true
  | _ => false

/-- Whether the datum is a real or a complex number. -/
def isNumeric : Datum α → Bool
  | complex _ => true
  | d => d.isReal

/-- The real number that a datum is, if it is in reach. -/
def number? [Scalar α] : Datum α → Option α
  | real x => some x
  | d => d.integer?.bind Scalar.ofInt?

end Datum

end DensityAlgebra
