/-
# What can go wrong

Every way in which an operation of this library can fail, as a cause. A cause
holds the names and numbers that a reader of the message wants to see; the
wording is in `Fault/Message`. Callers that only want to tell failures apart ask
for the `kind`.

Some causes need no explanation (a key that is not in a mapping, two columns of
different length); they have a kind and no message.

Key definitions: `Fault`, `Fault.Kind`, `Fault.kind`, `Leaf`.
-/
import DensityAlgebra.Datum
import DensityAlgebra.Operation

namespace DensityAlgebra

/-- What stands at an end of an expression tree: one of the embedded models, a
parameter's name, or a number. -/
inductive Leaf (α : Type) where
  | model (index : Int)
  | parameter (name : String)
  | constant (value : α)
  deriving Repr, DecidableEq

/-- The two kinds of cells, and what messages call them. -/
inductive CellKind where
  | variable
  | parameter
  deriving Repr, DecidableEq

def CellKind.word : CellKind → String
  | .variable => "variable"
  | .parameter => "parameter"

/-- The cause of a failure. -/
inductive Fault (α : Type) where
  -- look-ups and arithmetic
  | missingKey
  | missingItem
  | shapeMismatch
  | unreadableNumber
  | notANumber
  | notIterable
  | unsupportedOperands
  | overflow
  | divisionByZero
  | negativeDeviation
  | unknownRole
  | badGrid
  | reversedRange
  | givenTwice
  | badSignature
  -- cells
  | duplicateName (kind name : String)
  | notAssignable (kind : String)
  | wrongCount (given : Nat) (kind : String) (names : List String)
  | unexistingNames (kind : String) (names : List String)
  | unexistingName (kind : CellKind) (name : String)
  | missingValues (names : List String)
  | takesValues (owner : String) (names : List String) (given : Nat)
  -- programs
  | unknownBinary (op : Operation)
  | unknownUnary (op : Operation)
  | unknownNode (node : Datum α)
  | notUnary (op : Operation)
  | foreignLeaf (leaf : Leaf α)
  | binaryUnderflow
  | unaryUnderflow
  | leftover (count : Nat)
  -- composition
  | cannotLift (operand : String)
  | cannotAppend (operand : String)
  | cannotAdd (operand : String)
  | cannotMultiply (operand : String)
  | cannotScale (operand : String)
  | cannotDivide (operand : String)
  | incompatibleVariables (left right : List String)
  | overlappingVariables (common : List String)
  | foreignVariables (density weight : String) (names : List String)
  -- functions of named arguments
  | argumentMismatch (name : String) (unbound unknown : List String)
  | variableAndParameter
  | openEndedArguments
  | positionalOnlyArguments
  -- densities
  | emptyInterval (lo hi : α)
  | emptyGrid
  | badResolution
  | badEnvelope
  | unknownChannel (channel : String)
  | twoCells (name : String)
  | negativeDaughter
  | nonpositiveMother
  | forbiddenDecay (daughters mother : α)
  | exhausted (name : String) (attempts : Int)
  -- fits
  | unknownFixed (names : List String)
  | unknownBounded (names : List String)
  | nothingToFit
  -- plots
  | notProjectable (density : String)
  | notOneDimensional
  | rangeNeeded
  | differentShapes
  deriving Repr, DecidableEq

namespace Fault

/-- The classes of failure that callers tell apart. -/
inductive Kind where
  | type | key | value | index | overflow | zeroDivision | negativeDeviation
  | argumentCount | unknownName | incompatibleVariables | overlappingVariables | dependency
  | stackUnderflow | unknownOperator | malformedProgram | generationExhausted
  deriving Repr, DecidableEq

variable {α : Type}

/-- The class of a failure. -/
def kind : Fault α → Kind
  | missingKey | unknownFixed _ | unknownBounded _ => .key
  | missingItem => .index
  | notANumber | notIterable | unsupportedOperands | givenTwice | notAssignable _ | cannotLift _
  | cannotAppend _ | cannotAdd _ | cannotMultiply _ | cannotScale _ | cannotDivide _
  | argumentMismatch .. | variableAndParameter | openEndedArguments | positionalOnlyArguments
  | notProjectable _ => .type
  | overflow => .overflow
  | divisionByZero => .zeroDivision
  | negativeDeviation => .negativeDeviation
  | wrongCount .. | missingValues _ | takesValues .. => .argumentCount
  | unexistingNames .. | unexistingName .. => .unknownName
  | unknownBinary _ | unknownUnary _ | unknownNode _ | notUnary _ | foreignLeaf _ =>
    .unknownOperator
  | binaryUnderflow | unaryUnderflow => .stackUnderflow
  | leftover _ => .malformedProgram
  | incompatibleVariables .. => .incompatibleVariables
  | overlappingVariables _ => .overlappingVariables
  | foreignVariables .. => .dependency
  | exhausted .. => .generationExhausted
  | shapeMismatch | unreadableNumber | unknownRole | badGrid | reversedRange | badSignature
  | duplicateName ..
  | emptyInterval .. | emptyGrid | badResolution | badEnvelope | unknownChannel _ | twoCells _
  | negativeDaughter | nonpositiveMother | forbiddenDecay .. | nothingToFit | notOneDimensional
  | rangeNeeded | differentShapes => .value

end Fault

end DensityAlgebra
