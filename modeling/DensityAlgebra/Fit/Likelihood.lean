/-
# Negative log likelihood

How badly a density describes events: minus the sum of the logarithms of its
values at the events, where a value below a floor counts as the floor. Events are
given as columns, either in the sorted order of the variable names or by name.

Key definitions: `Density.columns`, `logLoss`, `Density.negLogLike`.
-/
import DensityAlgebra.Density

namespace DensityAlgebra

variable {α : Type} [Scalar α]

/-- The columns of events, in the sorted order of the variable names. -/
def Density.columns (s : Store α) (d : Density α) : Input α → Except (Fault α) (List (Value α))
  | .mapping entries =>
    (d.varNames s).mapM fun n =>
      match entries.lookup n with
      | some e => e.toGiven.read
      | none => .error .missingKey
  | input => do (← input.toSequence).mapM (·.read)

/-- Minus the sum of logarithms, with values clamped to a floor. -/
def logLoss (floor : α) (v : Value α) : α :=
  -(v.map fun p => Scalar.log (Scalar.max p floor)).total

/-- The negative log likelihood of events in columns. -/
def Density.lossOf (s : Store α) (d : Density α) (columns : List (Value α)) (floor : α) :
    Except (Fault α) α := do
  return logLoss floor (← d.evaluate s (.sequence columns))

/-- The negative log likelihood of events in some form. -/
def Density.negLogLike (s : Store α) (d : Density α) (data : Input α) (floor : α) :
    Except (Fault α) α := do
  d.lossOf s (← d.columns s data) floor

end DensityAlgebra
