/-
# Data read as numbers

How a plain datum is turned into a number where one is needed. A real datum is
converted, and beyond all finite numbers the conversion overflows. Anything else is
refused, except where a text that spells a number will do.

Key definitions: `Datum.toReal`, `Datum.toComplex`, `Datum.toNumber`.
-/
import DensityAlgebra.Fault
import DensityAlgebra.Text.Numeral

namespace DensityAlgebra.Datum

variable {α : Type} [Scalar α]

/-- The datum as a real number. -/
def toReal (d : Datum α) : Except (Fault α) α :=
  match d.number? with
  | some x => .ok x
  | none => .error (if d.isReal then .overflow else .notANumber)

/-- The datum as a complex number. -/
def toComplex : Datum α → Except (Fault α) (ComplexNumber α)
  | complex z => .ok z
  | d => do return .ofReal (← d.toReal)

/-- The datum as a real number, which a text may spell. -/
def toNumber : Datum α → Except (Fault α) α
  | text s =>
    match Text.real? s with
    | some x => .ok x
    | none => .error .unreadableNumber
  | d => d.toReal

end DensityAlgebra.Datum
