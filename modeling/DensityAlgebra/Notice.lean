/-
# Notices

What an operation has to say although it does not fail: a normalization that is
no positive number, events that are drawn under too low an envelope, generation
that gave up, a fit without a covariance matrix.

Key definitions: `Notice`, `Notice.message`.
-/
import DensityAlgebra.Text.Shortest

namespace DensityAlgebra

/-- The cause of a notice. -/
inductive Notice (α : Type) where
  | badNorm (name : String) (norm : α)
  | envelopeExceeded (name : String) (density m12 m13 m23 envelope : α)
  | nothingAccepted (name : String) (attempts : Int)
  | noCovariance
  deriving Repr

/-- The wording of a notice. -/
def Notice.message : Notice Float → String
  | badNorm name norm =>
    name ++ ": normalization integral is " ++ Text.shortest norm
      ++ "; density values are undefined."
  | envelopeExceeded name density m12 m13 m23 envelope =>
    name ++ ": density " ++ Text.general 6 density ++ " at (" ++ Text.general 6 m12 ++ ", "
      ++ Text.general 6 m13 ++ ", " ++ Text.general 6 m23 ++ ") exceeds the envelope "
      ++ Text.general 6 envelope ++ "; generated events are biased."
  | nothingAccepted name attempts =>
    name ++ s!": no event accepted after {attempts} attempts. Returning the all-zero point."
  | noCovariance => "fit: could not estimate the covariance matrix."

end DensityAlgebra
