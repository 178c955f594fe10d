/-
# Results of fits

What a fit reports: the fitted parameters by name with values and errors, the
covariance matrix if there is one, the minimum, and what the minimizer said.
Names, values and errors correspond by position; a list that is longer than the
others is cut off.

Key definitions: `FitResult`, `FitResult.measurements`, `FitResult.checked`.
-/
import DensityAlgebra.Fault

namespace DensityAlgebra

/-- The outcome of a fit. -/
structure FitResult (α : Type) where
  names : List String
  values : List α
  errors : List α
  cov : Option (List (List α))
  nll : α
  success : Bool
  message : String
  method : Option String
  evaluations : Int

namespace FitResult

variable {α : Type}

/-- A list by name; of equal names the last counts, in the place of the first. -/
def byName {β : Type} (entries : List (String × β)) : List (String × β) :=
  entries.foldl
    (fun acc e =>
      if acc.any (·.1 = e.1) then acc.map fun old => if old.1 = e.1 then e else old
      else acc ++ [e])
    []

/-- Each name with its value and error. -/
def measurements (r : FitResult α) : List (String × α × α) :=
  byName (r.names.zip (r.values.zip r.errors))

/-- A result whose covariance matrix has rows of equal length. -/
def checked (r : FitResult α) : Except (Fault α) (FitResult α) :=
  match r.cov with
  | some (first :: rest) =>
    if rest.all (·.length = first.length) then .ok r else .error .shapeMismatch
  | _ => .ok r

end FitResult

end DensityAlgebra
