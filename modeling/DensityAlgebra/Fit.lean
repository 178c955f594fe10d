/-
# Fits

The parameters of a density are fitted to events by minimizing the negative log
likelihood. Every probe of the minimizer sets the free parameters and so renews
the density; in the end the density is left at the reported point with the errors
that follow from the matrix of second derivatives. A failure on the way leaves
the density where the failing probe has put it.

Key definitions: `Fit.Options`, `Fit.freeNames`, `Fit.objective`,
`Fit.covariance`, `fit`, `FitResult.summary`, `FitResult.deviations`.
-/
import DensityAlgebra.Fit.Likelihood
import DensityAlgebra.Fit.Search
import DensityAlgebra.Fit.SymmetricMatrix
import DensityAlgebra.Fault.Message
import DensityAlgebra.Uncertainty

namespace DensityAlgebra

namespace Fit

/-- What a fit is asked for beside density and data. -/
structure Options (α : Type) where
  bounds : List (String × Bounds α)
  fixed : List String
  step : Option α
  jitter : α

variable {α : Type} [Scalar α]

/-- The names of the parameters that are not fixed, in sorted order. -/
def freeNames (s : Store α) (d : Density α) (fixed : List String) :
    Except (Fault α) (List String) :=
  let unknown := fixed.filter fun n => !(s.registry d.pars).contains n
  if !unknown.isEmpty then .error (.unknownFixed unknown)
  else
    let names := (d.parNames s).filter fun n => !fixed.contains n
    if names.isEmpty then .error .nothingToFit else .ok names

/-- The bounds of the free parameters, in their order. -/
def boundsOf (names : List String) (bounds : List (String × Bounds α)) :
    Except (Fault α) (List (Bounds α)) :=
  let unknown := ((bounds.map (·.1)).filter fun n => !names.contains n).eraseDups
  if !unknown.isEmpty then .error (.unknownBounded unknown)
  else .ok (names.map fun n => (bounds.reverse.lookup n).getD (none, none))

/-- The least density that events are given. -/
def floor : α := 1e-300

/-- The loss at a point, to which the density is moved. -/
def objective (d : Density α) (names : List String) (columns : List (Value α)) (x : List α) :
    Run α α := do
  d.setPars (.mapping ((names.zip x).map fun (n, v) => (n, .raw (.scalar v))))
  Run.reading fun s => d.lossOf s columns floor

/-- The covariance matrix that belongs to a matrix of second derivatives. -/
def covariance (jitter : α) (h : List (List α)) : Option (List (List α)) :=
  let n := h.length
  let h := if Scalar.lt 0.0 jitter then
    SymmetricMatrix.build n fun i j =>
      SymmetricMatrix.entry h i j + jitter * (if i = j then 1.0 else 0.0)
  else h
  SymmetricMatrix.pseudoInverse? h

/-- The errors that belong to a covariance matrix. -/
def errorsOf (cov : List (List α)) : List α :=
  (SymmetricMatrix.diagonalOf cov).map fun v => Scalar.sqrt (Scalar.max v 0.0)

end Fit

/-- The density is fitted to data; the result comes with what the minimizer was
given and what it had to say. -/
def fit {α β : Type} [Scalar α] (minimizer : Minimizer α β) (d : Density α) (data : Input α)
    (options : Fit.Options α) : Run α (FitResult α × Problem α × β) := do
  let names ← Run.reading fun s => Fit.freeNames s d options.fixed
  let start ← Run.reading fun s => names.mapM fun n => do (← s.lookup d.pars n).given.single
  let bounds ← Run.reading fun _ => Fit.boundsOf names options.bounds
  let columns ← Run.reading fun s => d.columns s data
  let objective := Fit.objective d names columns
  let problem : Problem α := ⟨start, if options.bounds.isEmpty then none else some bounds⟩
  let (report, extra) ← (minimizer problem).run objective
  let nll ← objective report.x
  let h ← hessian objective report.x nll bounds options.step
  let h ← Run.reading fun _ => h
  let cov := h.bind (Fit.covariance options.jitter)
  let errors ← match cov with
    | some c => pure (Fit.errorsOf c)
    | none => do
      Run.note .noCovariance
      pure (report.x.map fun _ => Scalar.undefined)
  let result : FitResult α :=
    { names := names
      values := report.x
      errors := errors
      cov := cov
      nll := nll
      success := report.success
      message := report.message
      method := some "L-BFGS-B"
      evaluations := report.evaluations }
  d.setPars (.result result)
  return (result, problem, extra)

namespace FitResult

/-- A text with blanks in front, up to `width` characters. -/
def padLeft (width : Nat) (s : String) : String :=
  String.ofList (List.replicate (width - s.length) ' ') ++ s

/-- The line of a parameter. -/
def summaryLine {β : Type} [DecimalScale β] (digits : Precision) (n : String) (v e : β) :
    Except (Fault β) String := do
  let text ←
    if DecimalScale.isNaN e || DecimalScale.isInf e then pure (DecimalScale.generalText 6 v)
    else Uncertainty.text v e digits
  return "  " ++ padLeft 12 n ++ ": " ++ text

/-- One line per parameter under a line on the whole fit. -/
def summary {β : Type} [DecimalScale β] (r : FitResult β) (digits : Precision) :
    Except (Fault β) String := do
  let head := "FitResult(success=" ++ Text.flag r.success ++ ", nll="
    ++ DecimalScale.generalText 6 r.nll ++ ")"
  let message := if r.message.isEmpty then [] else ["  message: " ++ r.message]
  let lines ← (r.names.zip (r.values.zip r.errors)).mapM fun (n, v, e) => summaryLine digits n v e
  return String.intercalate "\n" (head :: message ++ lines)

/-- Whether a number can be a standard deviation: a finite negative one cannot. -/
def isDeviation (e : Float) : Bool := !(e < 0.0 && e.isFinite)

/-- The value and the standard deviation of a cell. -/
def measurement (c : Cell Float) : Except (Fault Float) (Float × Float) := do
  let v ← c.value.given.single
  let e ← c.error.given.single
  if isDeviation e then return (v, e) else throw .negativeDeviation

/-- Each name with its value and its standard deviation: from a square covariance
matrix that is as large as the list of values or smaller, and otherwise the error,
which must not be negative. -/
def deviations (r : FitResult Float) : Except (Fault Float) (List (String × Float × Float)) := do
  let fromCov : Option (List Float) := do
    let cov ← r.cov
    if cov.all (·.length = cov.length) then SymmetricMatrix.deviationsOf r.values.length cov
    else none
  match fromCov with
  | some ds => return byName (r.names.zip (r.values.zip ds))
  | none =>
    return byName (← (r.names.zip (r.values.zip r.errors)).mapM fun (n, v, e) =>
      if isDeviation e then .ok (n, v, e) else .error .negativeDeviation)

/-- The value and the error of a name. -/
def item {α : Type} (r : FitResult α) (name : String) : Except (Fault α) (α × α) :=
  match r.measurements.lookup name with
  | some m => .ok m
  | none => .error .missingKey

end FitResult

end DensityAlgebra
