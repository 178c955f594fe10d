/-
# Assigning values

Values reach cells and densities in several forms: a sequence that is matched
against the names in sorted order, a mapping from names to raw values or to
other cells, or the result of a fit. Assigning checks the form, the count and
the names before anything is written; the entries are then written one after
the other, each value as it is. An error that is no number stops the writing.

Key definitions: `Entry`, `Entry.toGiven`, `Input`, `Input.toSequence`,
`Input.isEmpty`, `Run.assign`.
-/
import DensityAlgebra.Store
import DensityAlgebra.Fit.Result

namespace DensityAlgebra

/-- What a mapping holds under a name: what is given for it, a value with an error, or a
cell whose value and error are meant. -/
inductive Entry (α : Type) where
  | given (g : Given α)
  | measured (value error : Content α)
  | cell (c : CellId)

/-- The forms in which values are given; a single one stands in no row. -/
inductive Input (α : Type) where
  | nothing
  | row (gs : List (Given α))
  | mapping (entries : List (String × Entry α))
  | text (s : String)
  | result (r : FitResult α)
  | single (g : Given α)

namespace Input

variable {α : Type}

/-- Values in a row. -/
def sequence (vs : List (Value α)) : Input α := .row (vs.map .value)

/-- A mapping from pairs; of equal names the last counts, in the place of the
first. -/
def ofPairs (pairs : List (String × Entry α)) : Input α :=
  .mapping (pairs.foldl
    (fun acc e =>
      if acc.any (·.1 = e.1) then acc.map fun old => if old.1 = e.1 then e else old
      else acc ++ [e])
    [])

/-- The result of a fit as a mapping of values with errors; other forms as they
are. -/
def measured : Input α → Input α
  | result r =>
    .mapping (r.measurements.map fun (n, v, e) => (n, .measured (.scalar v) (.scalar e)))
  | other => other

/-- What is given in a row. -/
def toSequence : Input α → Except (Fault α) (List (Given α))
  | row gs => .ok gs
  | mapping entries => .ok (entries.map fun (n, _) => .datum (.text n))
  | text s => .ok (s.toList.map fun c => .datum (.text (String.singleton c)))
  | result _ => .error .missingKey
  | nothing | single _ => .error .notIterable

/-- What a plain datum gives. -/
def ofDatum [Scalar α] : Datum α → Input α
  | .nothing => nothing
  | .text s => text s
  | .list items => row (items.toList.map .ofDatum)
  | .mapping fields => ofPairs (fields.toList.map fun (n, d) => (n, .given (.ofDatum d)))
  | d => single (.ofDatum d)

/-- Whether there is nothing in a form: no entry, no character, or the number
zero. -/
def isEmpty [Scalar α] : Input α → Bool
  | nothing => true
  | row gs => gs.isEmpty
  | mapping entries => entries.isEmpty
  | text s => s.isEmpty
  | single (.value (.scalar x)) => Scalar.eq x 0.0
  | result _ | single _ => false

end Input

/-- What an entry gives for a variable; a cell is an object of its own kind. -/
def Entry.toGiven {α : Type} : Entry α → Given α
  | .given g => g
  | .measured .. | .cell _ => .object

/-- A value as an entry. -/
def Entry.raw {α : Type} (v : Value α) : Entry α := .given (.value v)

namespace Run

variable {α : Type} [Scalar α]

/-- A cell takes what an entry holds. -/
def setEntry (c : CellId) : Entry α → Run α Unit
  | .given g => setCell c g.content none
  | .measured v e => setMeasured c v e
  | .cell other => do
    let x := (← get).cell other
    setMeasured c x.value x.error

/-- The entries of a mapping are written in order. -/
def setEntries (r : Registry) : List (String × Entry α) → Run α Unit
  | [] => pure ()
  | (name, e) :: rest => do
    match r.find? name with
    | some c => setEntry c e
    | none => pure ()
    setEntries r rest

/-- The cells take the values of a row in order. -/
def setValues : List CellId → List (Given α) → Run α Unit
  | c :: cs, g :: gs => do
    setCell c g.content none
    setValues cs gs
  | _, _ => pure ()

/-- The cells of a registry take the given values. -/
def assign (id : RegistryId) (input : Input α) (kind : String) : Run α Unit := do
  let r := (← get).registry id
  match input with
  | .mapping entries =>
    let unknown := (entries.map (·.1)).filter fun n => !r.contains n
    if unknown.isEmpty then setEntries r entries
    else throw (.unexistingNames kind unknown)
  | .text _ => throw (.notAssignable kind)
  | .row gs =>
    let names := r.sortedNames
    if gs.length = names.length then setValues (names.filterMap r.find?) gs
    else throw (.wrongCount gs.length kind names)
  | .result _ => throw .missingKey
  | .nothing | .single _ => throw .notIterable

end Run

end DensityAlgebra
