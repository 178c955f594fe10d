/-
# The store of shared state

Cells, registries and the other things that several holders see change live in a
store and are referred to by number. Nothing is ever removed, so a reference
stays good, and what is added gets a number that no earlier reference has.
Reading through a reference that was never handed out gives a default.

An action reads and changes a store and may fail; a store changed by an action
that fails stays changed. Notices gather in the store in the order in which they
came.

A cell holds whatever it was made with. When it is given a new content together with an
error, the content is there before the error is read as a number; where that fails, the
content stays.

Key definitions: `Cell`, `DecayState`, `Store`, `Run`, `Store.cell`,
`Store.registry`, `Run.setCell`, `Run.setMeasured`, `Run.rebind`.
-/
import DensityAlgebra.Given
import DensityAlgebra.Registry
import DensityAlgebra.Source
import DensityAlgebra.Notice

namespace DensityAlgebra

/-- A named quantity with a value and an error, which may be anything. -/
structure Cell (α : Type) where
  kind : CellKind
  name : String
  value : Content α
  error : Content α

/-- A reference to a registry. -/
structure RegistryId where
  index : Nat
  deriving DecidableEq, Repr

/-- A reference to the changing part of a decay density. -/
structure StateId where
  index : Nat
  deriving DecidableEq, Repr

/-- A reference to a random source. -/
structure SourceId where
  index : Nat
  deriving DecidableEq, Repr

/-- A reference to a counter. -/
structure CounterId where
  index : Nat
  deriving DecidableEq, Repr

/-- The changing part of a decay density: the stored normalization integral, the
bins per axis, the bound that generation assumes, and how many candidates it
tries. -/
structure DecayState (α : Type) where
  norm : α
  resolution : Int
  envelope : α
  maxAttempts : Int

/-- All shared state. -/
structure Store (α : Type) where
  cells : Array (Cell α)
  registries : Array Registry
  states : Array (DecayState α)
  sources : Array (Source α)
  counters : Array Nat
  notices : List (Notice α)

/-- Actions on a store. -/
abbrev Run (α β : Type) := ExceptT (Fault α) (StateM (Store α)) β

namespace Store

variable {α : Type}

def empty : Store α := ⟨#[], #[], #[], #[], #[], []⟩

variable [Scalar α]

/-- The cell of a reference. -/
def cell (s : Store α) (c : CellId) : Cell α :=
  s.cells.getD c.index ⟨.variable, "", .scalar 0.0, .scalar 0.0⟩

/-- The registry of a reference. -/
def registry (s : Store α) (r : RegistryId) : Registry := s.registries.getD r.index .empty

def state (s : Store α) (d : StateId) : DecayState α :=
  s.states.getD d.index ⟨1.0, 1, 1.0, 0⟩

def source (s : Store α) (r : SourceId) : Source α := s.sources.getD r.index (.ofSeed 0 [])

def counter (s : Store α) (c : CounterId) : Nat := s.counters.getD c.index 0

/-- What the cell under a name of a registry holds. -/
def lookup (s : Store α) (r : RegistryId) (name : String) : Except (Fault α) (Content α) :=
  match (s.registry r).find? name with
  | some c => .ok (s.cell c).value
  | none => .error .missingKey

/-- The names of a registry with what their cells hold. -/
def currentValues (s : Store α) (r : RegistryId) : List (String × Content α) :=
  (s.registry r).entries.map fun e => (e.1, (s.cell e.2).value)

def putCell (s : Store α) (c : CellId) (x : Cell α) : Store α :=
  { s with cells := s.cells.setIfInBounds c.index x }

def putRegistry (s : Store α) (r : RegistryId) (x : Registry) : Store α :=
  { s with registries := s.registries.setIfInBounds r.index x }

def putState (s : Store α) (d : StateId) (x : DecayState α) : Store α :=
  { s with states := s.states.setIfInBounds d.index x }

def putSource (s : Store α) (r : SourceId) (x : Source α) : Store α :=
  { s with sources := s.sources.setIfInBounds r.index x }

def putCounter (s : Store α) (c : CounterId) (n : Nat) : Store α :=
  { s with counters := s.counters.setIfInBounds c.index n }

end Store

namespace Run

variable {α β : Type}

/-- An action that only reads, and may fail. -/
def reading (f : Store α → Except (Fault α) β) : Run α β := do
  match f (← get) with
  | .ok x => return x
  | .error e => throw e

/-- An action that adds a notice. -/
def note (n : Notice α) : Run α Unit := modify fun s => { s with notices := s.notices ++ [n] }

def newCell (x : Cell α) : Run α CellId := do
  let s ← get
  set { s with cells := s.cells.push x }
  return ⟨s.cells.size⟩

def newRegistry (x : Registry) : Run α RegistryId := do
  let s ← get
  set { s with registries := s.registries.push x }
  return ⟨s.registries.size⟩

def newState (x : DecayState α) : Run α StateId := do
  let s ← get
  set { s with states := s.states.push x }
  return ⟨s.states.size⟩

def newSource (x : Source α) : Run α SourceId := do
  let s ← get
  set { s with sources := s.sources.push x }
  return ⟨s.sources.size⟩

def newCounter (n : Nat) : Run α CounterId := do
  let s ← get
  set { s with counters := s.counters.push n }
  return ⟨s.counters.size⟩

variable [Scalar α]

/-- A cell takes a value, and a number as its error if one is given. -/
def setCell (c : CellId) (value : Content α) (error : Option α) : Run α Unit := do
  let x := (← get).cell c
  modify (·.putCell c { x with value := value, error := (error.map .scalar).getD x.error })

/-- A cell takes a value, and after that the error that is given with it, if it can be
read. -/
def setMeasured (c : CellId) (value error : Content α) : Run α Unit := do
  setCell c value none
  setCell c value (← reading fun _ => error.error?)

/-- Cells enter a registry under their names, up to one whose name is taken. -/
def register (r : RegistryId) (kind : String) : List CellId → Run α Unit
  | [] => pure ()
  | c :: rest => do
    let s ← get
    let name := (s.cell c).name
    if (s.registry r).contains name then throw (.duplicateName kind name)
    else
      set (s.putRegistry r ((s.registry r).insert name c))
      register r kind rest

/-- A fresh registry of cells under their names. -/
def newRegistryOf (kind : CellKind) (cells : List CellId) : Run α RegistryId := do
  let r ← newRegistry .empty
  register r kind.word cells
  return r

/-- The first registry is pointed to the cells of the second. -/
def rebind (own shared : RegistryId) : Run α Unit := do
  let s ← get
  let (a, b) := (s.registry own).rebind (s.registry shared)
  set ((s.putRegistry shared b).putRegistry own a)

/-- The next number of a source. -/
def draw (r : SourceId) : Run α α := do
  let s ← get
  let (u, next) := (s.source r).draw
  set (s.putSource r next)
  return u

/-- A number of a range, picked by the next number of a source, which may refuse the
range. -/
def pick (r : SourceId) (lo hi : α) : Run α α := do
  match ((← get).source r).refusal? lo hi with
  | some e => throw e
  | none => return uniform lo hi (← draw r)

/-- A fresh child of a source. -/
def spawn (r : SourceId) : Run α SourceId := do
  let s ← get
  let (child, next) := (s.source r).spawn
  set (s.putSource r next)
  newSource child

end Run

end DensityAlgebra
