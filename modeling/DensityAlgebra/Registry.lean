/-
# Registries

A registry maps names to cells, in the order in which the names came. It only
holds references: two registries that hold the same cell under a name see the
same value. Adding a name that is there replaces its cell and keeps its place.

Rebinding points every name of one registry to the cell that another one, the
shared one, holds under that name; names that the shared one lacks are added to
it. Afterwards both hold the same cell for every name of the first.

Key definitions: `Registry`, `Registry.find?`, `Registry.insert`,
`Registry.setDefault`, `Registry.rebind`, `Registry.sortedNames`.
-/
import DensityAlgebra.Text.Quoted

namespace DensityAlgebra

/-- A reference to a cell. -/
structure CellId where
  index : Nat
  deriving DecidableEq, Repr

/-- Names in order, each with its cell. -/
structure Registry where
  entries : List (String × CellId)
  deriving DecidableEq, Repr

/-- A name among sorted ones, in front of the first that is not smaller. -/
def insertName (name : String) : List String → List String
  | [] => [name]
  | n :: rest => if name ≤ n then name :: n :: rest else n :: insertName name rest

/-- Names in the order of their code points. -/
def sortNames (names : List String) : List String := names.foldr insertName []

namespace Registry

def empty : Registry := ⟨[]⟩

/-- The cell of a name. -/
def find? (r : Registry) (name : String) : Option CellId := r.entries.lookup name

def contains (r : Registry) (name : String) : Bool := (r.find? name).isSome

/-- The names in the order in which they came. -/
def names (r : Registry) : List String := r.entries.map (·.1)

/-- The names in the order of their code points. -/
def sortedNames (r : Registry) : List String := sortNames r.names

/-- The cells in the order of their names. -/
def cells (r : Registry) : List CellId := r.entries.map (·.2)

/-- The registry with a cell under a name: in the place of the old one, or last. -/
def insert (r : Registry) (name : String) (c : CellId) : Registry :=
  if r.contains name then
    ⟨r.entries.map fun e => if e.1 = name then (name, c) else e⟩
  else ⟨r.entries ++ [(name, c)]⟩

/-- The cell of a name, which is added with the cell `c` if it is not there. -/
def setDefault (r : Registry) (name : String) (c : CellId) : CellId × Registry :=
  match r.find? name with
  | some old => (old, r)
  | none => (c, ⟨r.entries ++ [(name, c)]⟩)

/-- Every entry in order takes the shared cell of its name. -/
def rebindEntries : List (String × CellId) → Registry → List (String × CellId) × Registry
  | [], shared => ([], shared)
  | (name, c) :: rest, shared =>
    let (held, shared) := shared.setDefault name c
    let (rest, shared) := rebindEntries rest shared
    ((name, held) :: rest, shared)

/-- Both registries after the first was pointed to the cells of the second. -/
def rebind (own shared : Registry) : Registry × Registry :=
  let (entries, shared) := rebindEntries own.entries shared
  (⟨entries⟩, shared)

/-- Entries of one registry added to another; they win on a clash of names. -/
def update (r other : Registry) : Registry :=
  other.entries.foldl (fun acc e => acc.insert e.1 e.2) r

/-- The registry with its references renamed. -/
def rename (r : Registry) (f : CellId → CellId) : Registry :=
  ⟨r.entries.map fun e => (e.1, f e.2)⟩

end Registry

end DensityAlgebra
