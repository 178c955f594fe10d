/-
# Independent copies

A copy of an object is the object over fresh registries and fresh cells. What is
shared inside an object is shared in the same way inside its copy: registries
and cells are copied once each, in one go, and every reference is renamed. A
copied decay density draws from a child of the random source that it had.

Key definitions: `Fresh.renaming`, `Run.copyCells`, `Run.copyRegistries`,
`Amplitude.copy`, `Weight.copy`, `Expression.copy`, `Model.detach`, `Model.copy`.
-/
import DensityAlgebra.Model
import DensityAlgebra.Expression

namespace DensityAlgebra

/-- The place of a listed reference among those added from `base` on; others keep
their place. -/
def Fresh.renaming (base : Nat) (listed : List Nat) (i : Nat) : Nat :=
  if listed.contains i then base + listed.idxOf i else i

namespace Run

variable {α : Type} [Scalar α]

/-- Copies of cells, each made once; the result renames their references. -/
def copyCells (cells : List CellId) : Run α (CellId → CellId) := do
  let s ← get
  let listed := cells.eraseDups
  set { s with cells := s.cells ++ (listed.map s.cell).toArray }
  return fun c => ⟨Fresh.renaming s.cells.size (listed.map (·.index)) c.index⟩

/-- Copies of registries and of all their cells, each made once; the result
renames the references to the registries. -/
def copyRegistries (registries : List RegistryId) : Run α (RegistryId → RegistryId) := do
  let s ← get
  let listed := registries.eraseDups
  let old := listed.map s.registry
  let f ← copyCells (old.flatMap (·.cells))
  modify fun t => { t with registries := t.registries ++ (old.map (·.rename f)).toArray }
  return fun r => ⟨Fresh.renaming s.registries.size (listed.map (·.index)) r.index⟩

end Run

variable {α : Type} [Scalar α]

/-- An independent amplitude. -/
def Amplitude.copy (a : Amplitude α) : Run α (Amplitude α) := do
  return a.rename (← Run.copyRegistries a.registries)

/-- An independent weight function. -/
def Weight.copy (w : Weight α) : Run α (Weight α) := do
  return w.rename (← Run.copyRegistries w.registries)

/-- An independent expression. -/
def Expression.copy (e : Expression α) : Run α (Expression α) := do
  let f ← Run.copyCells e.pars.cells
  return { e with pars := e.pars.rename f }

/-- The head over renamed registries. -/
def Head.rename (f : RegistryId → RegistryId) (h : Head) : Head :=
  { h with vars := f h.vars, pars := f h.pars }

/-- The decay density over renamed registries, with state of its own and a child
of the random source. -/
def Decay.detach (f : RegistryId → RegistryId) (d : Decay α) : Run α (Decay α) := do
  let state ← Run.newState ((← get).state d.state)
  let source ← Run.spawn d.source
  return { d with
    head := d.head.rename f
    amplitude := d.amplitude.rename f
    weights := d.weights.map (·.rename f)
    state := state
    source := source }

/-- The density over renamed registries, with state of its own. -/
def Model.detach (f : RegistryId → RegistryId) : Model α → Run α (Model α)
  | .gaussian h x mu sigma => pure (.gaussian (h.rename f) x mu sigma)
  | .uniform h x lo hi => pure (.uniform (h.rename f) x lo hi)
  | .formula h body c => do
    return .formula (h.rename f) body (← Run.newCounter ((← get).counter c))
  | .decay d => do return .decay (← d.detach f)

/-- An independent decay density. -/
def Decay.copy (d : Decay α) : Run α (Decay α) := do
  d.detach (← Run.copyRegistries d.registries)

/-- An independent density. -/
def Model.copy (m : Model α) : Run α (Model α) := do
  m.detach (← Run.copyRegistries m.registries)

end DensityAlgebra
