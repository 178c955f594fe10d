/-
# Building decay densities

A decay density is made from variables in role order, a copy of an amplitude and
a phase space; the parameters of the amplitude become its own, and it is
normalized at once. Multiplying it by a weight function gives a normalized copy
that owns a copy of the function; the function's parameters replace those of the
same name everywhere in the copy.

Key definitions: `Run.newDecay`, `Decay.checkDeclares`, `Decay.withWeight`.
-/
import DensityAlgebra.Copy

namespace DensityAlgebra

variable {α : Type} [Scalar α]

/-- A normalized decay density of three variables in role order. Its whole numbers
may not exist, which is found where they are needed. -/
def Run.newDecay (name : String) (m12 m13 m23 : CellId) (amplitude : Amplitude α)
    (space : PhaseSpace α) (resolution : Except (Fault α) Int) (envelope : α)
    (maxAttempts : Except (Fault α) Int) (source : SourceId) : Run α (Decay α) := do
  let amplitude ← amplitude.copy
  let s ← get
  let head ← newHead name [m12, m13, m23] (s.registry amplitude.pars).cells
  let resolution ← Run.reading fun _ => resolution
  if resolution < 1 then throw .badResolution
  if !Scalar.lt 0.0 envelope then throw .badEnvelope
  let maxAttempts ← Run.reading fun _ => maxAttempts
  let state ← newState ⟨1.0, resolution, envelope, maxAttempts⟩
  let d : Decay α :=
    { head := head
      amplitude := amplitude
      space := space
      role12 := (s.cell m12).name
      role13 := (s.cell m13).name
      role23 := (s.cell m23).name
      weights := []
      state := state
      source := source }
  d.cache
  return d

/-- The density declares all variables of a factor. -/
def Decay.checkDeclares (s : Store α) (d : Decay α) (factor : String) (names : List String) :
    Except (Fault α) Unit :=
  let foreign := names.filter fun n => !(s.registry d.head.vars).contains n
  if foreign.isEmpty then .ok () else .error (.foreignVariables d.head.name factor foreign)

/-- A normalized copy of the density, multiplied by a copy of the function. -/
def Decay.withWeight (d : Decay α) (w : Weight α) : Run α (Decay α) := do
  Run.reading fun s => d.checkDeclares s w.name (s.registry w.vars).sortedNames
  let out ← d.copy
  let added ← w.copy
  modify fun t =>
    t.putRegistry out.head.pars ((t.registry out.head.pars).update (t.registry added.pars))
  Run.rebind added.vars out.head.vars
  let out := { out with weights := out.weights ++ [added] }
  out.shareCells
  out.cache
  return out

end DensityAlgebra
