/-
# Densities

What models and composites have in common: they are evaluated at given or at
current values, their variables and parameters are set by name, in sorted order
or from a mapping, and every change of parameters renews what is derived from
them. A change is made before that renewal, which may fail; a value that is written is
there before its error is read, which may fail as well.

Key definitions: `Density`, `Density.evaluate`, `Density.setVar`,
`Density.setPar`, `Density.setVars`, `Density.setPars`.
-/
import DensityAlgebra.Composite

namespace DensityAlgebra

/-- A model or a composite. -/
inductive Density (α : Type) where
  | model (m : Model α)
  | composite (p : Composite α)

namespace Density

variable {α : Type}

def vars : Density α → RegistryId
  | model m => m.head.vars
  | composite p => p.vars

def pars : Density α → RegistryId
  | model m => m.head.pars
  | composite p => p.pars

variable [Scalar α]

def varNames (s : Store α) (d : Density α) : List String := (s.registry d.vars).sortedNames

def parNames (s : Store α) (d : Density α) : List String := (s.registry d.pars).sortedNames

/-- The density at given values, or at the current values of its variables. -/
def evaluate (s : Store α) : Density α → Input α → Except (Fault α) (Value α)
  | model m, input => m.evaluate s input
  | composite p, input => p.evaluate s input

/-- What the density derives from its parameters is renewed. -/
def cache : Density α → Run α Unit
  | model m => m.cache
  | composite p => p.cache

/-- The cell of a name takes a value and an error. -/
def setNamed (r : RegistryId) (kind : CellKind) (name : String) (value error : Content α) :
    Run α Unit := do
  match ((← get).registry r).find? name with
  | some c => Run.setMeasured c value error
  | none => throw (.unexistingName kind name)

def setVar (d : Density α) (name : String) (value error : Content α) : Run α Unit :=
  setNamed d.vars .variable name value error

def setPar (d : Density α) (name : String) (value error : Content α) : Run α Unit := do
  setNamed d.pars .parameter name value error
  d.cache

def setVars (d : Density α) (input : Input α) : Run α Unit :=
  Run.assign d.vars input CellKind.variable.word

/-- The parameters take values, of which the result of a fit gives those with
errors. -/
def setPars (d : Density α) (input : Input α) : Run α Unit := do
  Run.assign d.pars input.measured CellKind.parameter.word
  d.cache

end Density

end DensityAlgebra
