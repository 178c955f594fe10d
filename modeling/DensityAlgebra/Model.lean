/-
# Primitive densities

The densities that composites are made of: a normal density, a flat one on an
interval, one that is given by a formula, and the density of a three-body decay.
Each declares variables and parameters in registries of its own. Values are
given in the sorted order of the variable names, or by name.

A formula density stands for any density that computes its value from its cells;
it counts how often it was asked to renew what it derives from its parameters.

Key definitions: `Model`, `Model.density`, `Model.point`, `Model.evaluate`,
`Model.cache`, `Model.bind`, `Run.newGaussian`, `Run.newDecay`.
-/
import DensityAlgebra.Decay

namespace DensityAlgebra

/-- A primitive density. -/
inductive Model (α : Type) where
  | gaussian (head : Head) (x mu sigma : String)
  | uniform (head : Head) (x : String) (lo hi : α)
  | formula (head : Head) (body : Formula α) (renewed : CounterId)
  | decay (d : Decay α)

namespace Model

variable {α : Type}

def head : Model α → Head
  | gaussian h .. => h
  | uniform h .. => h
  | formula h .. => h
  | decay d => d.head

def name (m : Model α) : String := m.head.name

/-- The name of the kind of density, which is also its name by default. -/
def kindName : Model α → String
  | gaussian .. => "Gaussian"
  | uniform .. => "Uniform"
  | formula .. => "Stub"
  | decay _ => "Decay3Body"

/-- The registries of the density and of all its parts. -/
def registries : Model α → List RegistryId
  | decay d => d.registries
  | m => [m.head.vars, m.head.pars]

variable [Scalar α]

def varNames (s : Store α) (m : Model α) : List String := (s.registry m.head.vars).sortedNames

def parNames (s : Store α) (m : Model α) : List String := (s.registry m.head.pars).sortedNames

/-- The normal density at `x`; the sign of the width does not matter. -/
def normalDensity (x mu sigma : α) : α :=
  let z := (x - mu) / sigma
  Scalar.exp (-0.5 * z * z) / (Scalar.sqrt (2.0 * 3.141592653589793) * Scalar.abs sigma)

/-- The flat density on an interval. -/
def flatDensity (lo hi x : α) : α :=
  if Scalar.le lo x && Scalar.le x hi then 1.0 / (hi - lo) else 0.0

/-- The density where the variables have the values of a point. -/
def density (s : Store α) (m : Model α) (point : List (String × Given α)) :
    Except (Fault α) (Value α) := do
  match m with
  | gaussian h x mu sigma =>
    match point.lookup x with
    | none => throw .missingKey
    | some v =>
      let mean ← s.lookup h.pars mu
      let width ← s.lookup h.pars sigma
      Value.combine₃ normalDensity (← v.read) (← mean.given.array) (← width.given.array)
  | uniform _ x lo hi =>
    match point.lookup x with
    | none => throw .missingKey
    | some v => return (← v.read).map (flatDensity lo hi)
  | formula h body _ =>
    body.evaluateGiven fun name =>
      match point.lookup name with
      | some v => .ok v
      | none => do return (← s.lookup h.pars name).given
  | decay d =>
    match point.lookup d.role12, point.lookup d.role13, point.lookup d.role23 with
    | some a, some b, some c => d.densityAt s a b c
    | _, _, _ => throw .missingKey

/-- Given values by name, one for each of `names`; other names are passed over. -/
def pickNamed (names : List String) (entries : List (String × Entry α)) :
    Except (Fault α) (List (String × Given α)) := do
  let missing := names.filter fun n => !entries.any (·.1 = n)
  if missing.isEmpty then
    names.mapM fun n =>
      match entries.lookup n with
      | some e => .ok (n, e.toGiven)
      | none => .error .missingKey
  else throw (.missingValues missing)

/-- Given values in the order of `names`. -/
def pickSequence (owner : String) (names : List String) (vs : List (Given α)) :
    Except (Fault α) (List (String × Given α)) :=
  if vs.length = names.length then .ok (names.zip vs)
  else .error (.takesValues owner names vs.length)

/-- The point that given values stand for, in a density with these variables. -/
def genericPoint (owner : String) (names : List String) :
    Input α → Except (Fault α) (List (String × Given α))
  | .mapping entries => pickNamed names entries
  | input => do pickSequence owner names (← input.toSequence)

/-- The point that given values stand for. Two values in a row are m12 and m13 of
a decay, whatever the names of its variables. -/
def point (s : Store α) (m : Model α) (input : Input α) :
    Except (Fault α) (List (String × Given α)) :=
  match m, input with
  | decay d, .row [a, b] => do
    let c ← d.third (← a.operand) (← b.operand)
    return [(d.role12, a), (d.role13, b), (d.role23, .value c)]
  | m, input => genericPoint m.name (m.varNames s) input

/-- The density at given values, or at the current values of its variables. -/
def evaluate (s : Store α) (m : Model α) : Input α → Except (Fault α) (Value α)
  | .nothing => m.density s ((s.currentValues m.head.vars).map fun (n, v) => (n, v.given))
  | input => do m.density s (← m.point s input)

/-- What the density derives from its parameters is renewed. -/
def cache : Model α → Run α Unit
  | formula _ _ c => modify fun s => s.putCounter c (s.counter c + 1)
  | decay d => d.cache
  | _ => pure ()

/-- The density and all its parts hold the shared cells of their names. -/
def bind (m : Model α) (vars pars : RegistryId) : Run α Unit :=
  match m with
  | decay d => d.bind vars pars
  | m => do
    Run.rebind m.head.vars vars
    Run.rebind m.head.pars pars

end Model

namespace Run

variable {α : Type} [Scalar α]

/-- A head over fresh registries of the cells. -/
def newHead (name : String) (varCells parCells : List CellId) : Run α Head := do
  let vars ← newRegistryOf .variable varCells
  let pars ← newRegistryOf .parameter parCells
  return ⟨name, vars, pars⟩

/-- A normal density of one variable. -/
def newGaussian (name : String) (x mu sigma : CellId) : Run α (Model α) := do
  let h ← newHead name [x] [mu, sigma]
  let s ← get
  return .gaussian h (s.cell x).name (s.cell mu).name (s.cell sigma).name

/-- A flat density of one variable on an interval. -/
def newUniform (name : String) (x : CellId) (lo hi : α) : Run α (Model α) := do
  if !Scalar.lt lo hi then throw (.emptyInterval lo hi)
  let h ← newHead name [x] []
  return .uniform h ((← get).cell x).name lo hi

/-- A density that is given by a formula. -/
def newFormula (name : String) (varCells parCells : List CellId) (body : Formula α) :
    Run α (Model α) := do
  let h ← newHead name varCells parCells
  return .formula h body (← newCounter 0)

end Run

end DensityAlgebra
