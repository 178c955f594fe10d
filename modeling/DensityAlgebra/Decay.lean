/-
# Decay densities

The density of a three-body decay over the Dalitz plot: the squared magnitude of
an amplitude, times auxiliary weight functions, divided by a stored
normalization. The normalization is the integral of the numerator over the
Dalitz region on a midpoint grid; it is stored and has to be renewed when
parameters change. Three variables play the kinematic roles (12), (13) and (23),
whatever their names are.

Key definitions: `Decay`, `Decay.intensity`, `Decay.evaluateAt`,
`Decay.integral`, `Decay.project`, `Decay.cache`, `Decay.bind`.
-/
import DensityAlgebra.Amplitude
import DensityAlgebra.Weight
import DensityAlgebra.Grid

namespace DensityAlgebra

/-- The name of a density and the registries of its cells. -/
structure Head where
  name : String
  vars : RegistryId
  pars : RegistryId
  deriving DecidableEq, Repr

/-- A decay density. -/
structure Decay (α : Type) where
  head : Head
  amplitude : Amplitude α
  space : PhaseSpace α
  role12 : String
  role13 : String
  role23 : String
  weights : List (Weight α)
  state : StateId
  source : SourceId

namespace Decay

variable {α : Type}

/-- The names of the variables in the order of their roles. -/
def roles (d : Decay α) : List String := [d.role12, d.role13, d.role23]

/-- The role of a name. -/
def roleOf? (d : Decay α) (name : String) : Option Pair :=
  if name = d.role12 then some .of12
  else if name = d.role13 then some .of13
  else if name = d.role23 then some .of23
  else none

variable [Scalar α]

/-- The range of a variable. -/
def bounds (d : Decay α) (name : String) : Except (Fault α) (α × α) :=
  match d.roleOf? name with
  | some i => .ok (d.space.sqMin i, d.space.sqMax i)
  | none => .error .unknownRole

/-- The product of weight functions, times what came before. -/
def weightProduct (s : Store α) (point : List (String × Given α)) :
    List (Weight α) → Value α → Except (Fault α) (Value α)
  | [], product => .ok product
  | w :: rest, product => do
    let v ← w.factor s point
    let product ← Value.combine (fun x y => x * y) product v
    weightProduct s point rest product

/-- The weight of a point, which is not negative. -/
def weight (s : Store α) (d : Decay α) (m12 m13 m23 : Given α) : Except (Fault α) (Value α) := do
  let point := [(d.role12, m12), (d.role13, m13), (d.role23, m23)]
  let product ← weightProduct s point d.weights (.scalar 1.0)
  return product.map (Scalar.max · 0.0)

/-- The density before it is normalized. -/
def intensity (s : Store α) (d : Decay α) (m12 m13 m23 : Given α) :
    Except (Fault α) (Value α) := do
  let a ← d.amplitude.evaluate s m12 m13 m23
  let w ← d.weight s m12 m13 m23
  Value.combine (fun z x => z * x) (a.map (·.magnitude)).square w

/-- What is left for m23. -/
def third (d : Decay α) (m12 m13 : Value α) : Except (Fault α) (Value α) :=
  Value.combine d.space.third m12 m13

/-- The density at a point. -/
def densityAt (s : Store α) (d : Decay α) (m12 m13 m23 : Given α) :
    Except (Fault α) (Value α) := do
  return (← d.intensity s m12 m13 m23).map (· / (s.state d.state).norm)

/-- The density at a point; what is not given of m23 is left by the others. -/
def evaluateAt (s : Store α) (d : Decay α) (m12 m13 : Value α) (m23 : Option (Value α)) :
    Except (Fault α) (Value α) := do
  let m23 ← match m23 with
    | some v => pure v
    | none => d.third m12 m13
  d.densityAt s (.value m12) (.value m13) (.value m23)

/-- The points of a grid over m12 and m13 that lie in the Dalitz region. -/
def insidePoints (p : PhaseSpace α) (xs ys : List α) : List (α × α × α) :=
  (xs.flatMap fun x => ys.map fun y => (x, y, p.third x y)).filter
    fun (a, b, c) => p.contains Scalar.selfProduct a b c

/-- The integral of the numerator over the Dalitz region. -/
def integral (s : Store α) (d : Decay α) : Except (Fault α) α := do
  let n := (s.state d.state).resolution
  let (xs, dx) ← Grid.bins (d.space.sqMin .of12) (d.space.sqMax .of12) n
  let (ys, dy) ← Grid.bins (d.space.sqMin .of13) (d.space.sqMax .of13) n
  let points := insidePoints d.space xs ys
  let v ← d.intensity s (.value (.column (points.map (·.1))))
    (.value (.column (points.map (·.2.1)))) (.value (.column (points.map (·.2.2))))
  return v.total * dx * dy

/-- The stored normalization becomes the integral at the current parameters. -/
def cache (d : Decay α) : Run α Unit := do
  let norm ← Run.reading d.integral
  if !Scalar.lt 0.0 norm then Run.note (.badNorm d.head.name norm)
  modify fun s => s.putState d.state { s.state d.state with norm := norm }

/-- The coordinates in role order when the variable in role `i` has the value
`x` and the next one the value `y`. -/
def placed (p : PhaseSpace α) (i : Pair) (x y : α) : α × α × α :=
  let z := p.third x y
  match i with
  | .of12 => (x, y, z)
  | .of13 => (z, x, y)
  | .of23 => (y, z, x)

/-- Values go to the places that are marked, in order; the others hold zero. -/
def scatter : List Bool → List α → List α
  | true :: marks, v :: vs => v :: scatter marks vs
  | true :: marks, [] => 0.0 :: scatter marks []
  | false :: marks, vs => 0.0 :: scatter marks vs
  | [], _ => []

/-- The pieces of `n` entries each. -/
def rows (n : Nat) : Nat → List α → List (List α)
  | 0, _ => []
  | k + 1, vs => vs.take n :: rows n k (vs.drop n)

/-- The marginal density of the variable in role `i` at the values `xs`: the
density summed over the grid of the next variable. -/
def projectColumn (s : Store α) (d : Decay α) (i : Pair) (xs : List α) :
    Except (Fault α) (List α) := do
  let n := (s.state d.state).resolution
  let (ys, dy) ← Grid.bins (d.space.sqMin i.next) (d.space.sqMax i.next) n
  let points := xs.flatMap fun x => ys.map fun y => placed d.space i x y
  let marks := points.map fun (a, b, c) => d.space.contains Scalar.selfProduct a b c
  let inside := points.filter fun (a, b, c) => d.space.contains Scalar.selfProduct a b c
  let v ← d.evaluateAt s (.column (inside.map (·.1))) (.column (inside.map (·.2.1)))
    (some (.column (inside.map (·.2.2))))
  let vs ← v.repeatTo inside.length
  return (rows ys.length xs.length (scatter marks vs)).map fun row => Scalar.sum row * dy

/-- The marginal density of a variable; one for a variable the density does not
depend on. -/
def project (s : Store α) (d : Decay α) (name : String) (x : Value α) :
    Except (Fault α) (Value α) :=
  match d.roleOf? name with
  | none => .ok (.scalar 1.0)
  | some i =>
    match x with
    | .scalar x => do
      match ← d.projectColumn s i [x] with
      | [v] => return .scalar v
      | vs => return .column vs
    | .column xs => do return .column (← d.projectColumn s i xs)

/-- The registries of the density and of all its parts. -/
def registries (d : Decay α) : List RegistryId :=
  [d.head.vars, d.head.pars] ++ d.amplitude.registries ++ d.weights.flatMap (·.registries)

/-- The weight functions hold the cells of the density. -/
def bindWeights (vars pars : RegistryId) : List (Weight α) → Run α Unit
  | [] => pure ()
  | w :: rest => do
    w.bind vars pars
    bindWeights vars pars rest

/-- The amplitude and the weight functions hold the cells of the density. -/
def shareCells (d : Decay α) : Run α Unit := do
  d.amplitude.bind d.head.pars
  bindWeights d.head.vars d.head.pars d.weights

/-- The density and all its parts hold the shared cells of their names. -/
def bind (d : Decay α) (vars pars : RegistryId) : Run α Unit := do
  Run.rebind d.head.vars vars
  Run.rebind d.head.pars pars
  d.shareCells

end Decay

end DensityAlgebra
