/-
# Decay amplitudes

The amplitude of a three-body decay is a tree: at its leaves stand constants and
resonances, and a sum adds up terms, each an amplitude times a complex
coefficient. Parameters are read through the registry of the node that names
them, so nodes that hold the same cells change together. A node occurs in as many
sums as it is put into; it is known by its registry.

Key definitions: `Amplitude`, `Amplitude.Terms`, `Amplitude.evaluate`,
`Amplitude.bind`, `Run.newSum`.
-/
import DensityAlgebra.ComplexNumber
import DensityAlgebra.Given
import DensityAlgebra.PhaseSpace
import DensityAlgebra.Store

namespace DensityAlgebra

mutual

/-- An amplitude tree. -/
inductive Amplitude (α : Type) where
  /-- The same complex number everywhere. -/
  | flat (pars : RegistryId) (constant : ComplexNumber α)
  /-- A resonance of given mass and width in one pair. -/
  | resonance (pars : RegistryId) (mass width : String) (channel : Pair)
  /-- Terms with complex coefficients. -/
  | sum (pars : RegistryId) (terms : Amplitude.Terms α)

/-- The terms of a sum: the parameters of a coefficient's parts, and what the
coefficient multiplies. -/
inductive Amplitude.Terms (α : Type) where
  | nil
  | cons (re im : String) (factor : Amplitude α) (rest : Amplitude.Terms α)

end

namespace Amplitude

variable {α : Type}

/-- The registry of the topmost node. -/
def pars : Amplitude α → RegistryId
  | flat r _ => r
  | resonance r .. => r
  | sum r _ => r

/-- The name of the kind of the topmost node. -/
def kindName : Amplitude α → String
  | flat .. => "FlatAmplitude"
  | resonance .. => "BreitWigner"
  | sum .. => "ResonanceSum"

mutual

/-- The registries of all nodes, each before those below it. -/
def registries : Amplitude α → List RegistryId
  | flat r _ => [r]
  | resonance r .. => [r]
  | sum r terms => r :: terms.registries

def Terms.registries : Terms α → List RegistryId
  | .nil => []
  | .cons _ _ factor rest => factor.registries ++ rest.registries

end

mutual

/-- The tree with other registries in the same places. -/
def rename (f : RegistryId → RegistryId) : Amplitude α → Amplitude α
  | flat r z => flat (f r) z
  | resonance r mass width channel => resonance (f r) mass width channel
  | sum r terms => sum (f r) (terms.rename f)

def Terms.rename (f : RegistryId → RegistryId) : Terms α → Terms α
  | .nil => .nil
  | .cons re im factor rest => .cons re im (factor.rename f) (rest.rename f)

end

def Terms.ofList : List (String × String × Amplitude α) → Terms α
  | [] => .nil
  | (re, im, factor) :: rest => .cons re im factor (ofList rest)

variable [Scalar α]

mutual

/-- Every node, from the top down, holds the shared cells of its names. -/
def bind (shared : RegistryId) : Amplitude α → Run α Unit
  | flat r _ => Run.rebind r shared
  | resonance r .. => Run.rebind r shared
  | sum r terms => do
    Run.rebind r shared
    terms.bind shared

def Terms.bind (shared : RegistryId) : Terms α → Run α Unit
  | .nil => pure ()
  | .cons _ _ factor rest => do
    factor.bind shared
    rest.bind shared

end

/-- The square of a mass; a single finite mass must have a finite square. -/
def massSquare : Value α → Except (Fault α) (Value α)
  | .scalar m =>
    match Scalar.square? m with
    | some y => .ok (.scalar y)
    | none => .error .overflow
  | .column ms => .ok (Value.column ms).square

/-- The propagator `1 / (m² - s - i m Γ)` of a resonance. -/
def propagator (m width s : Value α) : Except (Fault α) (Value (ComplexNumber α)) := do
  let distance ← Value.combine (fun x y => x - y) (← massSquare m) s
  let damping ← Value.combine
    (fun z g => ComplexNumber.mul z (.ofReal g))
    (m.map fun x => ComplexNumber.imaginaryUnit.mul (.ofReal x)) width
  let inverse ← Value.combine (fun x z => (ComplexNumber.ofReal x).sub z) distance damping
  return inverse.map fun z => (ComplexNumber.ofReal 1.0).div z

/-- The coefficient of a term, whose parts are single numbers. -/
def coefficient (s : Store α) (r : RegistryId) (re im : String) :
    Except (Fault α) (ComplexNumber α) := do
  let x ← s.lookup r re
  let y ← s.lookup r im
  return ⟨← (← x.given.operand).single?, ← (← y.given.operand).single?⟩

mutual

/-- The amplitude at one point or at a column of points. -/
def evaluate (s : Store α) (m12 m13 m23 : Given α) :
    Amplitude α → Except (Fault α) (Value (ComplexNumber α))
  | flat _ z => Value.combine₃ (fun _ _ _ => z) m12.extent m13.extent m23.extent
  | resonance r mass width channel => do
    let m ← s.lookup r mass
    let g ← s.lookup r width
    propagator (← m.given.plain) (← g.given.plain) (← (channel.select m12 m13 m23).read)
  | sum r terms => terms.evaluate s r m12 m13 m23 (.scalar .zero)

/-- The terms, added one by one to what came before. -/
def Terms.evaluate (s : Store α) (r : RegistryId) (m12 m13 m23 : Given α) :
    Terms α → Value (ComplexNumber α) → Except (Fault α) (Value (ComplexNumber α))
  | .nil, total => .ok total
  | .cons re im factor rest, total => do
    let c ← coefficient s r re im
    let a ← factor.evaluate s m12 m13 m23
    let total ← Value.combine (fun t z => ComplexNumber.add t z) total (a.map c.mul)
    rest.evaluate s r m12 m13 m23 total

end

end Amplitude

namespace Run

variable {α : Type} [Scalar α]

/-- A constant amplitude. -/
def newFlat (constant : ComplexNumber α) : Run α (Amplitude α) := do
  return .flat (← newRegistry .empty) constant

/-- The pair that a channel is named after. -/
def channelOf : String → Except (Fault α) Pair
  | "12" => .ok .of12
  | "13" => .ok .of13
  | "23" => .ok .of23
  | other => .error (.unknownChannel other)

/-- A resonance over the cells of its mass and its width. -/
def newResonance (mass width : CellId) (channel : String) : Run α (Amplitude α) := do
  let pair ← reading fun _ => channelOf channel
  let r ← newRegistryOf .parameter [mass, width]
  let s ← get
  return .resonance r (s.cell mass).name (s.cell width).name pair

/-- Cells gathered by name; two different cells must not share a name. -/
def gather (s : Store α) : List CellId → Registry → Except (Fault α) Registry
  | [], found => .ok found
  | c :: rest, found =>
    let name := (s.cell c).name
    let (held, found) := found.setDefault name c
    if held = c then gather s rest found else .error (.twoCells name)

/-- A sum of terms over the cells of its coefficients and of its terms. -/
def newSum (terms : List (CellId × CellId × Amplitude α)) : Run α (Amplitude α) := do
  let s ← get
  let cells := terms.flatMap fun (re, im, a) => re :: im :: (s.registry a.pars).cells
  let found ← reading fun _ => gather s cells .empty
  let r ← newRegistryOf .parameter found.cells
  return .sum r (.ofList (terms.map fun (re, im, a) => ((s.cell re).name, (s.cell im).name, a)))

end Run

end DensityAlgebra
