/-
# Objects

Whatever can be held under a name: cells, registries, expressions, densities,
weight functions, amplitudes, phase spaces, results of fits, samples of events,
random sources and curves. An object can be copied, taken apart, used as an
operand or as given values, and it describes itself.

Two objects are the same if they share what can change. Objects that cannot
change are told apart by a key.

Key definitions: `Object`, `Object.identity`, `Object.kindName`, `Object.operand`,
`Object.input`, `Object.registry?`, `Object.copy`, `Object.part`,
`Object.describe`.
-/
import DensityAlgebra.Description
import DensityAlgebra.Operators
import DensityAlgebra.Scalar.Double

namespace DensityAlgebra

/-- Anything that can be held under a name. -/
inductive Object (α : Type) where
  | cell (c : CellId)
  | registry (r : RegistryId)
  | expression (key : Nat) (e : Expression α)
  | density (d : Density α)
  | weight (w : Weight α)
  | amplitude (a : Amplitude α)
  | space (key : Nat) (p : PhaseSpace α)
  | result (key : Nat) (r : FitResult α)
  | sample (key : Nat) (columns : List (String × List α))
  | source (r : SourceId)
  | curve (key : Nat) (body : Formula α) (bounds : Option (α × α))
  | plain (key : Nat) (d : Datum α)

namespace Object

variable {α : Type}

/-- What tells objects apart. -/
def identity : Object α → Nat × Nat
  | cell c => (0, c.index)
  | registry r => (1, r.index)
  | density d => (1, d.vars.index)
  | weight w => (1, w.vars.index)
  | amplitude a => (1, a.pars.index)
  | expression k _ | space k _ | result k _ | sample k _ | curve k _ _ | plain k _ => (2, k)
  | source r => (3, r.index)

variable [Scalar α]

/-- The name of the kind of an object. -/
def kindName (s : Store α) : Object α → String
  | cell c => (s.cell c).kind.kindName
  | registry _ | sample .. => "dict"
  | expression .. => "ParameterExpr"
  | density (.model m) => m.kindName
  | density (.composite _) => "Pdf"
  | weight _ => "Function"
  | amplitude a => a.kindName
  | space .. => "PhaseSpace"
  | result .. => "FitResult"
  | source _ => "Rng"
  | curve .. => "StubDensity"
  | plain _ d => d.kindName

/-- The object beside an operator. -/
def operand (s : Store α) : Object α → Operand α
  | cell c =>
    match (s.cell c).kind with
    | .parameter => .parameter c
    | .variable => .other CellKind.variable.kindName
  | expression _ e => .expression e
  | density (.model m) => .model m
  | density (.composite p) => .composite p
  | weight w => .weight w
  | plain _ d => .plain d
  | o => .other (o.kindName s)

/-- The object that an operator made, which gets a key if it needs one; nothing if
there is no such object. -/
def ofOperand? (key : Nat) : Operand α → Option (Object α)
  | .parameter c => some (cell c)
  | .expression e => some (expression key e)
  | .model m => some (density (.model m))
  | .composite p => some (density (.composite p))
  | .weight w => some (weight w)
  | .plain d => some (plain key d)
  | .operation _ | .other _ => none

/-- The object under a name of a mapping. -/
def entry (s : Store α) : Object α → Entry α
  | cell c => .cell c
  | expression _ e => .given (.expression (e.value s))
  | plain _ d => .given (.ofDatum d)
  | _ => .given .object

/-- The object as given values. -/
def input (s : Store α) : Object α → Input α
  | result _ r => .result r
  | sample _ cols => .ofPairs (cols.map fun (n, xs) => (n, .raw (.column xs)))
  | registry r => .ofPairs ((s.registry r).entries.map fun (n, c) => (n, .cell c))
  | expression _ e => .single (.expression (e.value s))
  | plain _ d => .ofDatum d
  | _ => .single .object

/-- The variables or the parameters of an object. -/
def registry? (s : Store α) (kind : CellKind) : Object α → Option Registry
  | density d => some (s.registry (if kind = .variable then d.vars else d.pars))
  | weight w => some (s.registry (if kind = .variable then w.vars else w.pars))
  | amplitude a => some (s.registry a.pars)
  | expression _ e => some e.pars
  | registry r => some (s.registry r)
  | _ => none

/-- An independent object, which gets a key if it needs one. The copy of a registry
holds the same cells. -/
def copy (key : Nat) : Object α → Run α (Object α)
  | density (.model m) => do return density (.model (← m.copy))
  | density (.composite p) => do return density (.composite (← p.copy))
  | weight w => do return weight (← w.copy)
  | amplitude a => do return amplitude (← a.copy)
  | expression _ e => do return expression key (← e.copy)
  | cell c => do return cell (← Run.newCell ((← get).cell c))
  | registry r => do return registry (← Run.newRegistry ((← get).registry r))
  | space _ p => return space key p
  | sample _ cols => return sample key cols
  | o => return o

/-- A part of an object: a model of a composite, or a weight function of a decay
density, by its position; or the amplitude or the phase space of a decay density. -/
def part (name : String) (i : Int) : Object α → Except (Fault α) (Object α)
  | density (.composite p) =>
    if name = "models" then do return density (.model (← Composite.itemAt p.models i))
    else .error .unsupportedOperands
  | density (.model (.decay d)) =>
    match name with
    | "functions" => do return weight (← Composite.itemAt d.weights i)
    | "amplitude" => .ok (amplitude d.amplitude)
    | "phase_space" => .ok (space (2 * d.state.index + 1) d.space)
    | _ => .error .unsupportedOperands
  | _ => .error .unsupportedOperands

/-- Descriptions under names. -/
def describeMapping (entries : List (String × String)) : String :=
  "\x7b" ++ String.intercalate ", " (entries.map fun (n, t) => Text.quoted n ++ ": " ++ t) ++ "\x7d"

/-- How an object describes itself. -/
def describe (s : Store Float) : Object Float → Except (Fault Float) String
  | cell c => .ok (s.cell c).describe
  | expression _ e => e.describe
  | density (.model m) => .ok (m.describe s)
  | density (.composite p) => p.describe
  | weight w => .ok (w.describe s)
  | space _ p => .ok p.describe
  | result _ r => .ok r.describe
  | plain _ d => .ok d.describe
  | registry r =>
    .ok (describeMapping ((s.registry r).entries.map fun (n, c) => (n, (s.cell c).describe)))
  | sample _ cols => .ok (describeMapping (cols.map fun (n, xs) => (n, Text.column xs)))
  | o => .ok (o.kindName s)

end Object

end DensityAlgebra
