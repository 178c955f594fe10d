/-
# Weight functions

A scalar function of variables and parameters that multiplies a density, such as
an efficiency or an acceptance. Its arguments are exactly its variables and its
parameters, bound by name.

Key definitions: `Weight`, `Run.newWeight`, `Weight.evaluate`, `Weight.factor`,
`Weight.bind`.
-/
import DensityAlgebra.Formula
import DensityAlgebra.Signature
import DensityAlgebra.Assignment

namespace DensityAlgebra

/-- A named formula over the cells of two registries. -/
structure Weight (α : Type) where
  name : String
  vars : RegistryId
  pars : RegistryId
  body : Formula α

namespace Weight

variable {α : Type} [Scalar α]

/-- Whether a name is one of the variables. -/
def dependsOn (s : Store α) (w : Weight α) (name : String) : Bool :=
  (s.registry w.vars).contains name

/-- The value of an argument where some variables are given and the others, like
the parameters, have their current values. -/
def argument (s : Store α) (w : Weight α) (given : List (String × Given α)) (name : String) :
    Except (Fault α) (Given α) :=
  match (s.registry w.vars).find? name with
  | some c => .ok ((given.lookup name).getD (s.cell c).value.given)
  | none => do return (← s.lookup w.pars name).given

/-- The value where some variables are given. -/
def evaluate (s : Store α) (w : Weight α) (given : List (String × Given α)) :
    Except (Fault α) (Value α) :=
  w.body.evaluateGiven (w.argument s given)

/-- The factor that the function contributes where some variables are given, in
arithmetic on columns. -/
def factor (s : Store α) (w : Weight α) (given : List (String × Given α)) :
    Except (Fault α) (Value α) :=
  w.body.evaluate fun name => do (← w.argument s given name).array

/-- What looking for a name in a row comes to: it is not found, it is found where no
name is of use, or something in front of it is a column, which cannot be compared
with a name unless it has one entry. -/
def lookInRow (name : String) : List (Given α) → Except (Fault α) Unit
  | [] => .ok ()
  | .datum (.text s) :: rest => if s = name then .error .notANumber else lookInRow name rest
  | .value v :: rest =>
    if v.entries.length ≠ 1 then .error .shapeMismatch else lookInRow name rest
  | _ :: rest => lookInRow name rest

/-- What looking for the names of variables in a form that is no mapping comes
to: nothing is found, or the form does not even let anything be looked for. An
empty form holds no name. -/
def lookThrough (names : List String) (input : Input α) : Except (Fault α) Unit :=
  if names.isEmpty || input.isEmpty then .ok ()
  else
    match input with
    | .mapping _ | .nothing => .ok ()
    | .row gs => names.forM fun n => lookInRow n gs
    | .text t =>
      if names.any fun n => n.isEmpty || 1 < (t.splitOn n).length then .error .notANumber
      else .ok ()
    | .result _ => .error .missingKey
    | .single _ => .error .notIterable

/-- The value for given values of variables in some form; names that are no
variables, and forms that hold no names, are passed over. -/
def evaluateInput (s : Store α) (w : Weight α) (input : Input α) :
    Except (Fault α) (Value α) := do
  lookThrough (s.registry w.vars).names input
  match input with
  | .mapping entries =>
    w.evaluate s (entries.map fun (name, e) => (name, e.toGiven))
  | _ => w.evaluate s []

/-- The registries of the function. -/
def registries (w : Weight α) : List RegistryId := [w.vars, w.pars]

def rename (f : RegistryId → RegistryId) (w : Weight α) : Weight α :=
  { w with vars := f w.vars, pars := f w.pars }

/-- The function holds the shared cells of its names. -/
def bind (w : Weight α) (vars pars : RegistryId) : Run α Unit := do
  Run.rebind w.vars vars
  Run.rebind w.pars pars

end Weight

/-- A function given by a formula, a signature and cells; the signature names
exactly the cells. -/
def Run.newWeight {α : Type} [Scalar α] (name : String) (args : List Argument) (body : Formula α)
    (varCells parCells : List CellId) : Run α (Weight α) := do
  if !Signature.isWellFormed args then throw .badSignature
  let vars ← newRegistryOf .variable varCells
  let pars ← newRegistryOf .parameter parCells
  let declared ← reading fun _ => Signature.names args
  let s ← get
  let bound := (s.registry vars).names ++ (s.registry pars).names
  let unbound := declared.filter fun n => !bound.contains n
  let unknown := (bound.filter fun n => !declared.contains n).eraseDups
  if !(unbound.isEmpty && unknown.isEmpty) then
    throw (.argumentMismatch name (sortNames unbound) (sortNames unknown))
  if (s.registry vars).names.any (s.registry pars).contains then throw .variableAndParameter
  return ⟨name, vars, pars, body⟩

end DensityAlgebra
