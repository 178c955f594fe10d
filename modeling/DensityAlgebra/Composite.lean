/-
# Composite densities

A composite density is a post-order program over its own copies of models, over
parameters and over numbers. Building one from operands never changes the
operands: the new composite owns independent copies of all that it embeds, and
its models share one cell per name with its registries. Where operands declare
the same name, the cell that was there first is kept.

A sum needs operands over the same variables, a product operands without a
common variable. An empty composite becomes its first operand.

Key definitions: `Composite`, `Operand`, `Composite.append`, `Composite.extended`,
`Composite.withSum`, `Composite.withProduct`, `Composite.withScale`,
`Composite.withDivision`, `Composite.evaluate`, `Composite.commonVars`.
-/
import DensityAlgebra.Copy

namespace DensityAlgebra

/-- A program over models, parameters and numbers. -/
structure Composite (α : Type) where
  program : Program α
  models : List (Model α)
  vars : RegistryId
  pars : RegistryId

/-- What can stand beside an operator. -/
inductive Operand (α : Type) where
  | parameter (c : CellId)
  | expression (e : Expression α)
  | plain (d : Datum α)
  | model (m : Model α)
  | composite (p : Composite α)
  | weight (w : Weight α)
  | operation (op : Operation)
  | other (kind : String)

namespace Operand

variable {α : Type}

/-- What messages call the operand. -/
def kindName : Operand α → String
  | parameter _ => "Parameter"
  | expression _ => "ParameterExpr"
  | plain d => d.kindName
  | model m => m.kindName
  | composite _ => "Pdf"
  | weight _ => "Function"
  | operation _ => "Operation"
  | other kind => kind

/-- Whether the operand is a density. -/
def isDensity : Operand α → Bool
  | model _ | composite _ => true
  | _ => false

/-- Whether the operand is arithmetic over parameters and numbers. -/
def isFactor : Operand α → Bool
  | parameter _ | expression _ => true
  | plain d => d.isReal
  | _ => false

end Operand

namespace Composite

variable {α : Type} [Scalar α]

/-- The empty composite. -/
def new : Run α (Composite α) := do
  return ⟨[], [], ← Run.newRegistry .empty, ← Run.newRegistry .empty⟩

def varNames (s : Store α) (p : Composite α) : List String := (s.registry p.vars).sortedNames

def parNames (s : Store α) (p : Composite α) : List String := (s.registry p.pars).sortedNames

/-- The registries of the composite and of its models. -/
def registries (p : Composite α) : List RegistryId :=
  [p.vars, p.pars] ++ p.models.flatMap (·.registries)

/-- An independent composite. -/
def copy (p : Composite α) : Run α (Composite α) := do
  let f ← Run.copyRegistries p.registries
  let models ← p.models.mapM (Model.detach f)
  return ⟨p.program, models, f p.vars, f p.pars⟩

/-- The models hold the shared cells of their names. -/
def bindModels (vars pars : RegistryId) : List (Model α) → Run α Unit
  | [] => pure ()
  | m :: rest => do
    m.bind vars pars
    bindModels vars pars rest

/-- A registry takes the cells of the names that it lacks. -/
def adopt (r : RegistryId) : List (String × CellId) → Run α Unit
  | [] => pure ()
  | (name, c) :: rest => do
    modify fun s => s.putRegistry r ((s.registry r).setDefault name c).2
    adopt r rest

/-- The variables and parameters of models, and their program, after those that
are there. -/
def appendModels (p : Composite α) (models : List (Model α)) (program : Program α) :
    Run α (Composite α) := do
  bindModels p.vars p.pars models
  return { p with models := p.models ++ models, program := p.program ++ program }

/-- An operand after those that are there; the composite is one that nobody else
holds. -/
def append (p : Composite α) : Operand α → Run α (Composite α)
  | .model m => do
    let m ← m.copy
    p.appendModels [m] [.leaf (.model p.models.length)]
  | .composite other => do
    let other ← other.copy
    Run.rebind other.vars p.vars
    Run.rebind other.pars p.pars
    p.appendModels other.models (other.program.shiftModels p.models.length)
  | .parameter c => do
    let x := (← get).cell c
    let c ← Run.newCell x
    adopt p.pars [(x.name, c)]
    return { p with program := p.program ++ [.leaf (.parameter x.name)] }
  | .expression e => do
    let e ← e.copy
    adopt p.pars e.pars.entries
    return { p with program := p.program ++ e.program }
  | .plain d =>
    match d.number? with
    | some x => return { p with program := p.program ++ [.leaf (.constant x)] }
    | none => throw (if d.isReal then .overflow else .cannotAppend d.kindName)
  | .operation op => return { p with program := p.program ++ [.binary op] }
  | operand => throw (.cannotAppend operand.kindName)

/-- The composite of one operand. -/
def ofOperand (x : Operand α) : Run α (Composite α) := do (← new).append x

/-- A copy with one more operand, joined by an operation. -/
def extended (p : Composite α) (x : Operand α) (op : Operation) : Run α (Composite α) := do
  let out ← p.copy
  if out.program.isEmpty then out.append x
  else (← out.append x).append (.operation op)

/-- The variables of a density. -/
def varNamesOf (s : Store α) : Operand α → List String
  | .model m => m.varNames s
  | .composite p => p.varNames s
  | _ => []

/-- The sum with another density over the same variables. -/
def withSum (p : Composite α) (x : Operand α) : Run α (Composite α) := do
  if !x.isDensity then throw (.cannotAdd x.kindName)
  let s ← get
  if !p.program.isEmpty && p.varNames s != varNamesOf s x then
    throw (.incompatibleVariables (p.varNames s) (varNamesOf s x))
  p.extended x .plus

/-- The product with another density over other variables. -/
def withProduct (p : Composite α) (x : Operand α) : Run α (Composite α) := do
  if !x.isDensity then throw (.cannotMultiply x.kindName)
  let s ← get
  let common := (p.varNames s).filter (varNamesOf s x).contains
  if !common.isEmpty then throw (.overlappingVariables common)
  p.extended x .mult

/-- The product with a factor. -/
def withScale (p : Composite α) (x : Operand α) : Run α (Composite α) := do
  if !x.isFactor then throw (.cannotScale x.kindName)
  p.extended x .mult

/-- The quotient by a factor. -/
def withDivision (p : Composite α) (x : Operand α) : Run α (Composite α) := do
  if !x.isFactor then throw (.cannotDivide x.kindName)
  p.extended x .div

/-- The models renew what they derive from their parameters, in order. -/
def cacheModels : List (Model α) → Run α Unit
  | [] => pure ()
  | m :: rest => do
    m.cache
    cacheModels rest

def cache (p : Composite α) : Run α Unit := cacheModels p.models

/-- The item at a position; a negative one counts from the end. -/
def itemAt {β : Type} (xs : List β) (i : Int) : Except (Fault α) β :=
  match xs[(if i < 0 then i + xs.length else i).toNat]? with
  | some x => if i + xs.length < 0 then .error .missingItem else .ok x
  | none => .error .missingItem

/-- The point that given values stand for; none are given for the current
values of the variables. -/
def point (s : Store α) (p : Composite α) :
    Input α → Except (Fault α) (Option (List (String × Given α)))
  | .nothing => .ok none
  | input => do return some (← Model.genericPoint "Pdf" (p.varNames s) input)

/-- What a leaf stands for at a point: a model its density at the values of its
own variables. -/
def leafValue (s : Store α) (p : Composite α) (point : Option (List (String × Given α))) :
    Leaf α → Except (Fault α) (Value α)
  | .model i => do
    let m ← itemAt p.models i
    match point with
    | none => m.evaluate s .nothing
    | some point =>
      m.density s (← (m.varNames s).mapM fun n =>
        match point.lookup n with
        | some v => .ok (n, v)
        | none => .error .missingKey)
  | .parameter name => do (← s.lookup p.pars name).given.operand
  | .constant x => .ok (.scalar x)

/-- The value of the program at given values of the variables, or at their
current values. -/
def evaluate (s : Store α) (p : Composite α) (input : Input α) : Except (Fault α) (Value α) := do
  let point ← p.point s input
  p.program.evaluate (p.leafValue s point)

/-- Sets of names: those of its variables for a model, their intersection for a
sum, their union for every other binary operation. -/
def nameSets (s : Store α) (p : Composite α) : Interpretation α (List String) where
  leaf
    | .model i => do return (← itemAt p.models i).varNames s
    | _ => .ok []
  binary op x y :=
    .ok (if op = .plus then x.filter y.contains else x ++ y.filter fun n => !x.contains n)
  unary _ x := .ok x

/-- The variables that the products of the expression share. -/
def commonVars (s : Store α) (p : Composite α) : Except (Fault α) (List String) := do
  return sortNames (← p.program.replay (p.nameSets s))

/-- The text of a leaf, given that of a number. -/
def leafText (p : Composite α) (number : α → String) : Leaf α → Except (Fault α) String
  | .model i => do return (← itemAt p.models i).name
  | .parameter name => .ok name
  | .constant x => .ok (number x)

/-- The infix text of the program; nothing for the empty one. -/
def render (p : Composite α) (number : α → String) : Except (Fault α) String :=
  if p.program.isEmpty then .ok ""
  else p.program.replay
    { Program.textual fun _ => "" with leaf := p.leafText number }

end Composite

end DensityAlgebra
