/-
# Descriptions

How cells, densities, expressions, phase spaces and results of fits describe
themselves: the kind, and in parentheses what identifies the object. Numbers are
written in their shortest form, except inside expressions and for masses, where
six digits do.

Key definitions: `Cell.describe`, `Model.describe`, `Composite.describe`,
`Expression.describe`, `Weight.describe`, `FitResult.describe`,
`PhaseSpace.describe`.
-/
import DensityAlgebra.Composite
import DensityAlgebra.Fault.Message
import DensityAlgebra.Text.Aligned

namespace DensityAlgebra

/-- A number inside an expression. -/
def constantLabel (x : Float) : String := Text.general 6 x

/-- A value as it stands in a description. -/
def Value.describe : Value Float → String
  | scalar x => Text.shortest x
  | column xs => Text.column xs

/-! Numbers and values are given as they are, and the numbers of a value are shown. -/

instance {α : Type} : Coe (Value α) (Content α) := ⟨.value⟩

instance {α : Type} : Coe α (Content α) := ⟨.scalar⟩

/-- What can be listed of what a cell holds: the numbers of a value, and else none. -/
def Content.shown {α : Type} : Content α → Value α
  | value v => v
  | _ => .column []

instance {α : Type} : CoeOut (Content α) (Value α) := ⟨Content.shown⟩

/-- The number of a content that has one. -/
def Content.number {α : Type} [Scalar α] : Content α → α
  | scalar x | object (some x) => x
  | _ => Scalar.undefined

instance {α : Type} [Scalar α] : CoeOut (Content α) α := ⟨Content.number⟩

/-- What a cell holds, as it stands in a description. Of an expression and of other
objects only that they are there is known. -/
def Content.describe : Content Float → String
  | value v => v.describe
  | datum d => d.describe
  | object _ => "..."

/-- The name of the kind of a cell. -/
def CellKind.kindName : CellKind → String
  | .variable => "Variable"
  | .parameter => "Parameter"

def Cell.describe (c : Cell Float) : String :=
  c.kind.kindName ++ "(" ++ Text.quoted c.name ++ ", value=" ++ c.value.describe ++ ", error="
    ++ c.error.describe ++ ")"

/-- The names that a density or function depends on. -/
def describeNames (vars pars : List String) : String :=
  "vars=" ++ Text.nameList vars ++ ", pars=" ++ Text.nameList pars

def Model.describe (s : Store Float) (m : Model Float) : String :=
  m.kindName ++ "(name=" ++ Text.quoted m.name ++ ", "
    ++ describeNames (m.varNames s) (m.parNames s) ++ ")"

def Weight.describe (s : Store Float) (w : Weight Float) : String :=
  "Function(" ++ Text.quoted w.name ++ ", "
    ++ describeNames (s.registry w.vars).sortedNames (s.registry w.pars).sortedNames ++ ")"

def Composite.describe (p : Composite Float) : Except (Fault Float) String := do
  return "Pdf(" ++ (← p.render constantLabel) ++ ")"

def Expression.describe (e : Expression Float) : Except (Fault Float) String := do
  return "ParameterExpr(" ++ (← e.render constantLabel) ++ ")"

/-- Names in parentheses, with a comma behind a single one. -/
def FitResult.describeNames (names : List String) : String :=
  "(" ++ String.intercalate ", " (names.map Text.quoted)
    ++ (if names.length = 1 then ",)" else ")")

/-- What a result knows of the minimizer. -/
def FitResult.describeStatistics (r : FitResult Float) : String :=
  match r.method with
  | some method =>
    "\x7b'method': " ++ Text.quoted method ++ ", 'nfev': " ++ toString r.evaluations ++ "\x7d"
  | none => "\x7b\x7d"

def FitResult.describe (r : FitResult Float) : String :=
  "FitResult(names=" ++ describeNames r.names ++ ", values=" ++ Text.column r.values
    ++ ", errors=" ++ Text.column r.errors ++ ", cov=" ++ (r.cov.map Text.table).getD "None"
    ++ ", nll=" ++ Text.shortest r.nll ++ ", success=" ++ Text.flag r.success ++ ", message="
    ++ Text.quoted r.message ++ ", stats=" ++ r.describeStatistics ++ ")"

def PhaseSpace.describe (p : PhaseSpace Float) : String :=
  "PhaseSpace(m_mother=" ++ Text.general 6 p.mother ++ ", m1=" ++ Text.general 6 p.m1 ++ ", m2="
    ++ Text.general 6 p.m2 ++ ", m3=" ++ Text.general 6 p.m3 ++ ")"

end DensityAlgebra
