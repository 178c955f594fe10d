/-
# Formulas of named arguments

The body of a function that is given by a formula: arithmetic, a few elementary
functions, and arguments that are bound by name. A formula is evaluated entry by
entry on columns.

Key definitions: `Formula`, `Formula.evaluate`, `Formula.atPoint`.
-/
import DensityAlgebra.Value

namespace DensityAlgebra

/-- The one-argument functions of formulas. -/
inductive Formula.Unary where
  | neg | exp | log | sin | cos | abs | sqrt
  deriving Repr, DecidableEq

/-- The two-argument functions of formulas. -/
inductive Formula.Binary where
  | add | sub | mul | div | pow | max | min
  deriving Repr, DecidableEq

/-- A formula over numbers and named arguments. -/
inductive Formula (α : Type) where
  | argument (name : String)
  | constant (x : α)
  | unary (f : Formula.Unary) (x : Formula α)
  | binary (f : Formula.Binary) (x y : Formula α)
  deriving Repr

instance {α : Type} : Inhabited (Formula α) := ⟨.argument ""⟩

namespace Formula

/-- The function that a formula calls by this word. -/
def Unary.ofSymbol? : String → Option Unary
  | "neg" => some neg
  | "exp" => some exp
  | "log" => some log
  | "sin" => some sin
  | "cos" => some cos
  | "abs" => some abs
  | "sqrt" => some sqrt
  | _ => none

/-- The function that a formula writes with this sign or word. -/
def Binary.ofSymbol? : String → Option Binary
  | "+" => some add
  | "-" => some sub
  | "*" => some mul
  | "/" => some div
  | "**" => some pow
  | "max" => some max
  | "min" => some min
  | _ => none

variable {α : Type} [Scalar α]

def Unary.apply : Unary → α → α
  | neg, x => -x
  | exp, x => Scalar.exp x
  | log, x => Scalar.log x
  | sin, x => Scalar.sin x
  | cos, x => Scalar.cos x
  | abs, x => Scalar.abs x
  | sqrt, x => Scalar.sqrt x

def Binary.apply : Binary → α → α → α
  | add, x, y => x + y
  | sub, x, y => x - y
  | mul, x, y => x * y
  | div, x, y => x / y
  | pow, x, y => Scalar.pow x y
  | max, x, y => Scalar.max x y
  | min, x, y => Scalar.min x y

/-- The function of two values. -/
def Binary.combine : Binary → Value α → Value α → Except (Fault α) (Value α)
  | pow, u, v => u.power v
  | f, u, v => Value.combine f.apply u v

/-- The value of a formula where `env` gives the arguments; what it fails to give
only counts if the formula asks for it. -/
def evaluate (env : String → Except (Fault α) (Value α)) :
    Formula α → Except (Fault α) (Value α)
  | argument name => env name
  | constant x => .ok (.scalar x)
  | unary f x => do return (← x.evaluate env).map f.apply
  | binary f x y => do
    let u ← x.evaluate env
    let v ← y.evaluate env
    f.combine u v

/-- The value of a formula in the coordinates `x0`, `x1` and so on of a point. -/
def atPoint (body : Formula α) (x : List α) : Except (Fault α) α := do
  let v ← body.evaluate fun name =>
    match (List.range x.length).find? fun i => "x" ++ toString i = name with
    | some i => .ok (.scalar (x.getD i 0.0))
    | none => .error .missingKey
  v.single?

end Formula

end DensityAlgebra
