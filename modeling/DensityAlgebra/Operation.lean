/-
# Operations

The operations that a program can apply to one or two numbers. A symbol names
each of them; five are binary and six unary.

Key definitions: `Operation`, `Operation.symbol`, `Operation.isBinary`,
`Operation.binary`, `Operation.unary`.
-/
import DensityAlgebra.Scalar

namespace DensityAlgebra

inductive Operation where
  | plus | minus | mult | div | pow
  | neg | exp | log | sin | cos | tan
  deriving DecidableEq, Repr

namespace Operation

def all : List Operation := [plus, minus, mult, div, pow, neg, exp, log, sin, cos, tan]

/-- The symbol that a rendered program shows. -/
def symbol : Operation → String
  | plus => "+"
  | minus => "-"
  | mult => "*"
  | div => "/"
  | pow => "**"
  | neg => "neg"
  | exp => "exp"
  | log => "log"
  | sin => "sin"
  | cos => "cos"
  | tan => "tan"

/-- The operation of a symbol. -/
def ofSymbol? (s : String) : Option Operation := all.find? (·.symbol == s)

/-- The name of the member in error messages. -/
def label : Operation → String
  | plus => "PLUS"
  | minus => "MINUS"
  | mult => "MULT"
  | div => "DIV"
  | pow => "POW"
  | neg => "NEG"
  | exp => "EXP"
  | log => "LOG"
  | sin => "SIN"
  | cos => "COS"
  | tan => "TAN"

/-- Whether the operation takes two operands; otherwise it takes one. -/
def isBinary : Operation → Bool
  | plus | minus | mult | div | pow => true
  | neg | exp | log | sin | cos | tan => false

variable {α : Type} [Scalar α]

/-- The function of a binary operation; a unary one gives its left operand back. -/
def binary : Operation → α → α → α
  | plus, x, y => x + y
  | minus, x, y => x - y
  | mult, x, y => x * y
  | div, x, y => x / y
  | pow, x, y => Scalar.pow x y
  | _, x, _ => x

/-- The function of a unary operation; a binary one gives its operand back. -/
def unary : Operation → α → α
  | neg, x => -x
  | exp, x => Scalar.exp x
  | log, x => Scalar.log x
  | sin, x => Scalar.sin x
  | cos, x => Scalar.cos x
  | tan, x => Scalar.tan x
  | _, x => x

end Operation

end DensityAlgebra
