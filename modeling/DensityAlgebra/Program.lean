/-
# Post-order programs

A program is a list of nodes in post-order: operands stand before the operator
that consumes them. A program is replayed against a stack of operands, under an
interpretation that says what a leaf means and how operands combine. Evaluation,
rendering and the collection of variables are replays under different
interpretations.

A node is looked at before the stack: an operator of the wrong arity, or
something that is no node, is refused even where operands are missing too.

Key definitions: `Node`, `Program`, `Interpretation`, `Program.step`,
`Program.replay`, `Program.evaluate`, `Program.render`.
-/
import DensityAlgebra.Value

namespace DensityAlgebra

/-- One step of a program: push a leaf, or combine what is on the stack. -/
inductive Node (α : Type) where
  | leaf (l : Leaf α)
  | binary (op : Operation)
  | unary (op : Operation)
  | foreign (x : Datum α)
  deriving Repr, DecidableEq

/-- Nodes in post-order. -/
abbrev Program (α : Type) := List (Node α)

/-- What leaves and operators mean, with operands of type `β`. -/
structure Interpretation (α β : Type) where
  leaf : Leaf α → Except (Fault α) β
  binary : Operation → β → β → Except (Fault α) β
  unary : Operation → β → Except (Fault α) β

namespace Program

variable {α β : Type}

/-- One node against a stack whose head is the operand pushed last. -/
def step (I : Interpretation α β) : Node α → List β → Except (Fault α) (List β)
  | .leaf l, stack => do return (← I.leaf l) :: stack
  | .binary op, stack =>
    if !op.isBinary then .error (.unknownBinary op)
    else
      match stack with
      | right :: left :: rest => do return (← I.binary op left right) :: rest
      | _ => .error .binaryUnderflow
  | .unary op, stack =>
    if op.isBinary then .error (.unknownUnary op)
    else
      match stack with
      | x :: rest => do return (← I.unary op x) :: rest
      | [] => .error .unaryUnderflow
  | .foreign x, _ => .error (.unknownNode x)

/-- The nodes in order, each against the stack that the earlier ones left. -/
def run (I : Interpretation α β) : Program α → List β → Except (Fault α) (List β)
  | [], stack => .ok stack
  | node :: rest, stack => do run I rest (← step I node stack)

/-- The operand that a whole program leaves. -/
def replay (I : Interpretation α β) (p : Program α) : Except (Fault α) β := do
  match ← run I p [] with
  | [x] => return x
  | stack => throw (.leftover stack.length)

/-- Numbers as operands. -/
def numeric [Scalar α] (leaf : Leaf α → Except (Fault α) (Value α)) :
    Interpretation α (Value α) where
  leaf := leaf
  binary op := if op = .pow then Value.power else Value.combine op.binary
  unary op x := .ok (x.map op.unary)

/-- The value of a program, given those of its leaves. -/
def evaluate [Scalar α] (leaf : Leaf α → Except (Fault α) (Value α)) (p : Program α) :
    Except (Fault α) (Value α) :=
  replay (numeric leaf) p

/-- Texts as operands: operators between their operands and in parentheses, a
minus in front, functions before an argument in parentheses. -/
def textual (leaf : Leaf α → String) : Interpretation α String where
  leaf l := .ok (leaf l)
  binary op x y := .ok ("(" ++ x ++ " " ++ op.symbol ++ " " ++ y ++ ")")
  unary op x :=
    .ok (if op = .neg then "-" ++ x else op.symbol ++ "(" ++ x ++ ")")

/-- The infix text of a program, given those of its leaves. -/
def render (leaf : Leaf α → String) (p : Program α) : Except (Fault α) String :=
  replay (textual leaf) p

/-- The same program for a composite in which `offset` models come first. -/
def shiftModels (offset : Nat) (p : Program α) : Program α :=
  p.map fun
    | .leaf (.model i) => .leaf (.model (i + offset))
    | node => node

end Program

end DensityAlgebra
