/-
# Infix text

Arithmetic over names as it is written: operators between their operands, a minus in
front of one, functions before an argument in parentheses. Where parentheses are missing,
how tightly the operators bind decides what belongs together. Usually powers bind most
tightly and group to the right; a minus in front comes next, then products and quotients,
then sums and differences, all of which group to the left.

A text is read word by word. The reader wants an operand or has one; around the operand
stand the operators and parentheses that wait for their right ends. An operator that comes
in first completes those that bind the operand before it more tightly, and a closing
parenthesis completes all of them.

Key definitions: `Infix.Word`, `Infix.words`, `Infix.Binding`, `Infix.State`, `Infix.step`,
`Infix.read`.
-/
import DensityAlgebra.Program.Tree
import DensityAlgebra.Signature

namespace DensityAlgebra

namespace Infix

/-! ### Words -/

/-- What a text is made of. A mark is the sign of a binary operation; that of the
difference also stands for a minus in front. -/
inductive Word where
  | name (s : String)
  | mark (op : Operation)
  | opening
  | closing
  deriving DecidableEq, Repr

/-- Whether a character can stand in a name. -/
def isNameChar (c : Char) : Bool := c.isAlphanum || c = '_' || 128 ≤ c.toNat

/-- The words that are single signs. -/
def sign? : Char → Option Word
  | '+' => some (.mark .plus)
  | '-' => some (.mark .minus)
  | '*' => some (.mark .mult)
  | '/' => some (.mark .div)
  | '(' => some .opening
  | ')' => some .closing
  | _ => none

/-- The words of a text; blanks are left out, and a name is as long as it can be. -/
def words : List Char → Option (List Word)
  | [] => some []
  | c :: cs =>
    if c = ' ' then words cs
    else if isNameChar c then
      if c.isDigit then none
      else (words (cs.dropWhile isNameChar)).map
        (.name (String.ofList (c :: cs.takeWhile isNameChar)) :: ·)
    else if c = '*' ∧ cs.head? = some '*' then (words cs.tail).map (.mark .pow :: ·)
    else (sign? c).bind fun w => (words cs).map (w :: ·)
termination_by cs => cs.length
decreasing_by
  all_goals simp only [List.length_cons, List.length_tail]
  · omega
  · exact Nat.lt_succ_of_le (List.dropWhile_sublist isNameChar).length_le
  · omega
  · omega

/-! ### Binding -/

/-- How tightly operations bind, and which ones group to the right. -/
structure Binding where
  rank : Operation → Nat
  groupsRight : Operation → Bool

namespace Binding

/-- Whether an operation that comes in completes one that waits for its right end. -/
def completes (b : Binding) (incoming waiting : Operation) : Bool :=
  b.rank incoming < b.rank waiting ||
    (b.rank incoming = b.rank waiting && !b.groupsRight incoming)

/-- Binding with a minus in front of rank `minus`; sums and differences have rank 1,
products and quotients 2, powers 4. -/
def withMinus (minus : Nat) : Binding where
  rank
    | .plus | .minus => 1
    | .mult | .div => 2
    | .pow => 4
    | _ => minus
  groupsRight op := op = .pow

/-- The usual binding: a minus in front stands between powers and products. -/
def usual : Binding := withMinus 3

/-- The binding in which a minus in front comes before everything else. -/
def tight : Binding := withMinus 5

end Binding

/-! ### Reading -/

variable {α : Type}

/-- What waits for its right end. -/
inductive Frame (α : Type) where
  | minus
  | operator (op : Operation) (left : Tree α)
  | group
  | call (op : Operation)

/-- Where a reader is. -/
inductive State (α : Type) where
  | wants (frames : List (Frame α))
  | has (x : Tree α) (frames : List (Frame α))

/-- The function of a name. -/
def function? (s : String) : Option Operation :=
  [.exp, .log, .sin, .cos, .tan].find? fun op => op.symbol == s

/-- The operand with the operators completed that wait next to it, as long as they are
among the `done` ones. -/
def settle (done : Operation → Bool) : Tree α → List (Frame α) → Tree α × List (Frame α)
  | x, .minus :: rest =>
    if done .neg then settle done (.unary .neg x) rest else (x, .minus :: rest)
  | x, .operator op l :: rest =>
    if done op then settle done (.binary op l x) rest else (x, .operator op l :: rest)
  | x, frames => (x, frames)

/-- One word. -/
def step (b : Binding) : State α → Word → Option (State α)
  | .wants frames, .name s => some (.has (.leaf (.parameter s)) frames)
  | .wants frames, .opening => some (.wants (.group :: frames))
  | .wants frames, .mark .minus => some (.wants (.minus :: frames))
  | .has x frames, .mark op =>
    let (y, rest) := settle (b.completes op) x frames
    some (.wants (.operator op y :: rest))
  | .has x frames, .closing =>
    match settle (fun _ => true) x frames with
    | (y, .group :: rest) => some (.has y rest)
    | (y, .call op :: rest) => some (.has (.unary op y) rest)
    | _ => none
  | .has (.leaf (.parameter s)) frames, .opening =>
    (function? s).map fun op => .wants (.call op :: frames)
  | _, _ => none

/-- The words in order. -/
def run (b : Binding) : State α → List Word → Option (State α)
  | state, [] => some state
  | state, w :: rest => (step b state w).bind fun next => run b next rest

/-- What a reader ends with, if nothing is left open. -/
def State.result? : State α → Option (Tree α)
  | .wants _ => none
  | .has x frames =>
    match settle (fun _ => true) x frames with
    | (y, []) => some y
    | _ => none

/-- The tree that a text says, if it says one. -/
def read (b : Binding) (text : String) : Option (Tree α) := do
  (← run b (.wants []) (← words text.toList)).result?

example : read (α := Nat) .usual "-a ** -b * c" =
    some (.binary .mult (.unary .neg (.binary .pow (.leaf (.parameter "a"))
      (.unary .neg (.leaf (.parameter "b"))))) (.leaf (.parameter "c"))) := by
  cbv

end Infix

end DensityAlgebra
