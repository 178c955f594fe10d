/-
# Signatures

The arguments that a function declares. In a signature, arguments have different
names, and come in the order of their kinds: first those that are passed by position
only, last those that are passed by name only. Functions of variables and
parameters get every argument by name, so a signature with open-ended or
positional-only arguments is refused.

Key definitions: `Argument`, `Signature.isWellFormed`, `Signature.names`.
-/
import DensityAlgebra.Fault

namespace DensityAlgebra

/-- How an argument may be passed, in the order in which signatures have them. -/
inductive ArgumentKind where
  | positionalOnly
  | positionalOrNamed
  | openPositional
  | namedOnly
  | openNamed
  deriving Repr, DecidableEq

/-- A declared argument. -/
structure Argument where
  name : String
  kind : ArgumentKind
  deriving Repr, DecidableEq

namespace Signature

variable {α : Type}

/-- An argument that can be bound by name. -/
def check (a : Argument) : Except (Fault α) String :=
  match a.kind with
  | .openPositional | .openNamed => .error .openEndedArguments
  | .positionalOnly => .error .positionalOnlyArguments
  | .positionalOrNamed | .namedOnly => .ok a.name

/-- Whether a name is made of letters, digits and underscores, and does not start
with a digit. Of letters, only those of the alphabet are told from other signs. -/
def isIdentifier (name : String) : Bool :=
  let fits (c : Char) := c.isAlphanum || c = '_' || 128 ≤ c.toNat
  match name.toList with
  | [] => false
  | c :: rest => fits c && !c.isDigit && rest.all fits

/-- Whether the kinds are in order. -/
def isSorted : List ArgumentKind → Bool
  | k :: l :: rest => k.ctorIdx ≤ l.ctorIdx && isSorted (l :: rest)
  | _ => true

/-- Whether the arguments make up a signature. -/
def isWellFormed (args : List Argument) : Bool :=
  let ns := args.map (·.name)
  ns.all isIdentifier && ns.eraseDups.length = ns.length && isSorted (args.map (·.kind))

/-- The names of the arguments, all of which can be bound by name. -/
def names (args : List Argument) : Except (Fault α) (List String) :=
  if isWellFormed args then args.mapM check else .error .badSignature

end Signature

end DensityAlgebra
