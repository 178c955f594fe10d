/-
# Minimizers

A minimizer asks for the value of a function at one point after the other and in
the end reports a point. It is a tree of probes: what it asks next may depend on
the answers so far. Running it against an objective, which may be an action,
answers the probes in order.

Key definitions: `Search`, `Search.bind`, `Search.run`, `Search.scripted`,
`Report`, `Problem`, `Minimizer`.
-/
import DensityAlgebra.Fit.Hessian

namespace DensityAlgebra

/-- A search over points, with a result of type `β`. -/
inductive Search (α β : Type) where
  | done (result : β)
  | probe (x : List α) (next : α → Search α β)

namespace Search

variable {α β γ : Type}

protected def bind : Search α β → (β → Search α γ) → Search α γ
  | done b, f => f b
  | probe x next, f => probe x fun y => (next y).bind f

instance : Monad (Search α) where
  pure := done
  bind := Search.bind

/-- The value at a point. -/
def ask (x : List α) : Search α α := probe x done

/-- The result of a search whose probes an objective answers. -/
def run {m : Type → Type} [Monad m] (objective : List α → m α) : Search α β → m β
  | done b => pure b
  | probe x next => do run objective (next (← objective x))

/-- The values at given points, whatever they are. -/
def askAll : List (List α) → Search α (List α)
  | [] => pure []
  | x :: rest => do
    let y ← ask x
    return y :: (← askAll rest)

end Search

/-- What a minimizer is given: where to start, and bounds if there are any. -/
structure Problem (α : Type) where
  start : List α
  bounds : Option (List (Bounds α))

/-- What a minimizer reports. -/
structure Report (α : Type) where
  x : List α
  success : Bool
  message : String
  evaluations : Int

/-- A minimizer, which may report something of its own beside the point. -/
abbrev Minimizer (α β : Type) := Problem α → Search α (Report α × β)

/-- The minimizer that probes given points and then reports a given result,
together with the values it has seen. -/
def Search.scripted {α : Type} (trials : List (List α)) (report : Report α) :
    Minimizer α (List α) :=
  fun _ => do return (report, ← askAll trials)

end DensityAlgebra
