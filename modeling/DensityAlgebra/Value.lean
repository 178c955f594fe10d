/-
# Values

A value is one number, or a column of numbers that stand for as many events.
Functions apply to columns entry by entry. Two values combine if one of them is
a single number, if the columns are equally long, or if one of the columns has
length one; it is then repeated.

Key definitions: `Value`, `Value.map`, `Value.combine`, `Value.square`,
`Value.power`, `Value.single?`.
-/
import DensityAlgebra.Fault
import DensityAlgebra.Scalar.Sum

namespace DensityAlgebra

/-- A single number or a column of them. -/
inductive Value (α : Type) where
  | scalar (x : α)
  | column (xs : List α)
  deriving Repr, DecidableEq

namespace Value

variable {α β γ δ : Type}

/-- The function applied to every entry. -/
def map (f : β → γ) : Value β → Value γ
  | scalar x => scalar (f x)
  | column xs => column (xs.map f)

/-- The function applied to corresponding entries, where a single entry
corresponds to all. -/
def combine (f : β → γ → δ) : Value β → Value γ → Except (Fault α) (Value δ)
  | scalar x, scalar y => .ok (scalar (f x y))
  | scalar x, column ys => .ok (column (ys.map (f x)))
  | column xs, scalar y => .ok (column (xs.map (f · y)))
  | column xs, column ys =>
    if xs.length = ys.length then .ok (column (List.zipWith f xs ys))
    else
      match xs, ys with
      | [x], ys => .ok (column (ys.map (f x)))
      | xs, [y] => .ok (column (xs.map (f · y)))
      | _, _ => .error .shapeMismatch

/-- The function applied to corresponding entries of three values. -/
def combine₃ {ε : Type} (f : β → γ → δ → ε) (u : Value β) (v : Value γ) (w : Value δ) :
    Except (Fault α) (Value ε) := do
  let g ← combine (fun x y => f x y) u v
  combine (fun h z => h z) g w

/-- The entries. -/
def entries : Value β → List β
  | scalar x => [x]
  | column xs => xs

/-- The one number that a value is; a column is none, not even one of length one. -/
def single? : Value β → Except (Fault α) β
  | scalar x => .ok x
  | column _ => .error .notANumber

/-- The value repeated to a column of `n` entries. -/
def repeatTo (n : Nat) : Value β → Except (Fault α) (List β)
  | scalar x => .ok (List.replicate n x)
  | column xs =>
    if xs.length = n then .ok xs
    else
      match xs with
      | [x] => .ok (List.replicate n x)
      | _ => .error .shapeMismatch

/-- The square of every entry. -/
def square [Scalar α] : Value α → Value α
  | scalar x => scalar (Scalar.square x)
  | column xs => column (xs.map Scalar.selfProduct)

/-- The power of corresponding entries. An exponent that stands alone is shared by
all of them, as is one that has to be repeated. -/
def power [Scalar α] : Value α → Value α → Except (Fault α) (Value α)
  | v, scalar y => .ok (v.map (Scalar.sharedPower y))
  | column xs, column [y] =>
    .ok (column (if xs.length = 1 then xs.map (Scalar.pow · y)
      else xs.map (Scalar.sharedPower y)))
  | v, w => combine Scalar.pow v w

/-- The sum of the entries. -/
def total [Scalar α] : Value α → α
  | scalar x => x
  | column xs => Scalar.sum xs

end Value

end DensityAlgebra
