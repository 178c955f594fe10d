/-
# Rational numbers as scalars

Sums, products, quotients and comparisons of rational numbers are exact, so that what a
session over them comes to can be evaluated where a single case is to be shown. The
elementary functions are only coarse: a root is that of numerator and denominator,
rounded down; other powers that are not whole are zero; exponential and logarithm are
straight lines; the others are constant. No rational number is infinite; where a number is to
grow out of range, those beyond 100 are taken to be.

The sample session makes a normal density over t with parameters a and w, a decay
density times a function of a parameter of the same name a but of another value, and
the product of the two.

Key definitions: `Rational.root`, `Limited`, `Sample.operands`, `Sample.product`, `Sample.calls`.
-/
import DensityAlgebra.Proofs.Sessions
import Mathlib.Data.Rat.Cast.Order

namespace DensityAlgebra

/-- The root of numerator and denominator, rounded down. -/
def Rational.root (x : ℚ) : ℚ := (Nat.sqrt x.num.toNat : ℚ) / (Nat.sqrt x.den : ℚ)

instance : Scalar ℚ where
  ofNat n := n
  pow x y := if y.den = 1 then x ^ y.num else if y = 1 / 2 then Rational.root x else 0
  exp x := 1 + x
  log x := x - 1
  sin _ := 0
  cos _ := 1
  tan _ := 0
  sqrt := Rational.root
  abs x := |x|
  hypot x y := Rational.root (x * x + y * y)
  angle _ _ := 0
  lt x y := decide (x < y)
  le x y := decide (x ≤ y)
  eq x y := decide (x = y)
  isNaN _ := false
  isFinite _ := true

/-- Rational numbers of which those beyond 100 count as infinite. -/
def Limited : Type := ℚ

namespace Limited

/-- The arithmetic is that of rational numbers. -/
abbrev scalar : Scalar ℚ :=
  { (inferInstance : Scalar ℚ) with isFinite := fun x => decide (|x| ≤ 100) }

instance : Scalar Limited := scalar

instance : DecidableEq Limited := inferInstanceAs (DecidableEq ℚ)

end Limited

namespace Sample

/-- The cells of the session: three variables of a decay, one more variable, and
parameters, two of which have one name. -/
def cells : List (Call ℚ) :=
  [ .cell ⟨.variable, "m12", .scalar 0, .scalar 0⟩,
    .cell ⟨.variable, "m13", .scalar 0, .scalar 0⟩,
    .cell ⟨.variable, "m23", .scalar 0, .scalar 0⟩,
    .cell ⟨.variable, "t", .scalar 0, .scalar 0⟩,
    .cell ⟨.parameter, "a", .scalar 1, .scalar 0⟩,
    .cell ⟨.parameter, "w", .scalar 1, .scalar 0⟩,
    .cell ⟨.parameter, "a", .scalar 2, .scalar 0⟩ ]

/-- A decay density times the second one of the parameters called a. -/
def decay : List (Call ℚ) :=
  [ .flat (.ofReal 1),
    .decay "Decay3Body" 0 1 2 7 ⟨7, 0, 1, 0⟩ (.ok 1) 14 (.ok 10) ⟨0⟩,
    .weight "eff" [⟨"a", .positionalOrNamed⟩] (.argument "a") [] [6],
    .make (.withWeight 8 9) ]

/-- The decay density and a composite of the normal density. -/
def operands : List (Call ℚ) :=
  cells ++ decay ++ [.gaussian "Gaussian" 3 4 5, .make (.single (.held 11))]

def product : Making ℚ := .build .product 12 (.held 10)

/-- Their product, and a copy of it. -/
def calls : List (Call ℚ) := operands ++ [.make product, .make (.copy 13)]

theorem eq_ok_of_toOption {ε β : Type} {x : Except ε β} {b : β} (h : b ∈ x.toOption) :
    x = .ok b := by
  cases x with
  | error e => cases h
  | ok c => exact congrArg Except.ok (Option.some.inj h)

/-- The composite that a run has made, and the store that it has left. -/
def composite? : Except (Fault ℚ) (Object ℚ) × Store ℚ → Option (Composite ℚ × Store ℚ)
  | (.ok (.density (.composite p)), t) => some (p, t)
  | _ => none

theorem outcome_of_composite? {r : Except (Fault ℚ) (Object ℚ) × Store ℚ} {q : Composite ℚ}
    {t : Store ℚ} (h : composite? r = some (q, t)) : r = (.ok (.density (.composite q)), t) := by
  unfold composite? at h
  split at h
  · rename_i p u
    obtain ⟨rfl, rfl⟩ : p = q ∧ u = t := by simpa using h
    rfl
  · simp at h

theorem exists_of_composite? {r : Except (Fault ℚ) (Object ℚ) × Store ℚ}
    (h : (composite? r).isSome = true) : ∃ q t, r = (.ok (.density (.composite q)), t) := by
  obtain ⟨⟨q, t⟩, hq⟩ := Option.isSome_iff_exists.mp h
  exact ⟨q, t, outcome_of_composite? hq⟩

/-- The first factor of the product is there. -/
theorem first_factor : ∃ p, .density (.composite p) ∈ (Session.after operands).objects := by
  have hheld : (Held.composite (Session.after operands).objects 12).isOk = true := by
    decide +kernel
  cases hp : Held.composite (Session.after operands).objects 12 with
  | error e =>
    rw [hp] at hheld
    simp [Except.isOk, Except.toBool] at hheld
  | ok p => exact ⟨p, List.mem_of_getElem? (Held.composite_eq_ok hp)⟩

/-- The two densities can be multiplied. -/
theorem product_made : ∃ q t, (product.run (Session.after operands).objects).outcome
    (Session.after operands).store = (.ok (.density (.composite q)), t) :=
  exists_of_composite? (by decide +kernel)

end Sample

end DensityAlgebra
