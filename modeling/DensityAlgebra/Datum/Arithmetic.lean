/-
# Arithmetic of plain data

What an arithmetic operator makes of two plain data. Integers stay integers but
for quotients and powers with negative exponents; a real number makes the other
operand real, and a complex one makes it complex. Dividing by zero is refused, and
so is a power beyond all numbers, or an integer beyond them that has to become real;
a power of a negative number that is not real is complex. Texts, and rows, are joined
by a plus and repeated by an integer.

Key definitions: `Datum.combine`, `Datum.negate`.
-/
import DensityAlgebra.Datum.Conversion

namespace DensityAlgebra.Datum

variable {α : Type} [Scalar α]

/-- What an operator makes of complex numbers. -/
def combineComplex (op : Operation) (z w : ComplexNumber α) : Except (Fault α) (Datum α) :=
  match op with
  | .plus => .ok (.complex (z.add w))
  | .minus => .ok (.complex (z.sub w))
  | .mult => .ok (.complex (z.mul w))
  | .div => if w.isZero then .error .divisionByZero else .ok (.complex (z.div w))
  | .pow =>
    if z.isZero && (Scalar.lt w.re 0.0 || !Scalar.eq w.im 0.0) then .error .divisionByZero
    else
      let p := z.power w
      if ComplexNumber.isFinite z && ComplexNumber.isFinite w && !ComplexNumber.isFinite p then
        .error .overflow
      else .ok (.complex p)
  | _ => .error .unsupportedOperands

/-- The power of a real number, which is complex where no real number will do. -/
def powerReal (x y : α) : Except (Fault α) (Datum α) :=
  if Scalar.isFinite x && Scalar.isFinite y then
    let p := Scalar.pow x y
    if Scalar.eq x 0.0 && Scalar.lt y 0.0 then .error .divisionByZero
    else if Scalar.isNaN p then combineComplex .pow (.ofReal x) (.ofReal y)
    else if Scalar.isFinite p then .ok (.real p)
    else .error .overflow
  else .ok (.real (Scalar.pow x y))

/-- What an operator makes of real numbers. -/
def combineReal (op : Operation) (x y : α) : Except (Fault α) (Datum α) :=
  match op with
  | .plus => .ok (.real (x + y))
  | .minus => .ok (.real (x - y))
  | .mult => .ok (.real (x * y))
  | .div => if Scalar.eq y 0.0 then .error .divisionByZero else .ok (.real (x / y))
  | .pow => powerReal x y
  | _ => .error .unsupportedOperands

/-- What an operator makes of integers. -/
def combineInteger (op : Operation) (m n : Int) : Except (Fault α) (Datum α) :=
  match op with
  | .plus => .ok (.whole (m + n))
  | .minus => .ok (.whole (m - n))
  | .mult => .ok (.whole (m * n))
  | op =>
    if op = .pow ∧ 0 ≤ n then .ok (.whole (Int.pow m n.toNat))
    else do combineReal op (← toReal (.whole m)) (← toReal (.whole n))

/-- The list as often as an integer says. -/
def repeated {β : Type} (n : Int) (xs : List β) : List β :=
  (List.replicate n.toNat xs).flatten

/-- What an operator makes of a row or a text and something else. -/
def combineRow (op : Operation) (a b : Datum α) : Except (Fault α) (Datum α) :=
  match op, a, b with
  | .plus, text s, text t => .ok (.text (s ++ t))
  | .plus, list xs, list ys => .ok (.list (.ofList (xs.toList ++ ys.toList)))
  | .mult, text s, d | .mult, d, text s =>
    match d.integer? with
    | some n => .ok (.text (String.ofList (repeated n s.toList)))
    | none => .error .unsupportedOperands
  | .mult, list xs, d | .mult, d, list xs =>
    match d.integer? with
    | some n => .ok (.list (.ofList (repeated n xs.toList)))
    | none => .error .unsupportedOperands
  | _, _, _ => .error .unsupportedOperands

/-- What an operator makes of two data. -/
def combine (a : Datum α) (op : Operation) (b : Datum α) : Except (Fault α) (Datum α) :=
  match a.integer?, b.integer? with
  | some m, some n => combineInteger op m n
  | _, _ =>
    if a.isReal && b.isReal then do combineReal op (← a.toReal) (← b.toReal)
    else if a.isNumeric && b.isNumeric then do combineComplex op (← a.toComplex) (← b.toComplex)
    else combineRow op a b

/-- What a minus in front makes of a datum. -/
def negate : Datum α → Except (Fault α) (Datum α)
  | real x => .ok (.real (-x))
  | complex z => .ok (.complex z.neg)
  | d =>
    match d.integer? with
    | some n => .ok (.whole (-n))
    | none => .error .unsupportedOperands

end DensityAlgebra.Datum
