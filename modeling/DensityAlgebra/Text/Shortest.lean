/-
# The shortest text of a double

The fewest significant digits that read back as the same double, and of those
the nearest to it. The reals that round to a double form an interval, with its
ends included iff the significand is even. For one digit, two digits, and so on,
the two neighbours of the double on the grid of that many digits are tested;
seventeen digits always suffice.

Key definitions: `Shortest.inInterval`, `Shortest.digits`, `Text.shortest`.
-/
import DensityAlgebra.Text.Decimal

namespace DensityAlgebra

namespace Shortest

/-- Whether `c * 10 ^ p` is smaller than, equal to or larger than `x * 2 ^ q`. -/
def compareScaled (c : Nat) (p : Int) (x : Nat) (q : Int) : Ordering :=
  compare (c * Nat.pow 10 p.toNat * Nat.pow 2 (-q).toNat)
    (x * Nat.pow 2 q.toNat * Nat.pow 10 (-p).toNat)

/-- Whether `c * 10 ^ p` reads back as the double `m * 2 ^ e`. The lower half of
the interval is shorter where a power of two begins a new binade. -/
def inInterval (m : Nat) (e : Int) (c : Nat) (p : Int) : Bool :=
  let below := if m = Nat.pow 2 52 ∧ -1074 < e then 1 else 2
  let low := compareScaled c p (4 * m - below) (e - 2)
  let high := compareScaled c p (4 * m + 2) (e - 2)
  if m % 2 = 0 then low != .lt && high != .gt else low == .gt && high == .lt

/-- The neighbours of `m * 2 ^ e` on the grid of multiples of `10 ^ p`. -/
def neighbours (d : Decimal) (p : Int) : Nat × Nat :=
  if p ≤ d.exponent then
    let n := d.coefficient * Nat.pow 10 (d.exponent - p).toNat
    (n, n)
  else
    let n := d.coefficient / Nat.pow 10 (p - d.exponent).toNat
    (n, n + 1)

/-- The nearest neighbour on the grid of `10 ^ p` that reads back, if any does. -/
def pick (m : Nat) (e : Int) (d : Decimal) (p : Int) : Option Nat :=
  let (lo, hi) := neighbours d p
  match inInterval m e lo p, inInterval m e hi p with
  | true, true => some (d.scaleTo p)
  | true, false => some lo
  | false, true => some hi
  | false, false => none

/-- The first hit among grids of ever more digits, at most `fuel` grids. -/
def search (m : Nat) (e : Int) (d : Decimal) : Nat → Int → Nat × Int
  | 0, p => (d.scaleTo p, p)
  | fuel + 1, p =>
    match pick m e d p with
    | some c => (c, p)
    | none => search m e d fuel (p - 1)

/-- Without zeros at the end. -/
def trimZeros : Nat → Nat → Int → Nat × Int
  | 0, c, p => (c, p)
  | fuel + 1, c, p => if c ≠ 0 ∧ c % 10 = 0 then trimZeros fuel (c / 10) (p + 1) else (c, p)

/-- The shortest digits of `m * 2 ^ e` as one natural, and the power of ten that
it counts. -/
def digits (m : Nat) (e : Int) : Nat × Int :=
  if m = 0 then (0, 0)
  else
    let d := Decimal.ofBinary m e
    let (c, p) := search m e d 16 d.leadingExponent
    trimZeros 20 c p

end Shortest

namespace Text

/-- The digits `c * 10 ^ p`: positional with a fraction from the fourth place
after the point up to sixteen digits before it, otherwise with an exponent. -/
def shortestDigits (c : Nat) (p : Int) : List Char :=
  let ds := Nat.toDigits 10 c
  let lead := (ds.length : Int) - 1 + p
  if -4 ≤ lead ∧ lead < 16 then
    if 0 ≤ p then ds ++ List.replicate p.toNat '0' ++ ['.', '0']
    else pointed (-p).toNat c
  else
    let fraction := ds.drop 1
    ds.take 1 ++ (if fraction.isEmpty then [] else '.' :: fraction) ++ exponentMark lead

/-- The shortest text that reads back as the double. -/
def shortest (x : Float) : String :=
  match Binary64.ofFloat x with
  | .undefined => "nan"
  | .infinite negative => String.ofList (sign negative ++ ['i', 'n', 'f'])
  | .finite negative m e =>
    let (c, p) := Shortest.digits m e
    String.ofList (sign negative ++ shortestDigits c p)

end Text

end DensityAlgebra
