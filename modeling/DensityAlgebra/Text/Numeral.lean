/-
# Numerals

How numbers are read from text. A digit is a decimal digit of any script; the
digits of a script are ten code points in a row, zero first. An integer is an
optional sign and digits, between which single underscores may stand, and blanks
may surround it; one with very many digits is not read. A real number is a
decimal with an optional fraction and an optional power of ten, or a word.

Key definitions: `Text.digit?`, `Text.isBlank`, `Text.integer?`, `Text.real?`.
-/
import DensityAlgebra.Scalar
import DensityAlgebra.Text.Decimal

namespace DensityAlgebra.Text

/-- The zeros of all scripts that have decimal digits. -/
def zeros : List Nat :=
  [0x30, 0x660, 0x6f0, 0x7c0, 0x966, 0x9e6, 0xa66, 0xae6, 0xb66, 0xbe6, 0xc66, 0xce6, 0xd66,
   0xde6, 0xe50, 0xed0, 0xf20, 0x1040, 0x1090, 0x17e0, 0x1810, 0x1946, 0x19d0, 0x1a80, 0x1a90,
   0x1b50, 0x1bb0, 0x1c40, 0x1c50, 0xa620, 0xa8d0, 0xa900, 0xa9d0, 0xa9f0, 0xaa50, 0xabf0,
   0xff10, 0x104a0, 0x10d30, 0x11066, 0x110f0, 0x11136, 0x111d0, 0x112f0, 0x11450, 0x114d0,
   0x11650, 0x116c0, 0x11730, 0x118e0, 0x11950, 0x11c50, 0x11d50, 0x11da0, 0x16a60, 0x16ac0,
   0x16b50, 0x1d7ce, 0x1d7d8, 0x1d7e2, 0x1d7ec, 0x1d7f6, 0x1e140, 0x1e2f0, 0x1e950, 0x1fbf0]

/-- The value of a decimal digit. -/
def digit? (c : Char) : Option Nat :=
  (zeros.find? fun z => z ≤ c.toNat && c.toNat < z + 10).map (c.toNat - ·)

/-- The blanks that may surround a number. -/
def isBlank (c : Char) : Bool :=
  let n := c.toNat
  n == 0x20 || (0x9 ≤ n && n ≤ 0xd) || n == 0x85 || n == 0xa0 || n == 0x1680
    || (0x2000 ≤ n && n ≤ 0x200a) || n == 0x2028 || n == 0x2029 || n == 0x202f || n == 0x205f
    || n == 0x3000

/-- Without blanks on either side. -/
def withoutBlanks (cs : List Char) : List Char :=
  ((cs.dropWhile isBlank).reverse.dropWhile isBlank).reverse

/-- The digits in front, the last one first, and what follows them; single
underscores may stand between digits. -/
def leadingDigits : List Char → List Nat → List Nat × List Char
  | '_' :: c :: rest, d :: ds =>
    match digit? c with
    | some e => leadingDigits rest (e :: d :: ds)
    | none => (d :: ds, '_' :: c :: rest)
  | c :: rest, ds =>
    match digit? c with
    | some d => leadingDigits rest (d :: ds)
    | none => (ds, c :: rest)
  | [], ds => (ds, [])

/-- The number of digits, of which the last one comes first. -/
def ofDigits (ds : List Nat) : Nat := ds.foldr (fun d n => 10 * n + d) 0

/-- More digits than this are not read. -/
def mostDigits : Nat := 4300

/-- The natural number that digits spell. -/
def natural? (cs : List Char) : Option Nat :=
  let (ds, rest) := leadingDigits cs []
  if ds.isEmpty || !rest.isEmpty || mostDigits < ds.length then none else some (ofDigits ds)

/-- Whether there is a minus sign in front, and what follows the sign. -/
def signed : List Char → Bool × List Char
  | '-' :: rest => (true, rest)
  | '+' :: rest => (false, rest)
  | cs => (false, cs)

/-- The integer that characters spell. -/
def integerOf? (cs : List Char) : Option Int :=
  let (negative, cs) := signed cs
  (natural? cs).map fun n => if negative then -(n : Int) else n

/-- The integer that a text spells. -/
def integer? (s : String) : Option Int := integerOf? (withoutBlanks s.toList)

/-- The number nearest to `c * 10 ^ e`; one far beyond all doubles is infinite. -/
def nearest {α : Type} [Scalar α] (c : Nat) (e : Int) : α :=
  let lead := ((Nat.toDigits 10 c).length : Int) + e
  if c = 0 ∨ lead < -400 then 0.0
  else if 400 < lead then 1.0 / 0.0
  else OfScientific.ofScientific c (e < 0) e.natAbs

/-- The power of ten that stands behind an `e`, if anything stands there. -/
def power? : List Char → Option Int
  | [] => some 0
  | c :: rest =>
    if c = 'e' || c = 'E' then
      let (negative, cs) := signed rest
      let (ds, rest) := leadingDigits cs []
      if ds.isEmpty || !rest.isEmpty then none
      else some (if negative then -(ofDigits ds : Int) else ofDigits ds)
    else none

/-- The number that digits with a fraction and a power of ten spell. -/
def decimal? {α : Type} [Scalar α] (cs : List Char) : Option α :=
  let (whole, rest) := leadingDigits cs []
  let (fraction, rest) := match rest with
    | '.' :: rest => leadingDigits rest []
    | rest => ([], rest)
  if whole.isEmpty && fraction.isEmpty then none
  else (power? rest).map fun e => nearest (ofDigits (fraction ++ whole)) (e - fraction.length)

/-- The number that a text spells: a decimal, or a word for a number that is
infinite or undefined. -/
def real? {α : Type} [Scalar α] (s : String) : Option α :=
  let (negative, cs) := signed (withoutBlanks s.toList)
  let word := String.ofList (cs.map Char.toLower)
  let size :=
    if word = "inf" || word = "infinity" then some (1.0 / 0.0)
    else if word = "nan" then some Scalar.undefined
    else decimal? cs
  size.map fun x => if negative then -x else x

end DensityAlgebra.Text
