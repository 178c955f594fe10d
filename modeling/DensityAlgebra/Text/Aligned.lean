/-
# Columns of numbers as text

A column of doubles stands in brackets, its entries aligned at the point. Up to
eight digits after the point are shown, of the shortest ones that read back.
Exponents are used for all entries if an entry is very large or very small or if
the entries differ by more than three decades; they are then all shown to the
same place, correctly rounded. Long lines are broken between entries, and of a very
long column only the ends are shown, together with its length. A table is a column
of rows, one below the other, with all entries in one layout.

Key definitions: `Text.Pieces`, `Text.Layout`, `Text.Layout.ofNumbers`,
`Text.Layout.entry`, `Text.fillLines`, `Text.column`, `Text.table`.
-/
import DensityAlgebra.Text.Shortest

namespace DensityAlgebra.Text

/-- The parts of a finite number: sign and digits before the point, digits after
it, and the power of ten. -/
structure Pieces where
  left : List Char
  right : List Char
  power : Int

/-- Without zeros at the end. -/
def withoutZeros (cs : List Char) : List Char := (cs.reverse.dropWhile (· == '0')).reverse

/-- The parts of a number of which the last `places` digits stand after the
point. -/
def splitAt (places n : Nat) : List Char × List Char :=
  let ds := padded (places + 1) n
  (ds.take (ds.length - places), withoutZeros (ds.drop (ds.length - places)))

/-- The parts without a power of ten. -/
def positionalPieces (negative : Bool) (m : Nat) (e : Int) : Pieces :=
  let (c, p) := Shortest.digits m e
  let (l, r) :=
    if 0 ≤ p then splitAt 0 (c * Nat.pow 10 p.toNat)
    else if -8 ≤ p then splitAt (-p).toNat c
    else splitAt 8 ((Decimal.ofBinary m e).scaleTo (-8))
  ⟨sign negative ++ l, r, 0⟩

/-- The parts with one digit before the point and `places` after it. -/
def roundedPieces (places : Nat) (negative : Bool) (m : Nat) (e : Int) : Pieces :=
  let (n, lead) := (Decimal.ofBinary m e).significant places
  let (l, r) := splitAt places n
  ⟨sign negative ++ l, r, lead⟩

/-- The parts with one digit before the point and at most eight after it. -/
def exponentialPieces (negative : Bool) (m : Nat) (e : Int) : Pieces :=
  let (c, p) := Shortest.digits m e
  let count := (Nat.toDigits 10 c).length - 1
  if count ≤ 8 then
    let (l, r) := splitAt count c
    ⟨sign negative ++ l, r, p + count⟩
  else roundedPieces 8 negative m e

/-- Whether exponents are used for numbers. -/
def usesExponents (xs : List Float) : Bool :=
  match (xs.filter fun x => x.isFinite && x != 0.0).map Float.abs with
  | [] => false
  | x :: rest =>
    let largest := rest.foldl (fun a b => if a < b then b else a) x
    let least := rest.foldl (fun a b => if b < a then b else a) x
    1e8 ≤ largest || least < 1e-4 || 1000.0 < largest / least

/-- How the entries of a column are laid out: whether with exponents, how many
characters stand before and after the point, and how many digits an exponent
has. -/
structure Layout where
  exponents : Bool
  before : Nat
  after : Nat
  power : Nat

/-- The parts of a double, if it is finite. -/
def pieces? (parts : Bool → Nat → Int → Pieces) (x : Float) : Option Pieces :=
  match Binary64.ofFloat x with
  | .finite negative m e => some (parts negative m e)
  | _ => none

def largestOf (ns : List Nat) : Nat := ns.foldl Nat.max 0

/-- What stands behind the point, the exponent included. -/
def Layout.behind (l : Layout) : Nat := if l.exponents then l.power + 2 + l.after else l.after

/-- The narrowest layout that has room for all entries. -/
def Layout.ofNumbers (xs : List Float) : Layout :=
  let exponents := usesExponents xs
  let parts := xs.filterMap (pieces? (if exponents then exponentialPieces else positionalPieces))
  let l : Layout :=
    { exponents := exponents
      before := largestOf (parts.map (·.left.length))
      after := largestOf (parts.map (·.right.length))
      power := largestOf (parts.map fun p => (padded 2 p.power.natAbs).length) }
  let words := (xs.filter fun x => !x.isFinite).map fun x => (ofDouble (fun _ => []) x).length
  let offset := l.behind + 1
  { l with before := largestOf (l.before :: words.map (· - offset)) }

/-- The text of an entry. -/
def Layout.entry (l : Layout) (x : Float) : List Char :=
  match pieces? (if l.exponents then roundedPieces l.after else positionalPieces) x with
  | some p =>
    List.replicate (l.before - p.left.length) ' ' ++ p.left ++ '.' :: p.right
      ++ if l.exponents then
          List.replicate (l.after - p.right.length) '0'
            ++ 'e' :: (if p.power < 0 then '-' else '+') :: padded l.power p.power.natAbs
        else List.replicate (l.after - p.right.length) ' '
  | none =>
    let word := (ofDouble (fun _ => []) x).toList
    List.replicate (l.before + 1 + l.behind - word.length) ' ' ++ word

/-- Words one after the other, with commas between them and a new line where one
would go beyond the width; a new line begins with `indent` blanks. `line` is the
line so far, in reverse. -/
def fillLines (width indent : Nat) : List (List Char) → List Char → List Char
  | [], line => line.reverse
  | word :: rest, line =>
    let start := List.replicate indent ' '
    let full := width < line.length + word.length && indent < line.length
    let line' := word.reverse ++ if full then start else line
    let line' := if rest.isEmpty then line' else ' ' :: ',' :: line'
    (if full then (line.dropWhile (· == ' ')).reverse ++ ['\n'] else [])
      ++ fillLines width indent rest line'

/-- Of a long list only the ends, with `gap` between them. -/
def ends {β : Type} (long : Bool) (gap : β) (xs : List β) : List β :=
  if long && 6 < xs.length then xs.take 3 ++ gap :: xs.drop (xs.length - 3) else xs

/-- Entries in brackets, `depth` brackets deep; `none` stands for a gap. -/
def Layout.row (l : Layout) (depth : Nat) (xs : List (Option Float)) : List Char :=
  let words := xs.map fun x => (x.map l.entry).getD ['.', '.', '.']
  let indent := 6 + depth
  '[' :: (fillLines (74 - depth) indent words (List.replicate indent ' ')).drop indent ++ [']']

/-- More entries than this make a text long. -/
def longFrom : Nat := 1000

/-- What stands in front of a list of numbers. -/
def opening : List Char := "array(".toList

/-- A list of numbers after its opening, with a note on its shape if it is long; the
note begins a new line where it would go beyond the width. -/
def noted (body : List Char) (count : Nat) (shape : String) : String :=
  if longFrom < count then
    let text := opening ++ body ++ [',']
    let note := "shape=(" ++ shape ++ "))"
    let last := (text.reverse.takeWhile (· ≠ '\n')).length
    String.ofList text ++ (if 75 < last + note.length + 1 then "\n      " else " ") ++ note
  else String.ofList (opening ++ body ++ [')'])

/-- A column as it stands in a description. -/
def column (xs : List Float) : String :=
  if xs.isEmpty then "array([], dtype=float64)"
  else
    let shown := ends (longFrom < xs.length) none (xs.map some)
    let l := Layout.ofNumbers (shown.filterMap id)
    noted (l.row 1 shown) xs.length (toString xs.length ++ ",")

/-- Rows of equal length as they stand in a description. -/
def table (rows : List (List Float)) : String :=
  let width := (rows.headD []).length
  if rows.isEmpty then "array([], dtype=float64)"
  else if width = 0 then "array([], shape=(" ++ toString rows.length ++ ", 0), dtype=float64)"
  else
    let count := rows.length * width
    let shown := ends (longFrom < count) none (rows.map some)
    let cells := shown.map (·.map fun row => ends (longFrom < count) none (row.map some))
    let l := Layout.ofNumbers ((cells.filterMap id).flatMap (·.filterMap id))
    let lines := cells.map fun row => (row.map (l.row 2)).getD ['.', '.', '.']
    noted ('[' :: List.intercalate (",\n" ++ "       ").toList lines ++ [']']) count
      (toString rows.length ++ ", " ++ toString width)

end DensityAlgebra.Text
