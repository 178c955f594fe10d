/-
# Quoted text

A quoted text stands between apostrophes, or between double quotes if it holds
an apostrophe and no double quote. Inside, the closing mark and the backslash
are written after a backslash, line feed, carriage return and tab have letters
of their own, and every other character without a visible form is written by its
number in two, four or eight hexadecimal digits.

Key definitions: `Text.quotedChar`, `Text.quoted`, `Text.nameList`.
-/
import DensityAlgebra.Text.Hidden

namespace DensityAlgebra.Text

/-- A number in hexadecimal, with zeros in front up to `width` digits. -/
def hexadecimal (width n : Nat) : List Char :=
  let ds := Nat.toDigits 16 n
  List.replicate (width - ds.length) '0' ++ ds

/-- A character as it stands between two `mark`s. -/
def quotedChar (mark c : Char) : List Char :=
  if c = mark ∨ c = '\\' then ['\\', c]
  else if c = '\n' then ['\\', 'n']
  else if c = '\r' then ['\\', 'r']
  else if c = '\t' then ['\\', 't']
  else if isHidden c then
    if c.toNat < 0x100 then '\\' :: 'x' :: hexadecimal 2 c.toNat
    else if c.toNat < 0x10000 then '\\' :: 'u' :: hexadecimal 4 c.toNat
    else '\\' :: 'U' :: hexadecimal 8 c.toNat
  else [c]

/-- The mark that a text is quoted with. -/
def quotationMark (cs : List Char) : Char :=
  if cs.contains '\x27' && !cs.contains '"' then '"' else '\x27'

/-- The text between quotation marks. -/
def quoted (s : String) : String :=
  let mark := quotationMark s.toList
  String.ofList (mark :: s.toList.flatMap (quotedChar mark) ++ [mark])

/-- Names, each quoted, as a list in brackets. -/
def nameList (names : List String) : String :=
  "[" ++ String.intercalate ", " (names.map quoted) ++ "]"

end DensityAlgebra.Text
