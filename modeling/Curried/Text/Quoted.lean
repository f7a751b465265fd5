import Curried.Text.Printable

/-!
# Text — quotation

How inspection shows a text: between single quotes, or between double quotes if it has a single
quote and no double quote.  Backslashes, the quote in use, line feeds, carriage returns and tabs
take a backslash; a character that is not printable is written by its code point.
-/

namespace Curried.Text

/-- `n` in hexadecimal, with at least `width` digits. -/
def hex (width n : Nat) : List Char :=
  let digits := Nat.toDigits 16 n
  List.replicate (width - digits.length) '0' ++ digits

/-- A character by its code point, in two, four or eight digits. -/
def codePoint (c : Char) : List Char :=
  let n := c.toNat
  if n < 0x100 then '\\' :: 'x' :: hex 2 n
  else if n < 0x10000 then '\\' :: 'u' :: hex 4 n
  else '\\' :: 'U' :: hex 8 n

/-- One character between quotes `mark`. -/
def quoteChar (mark c : Char) : List Char :=
  if c = mark ∨ c = '\\' then ['\\', c]
  else if c = '\n' then ['\\', 'n']
  else if c = '\r' then ['\\', 'r']
  else if c = '\t' then ['\\', 't']
  else if isPrintable c then [c]
  else codePoint c

/-- A text in quotes. -/
def quote (s : String) : String :=
  let cs := s.toList
  let mark := if cs.contains '\'' && !cs.contains '"' then '"' else '\''
  String.ofList (mark :: (cs.flatMap (quoteChar mark) ++ [mark]))

end Curried.Text
