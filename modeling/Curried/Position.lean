import Curried.Number.Printer

/-!
# Position

Where a token starts: a row and a column, both counted from one.  Only a line feed begins a new
row; every other character takes one column.
-/

namespace Curried

/-- A row and a column.  A host program may hand over tokens at any position, so both are
integers. -/
structure Position where
  row : Int
  col : Int
deriving DecidableEq

namespace Position

/-- The position of the first character. -/
def first : Position := ⟨1, 1⟩

/-- The position after the character `c`. -/
def next (p : Position) (c : Char) : Position :=
  if c = '\n' then ⟨p.row + 1, 1⟩ else ⟨p.row, p.col + 1⟩

/-- Row and column, divided by a colon. -/
def text (p : Position) : String :=
  Number.integerText p.row ++ ":" ++ Number.integerText p.col

end Position

end Curried
