/-!
# Text — blanks

The characters that separate words: the Unicode characters whose bidirectional class is a
separator, or whose category is a space separator.
-/

namespace Curried.Text

/-- The code points of blanks, as intervals in increasing order. -/
def blanks : List (Nat × Nat) :=
  [(0x0009, 0x000D), (0x001C, 0x0020), (0x0085, 0x0085), (0x00A0, 0x00A0), (0x1680, 0x1680),
   (0x2000, 0x200A), (0x2028, 0x2029), (0x202F, 0x202F), (0x205F, 0x205F), (0x3000, 0x3000)]

/-- Whether a character is a blank. -/
def isBlank (c : Char) : Bool := blanks.any fun (low, high) => low ≤ c.toNat && c.toNat ≤ high

/-- A text without the blanks at its two ends. -/
def strip (cs : List Char) : List Char :=
  ((cs.dropWhile isBlank).reverse.dropWhile isBlank).reverse

end Curried.Text
