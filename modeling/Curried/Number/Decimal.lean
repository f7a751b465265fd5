import Curried.Number.Nearest

/-!
# Number — decimals

A decimal is `digits · 10^exponent`.  `Decimal.read?` is its grammar: digits with an optional point
that has a digit on at least one side, then an optional exponent.  `Number.ofDecimal` is the number
nearest to a decimal, and `Number.read?` reads all spellings of a number.
-/

namespace Curried

/-- The decimal `digits · 10^exponent`. -/
structure Decimal where
  digits : Nat
  exponent : Int
deriving DecidableEq

namespace Decimal

/-- The value of a run of decimal digits. -/
def value (digits : List Char) : Nat := Nat.ofDigitChars 10 digits 0

/-- One sign, if there is one, and what follows it. -/
def sign : List Char → Bool × List Char
  | '-' :: cs => (true, cs)
  | '+' :: cs => (false, cs)
  | cs => (false, cs)

/-- The exponent part: nothing, or a mark, an optional sign and at least one digit. -/
def readExponent? : List Char → Option Int
  | [] => some 0
  | mark :: cs =>
    let (negative, digits) := sign cs
    if (mark = 'e' ∨ mark = 'E') ∧ digits ≠ [] ∧ digits.all Char.isDigit then
      some (if negative then -(value digits : Int) else value digits)
    else none

/-- Reads an unsigned decimal; the whole text must belong to it. -/
def read? (cs : List Char) : Option Decimal :=
  let whole := cs.takeWhile Char.isDigit
  let (fraction, rest) := match cs.dropWhile Char.isDigit with
    | '.' :: after => (after.takeWhile Char.isDigit, after.dropWhile Char.isDigit)
    | rest => ([], rest)
  if whole = [] ∧ fraction = [] then none
  else (readExponent? rest).map fun e => ⟨value (whole ++ fraction), e - fraction.length⟩

end Decimal

namespace Number

/-- The number nearest to a decimal.  From `10^310` on everything is infinite, and below `10^-330`
everything is zero, so powers of ten that large are never computed. -/
def ofDecimal (negative : Bool) (d : Decimal) : Number :=
  let top := d.exponent + (Nat.toDigits 10 d.digits).length
  if d.digits = 0 ∨ top < -330 then ofUnits negative 0 1
  else if 310 < top then infinite negative
  else if 0 ≤ d.exponent then ofUnits negative (d.digits * Nat.pow 10 d.exponent.toNat * one) 1
  else ofUnits negative (d.digits * one) (Nat.pow 10 (-d.exponent).toNat)

/-- The blanks that may surround a number: space, tab, line feed, vertical tab, form feed and
carriage return. -/
def isPadding (c : Char) : Bool := c == ' ' || (9 ≤ c.val && c.val ≤ 13)

/-- A text without the padding at its two ends. -/
def unpad (cs : List Char) : List Char :=
  ((cs.dropWhile isPadding).reverse.dropWhile isPadding).reverse

/-- A number after its sign: a word for an infinity or for not-a-number, in any case, or a decimal. -/
def readUnsigned? (negative : Bool) (cs : List Char) : Option Number :=
  let word := cs.map Char.toLower
  if word = ['i', 'n', 'f'] ∨ word = ['i', 'n', 'f', 'i', 'n', 'i', 't', 'y'] then
    some (infinite negative)
  else if word = ['n', 'a', 'n'] then some nan
  else (Decimal.read? cs).map (ofDecimal negative)

/-- Reads a number.  Only ASCII is accepted, and no digit separator. -/
def read? (cs : List Char) : Option Number :=
  if cs.all fun c => c.val < 128 && c != '_' then
    let (negative, rest) := Decimal.sign (unpad cs)
    readUnsigned? negative rest
  else none

end Number

end Curried
