import Curried.Number.Shortest

/-!
# Number — text

Two texts of a number.  `Number.plain` always shows that a number is no integer: a point or an
exponent is present.  `Number.text` writes a number of integral value as its exact integer digits
and any other one like `plain`.
-/

namespace Curried

/-- How a decimal is laid out: it is positional while its leading digit stands for `10^e` with
`least ≤ e < bound`, and otherwise has an exponent of at least `exponentDigits` digits. -/
structure Layout where
  least : Int
  bound : Int
  exponentDigits : Nat

namespace Layout

/-- An exponent after its mark: a sign, then the digits, padded with zeros. -/
def writeExponent (layout : Layout) (e : Int) : List Char :=
  let digits := Nat.toDigits 10 e.natAbs
  (if e < 0 then '-' else '+') ::
    (List.replicate (layout.exponentDigits - digits.length) '0' ++ digits)

/-- Lays out significant digits, the first of which stands for `10^e`. -/
def write (layout : Layout) (digits : List Char) (e : Int) : List Char :=
  if e < layout.least ∨ layout.bound ≤ e then
    let fraction := digits.drop 1
    digits.take 1 ++ (if fraction = [] then [] else '.' :: fraction) ++
      'e' :: layout.writeExponent e
  else if e < 0 then
    '0' :: '.' :: (List.replicate ((-e).toNat - 1) '0' ++ digits)
  else
    let whole := e.toNat + 1
    let fraction := digits.drop whole
    digits.take whole ++ List.replicate (whole - digits.length) '0' ++
      '.' :: (if fraction = [] then ['0'] else fraction)

/-- Lays out a decimal without the zeros at the end of its digits. -/
def writeDecimal (layout : Layout) (d : Decimal) : List Char :=
  let digits := Nat.toDigits 10 d.digits
  let significant := (digits.reverse.dropWhile (· == '0')).reverse
  layout.write (if significant = [] then ['0'] else significant) (d.exponent + digits.length - 1)

end Layout

namespace Number

/-- Numbers are positional from `0.0001` up to, but not including, `10^16`, and an exponent has at
least two digits. -/
def layout : Layout := ⟨-4, 16, 2⟩

/-- A text with a minus sign in front if asked for. -/
def signed (negative : Bool) (cs : List Char) : List Char := if negative then '-' :: cs else cs

/-- The digits of an integer after its sign. -/
def integerText (n : Int) : String :=
  String.ofList (signed (n < 0) (Nat.toDigits 10 n.natAbs))

/-- The text of a finite number with a point or an exponent. -/
def plainFinite (negative : Bool) (r : Nat) : List Char :=
  signed negative (layout.writeDecimal (if r = 0 then ⟨0, 0⟩ else shortest r))

/-- The text of a number with a point or an exponent. -/
def plain : Number → String
  | nan => "nan"
  | infinite negative => if negative then "-inf" else "inf"
  | finite negative rank => String.ofList (plainFinite negative rank)

/-- The text of a number; integral values are written as integers, and zero has no sign. -/
def text : Number → String
  | nan => "nan"
  | infinite negative => if negative then "-inf" else "inf"
  | finite negative rank =>
    let u := units rank
    if u % one = 0 then String.ofList (signed (negative && u != 0) (Nat.toDigits 10 (u / one)))
    else String.ofList (plainFinite negative rank)

end Number

end Curried
