import Curried.Number

/-!
# Number — the nearest number

Rounding of an exact quotient to the finite magnitudes: the nearest one is taken, and of two that
are equally near the one of even rank.  Beyond the largest magnitude lies infinity.

A magnitude of `2^53` units or more keeps its 53 leading binary digits.  With `s` digits dropped
and `m` kept, its rank is `m + s · 2^52`; this also holds where rounding carries into a 54th digit.
-/

namespace Curried.Number

/-- `num / den` rounded to a natural number, a half going to the even neighbour. -/
def roundDiv (num den : Nat) : Nat :=
  let q := num / den
  let twice := 2 * (num % den)
  if twice < den ∨ (twice = den ∧ q % 2 = 0) then q else q + 1

/-- The rank nearest to `num / den` units, counted on past the finite ranks. -/
def nearestRank (num den : Nat) : Nat :=
  let dropped := (num / den).log2 - 52
  roundDiv num (den * Nat.pow 2 dropped) + dropped * binade

/-- The number nearest to `num / den` units. -/
def ofUnits (negative : Bool) (num den : Nat) : Number :=
  let rank := nearestRank num den
  if h : rank < rankCount then finite negative ⟨rank, h⟩ else infinite negative

/-- The number nearest to an integer. -/
def ofInt (n : Int) : Number :=
  ofUnits (n < 0) (n.natAbs * one) 1

end Curried.Number
