/-!
# Number

The numbers of the language: the values of the 64-bit binary interchange format.  No arithmetic is
ever done on them, only reading, printing and comparing, so a number is kept as what it denotes.

The finite magnitudes are counted upwards from zero; the place of a magnitude in that order is its
*rank*.  `units r` is the magnitude of rank `r` in units of `2^-1074`, the least positive one, so
every magnitude is a natural number and all comparisons are exact.
-/

namespace Curried

namespace Number

/-- The number of magnitudes in a binade: `2^52`. -/
def binade : Nat := 0x10000000000000

/-- The number of finite magnitudes: 2047 binades. -/
def rankCount : Nat := 0x7FF0000000000000

/-- The number of units in one. -/
def one : Nat := Nat.pow 2 1074

end Number

/-- A number: not-a-number, an infinity, or a sign with the rank of a finite magnitude. -/
inductive Number where
  | nan
  | infinite (negative : Bool)
  | finite (negative : Bool) (rank : Fin Number.rankCount)
deriving DecidableEq

namespace Number

/-- The magnitude of rank `r`, in units of `2^-1074`.  The first `2^53` ranks are spaced one unit
apart, and the spacing doubles with every further `2^52` ranks. -/
def units (r : Nat) : Nat :=
  if r < binade then r else (binade + r % binade) * Nat.pow 2 (r / binade - 1)

/-- The weight of the sign in the interchange encoding. -/
def signBit : Nat := 0x8000000000000000

/-- The interchange encoding: a sign bit above the rank; the two infinities and one not-a-number
lie above the finite ranks. -/
def toBits : Number → Nat
  | nan => 0x7FF8000000000000
  | infinite negative => (if negative then signBit else 0) + rankCount
  | finite negative rank => (if negative then signBit else 0) + rank

/-- The number of an interchange encoding. -/
def ofBits (bits : Nat) : Number :=
  let negative := bits / signBit % 2 == 1
  let low := bits % signBit
  if h : low < rankCount then finite negative ⟨low, h⟩
  else if low = rankCount then infinite negative
  else nan

/-- Numeric equality: the two zeros are equal, and not-a-number differs from everything. -/
def same : Number → Number → Bool
  | infinite a, infinite b => a == b
  | finite a r, finite b s => r == s && (a == b || r.val == 0)
  | _, _ => false

/-- Exact equality with an integer. -/
def sameInt : Number → Int → Bool
  | finite negative rank, n =>
    units rank == n.natAbs * one && (n == 0 || negative == decide (n < 0))
  | _, _ => false

/-- Neither an infinity nor not-a-number. -/
def isFinite : Number → Bool
  | finite _ _ => true
  | _ => false

/-- Either of the two zeros. -/
def isZero : Number → Bool
  | finite _ rank => rank.val == 0
  | _ => false

end Number

end Curried
