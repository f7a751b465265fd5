import Curried.Number.Decimal

/-!
# Number — the fewest digits

`Number.shortest r` is the decimal with the fewest digits that reads back as the magnitude of rank
`r`; of those with that many digits it is the nearest to the magnitude, and of two that are equally
near the one whose digits form an even number.

Everything is compared in units of `10^-1074`, in which every magnitude, and every grid of at most
17 significant digits, consists of natural numbers.  The decimals that read back as rank `r` lie
between the midpoints to the neighbouring ranks; a midpoint itself belongs to the even rank.
-/

namespace Curried.Number

/-- One unit `2^-1074` in units of `10^-1074`. -/
def scale : Nat := Nat.pow 5 1074

/-- Whether `v · 10^-1074` lies between the midpoints around rank `r`. -/
def readsBack (r v : Nat) : Bool :=
  let low := (units (r - 1) + units r) * scale
  let high := (units r + units (r + 1)) * scale
  if r % 2 = 0 then low ≤ 2 * v && 2 * v ≤ high else low < 2 * v && 2 * v < high

/-- Of the two grid points of width `p` around the magnitude, the one to print, if either reads
back. -/
def onGrid? (r p : Nat) : Option Nat :=
  let exact := units r * scale
  let below := exact / p
  let rest := exact % p
  match readsBack r (below * p), readsBack r ((below + 1) * p) with
  | false, false => none
  | true, false => some below
  | false, true => some (below + 1)
  | true, true =>
    if 2 * rest < p ∨ (2 * rest = p ∧ below % 2 = 0) then some below else some (below + 1)

/-- The shortest decimal of rank `r`: grids of one digit, two digits and so on up to 17 are tried
in turn.  After them comes the exact value. -/
def shortest (r : Nat) : Decimal :=
  let exact := units r * scale
  let width := (Nat.toDigits 10 exact).length
  let found := (List.range 17).findSome? fun n =>
    let zeros := width - (n + 1)
    (onGrid? r (Nat.pow 10 zeros)).map fun digits => (⟨digits, zeros - 1074⟩ : Decimal)
  found.getD ⟨exact, -1074⟩

end Curried.Number
