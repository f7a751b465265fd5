import Curried.Number.Shortest
import Mathlib.Algebra.Order.Field.Basic
import Mathlib.Algebra.Order.Field.Rat
import Mathlib.Tactic.FieldSimp
import Mathlib.Tactic.Linarith
import Mathlib.Tactic.NormNum
import Mathlib.Tactic.Ring

/-!
# Proofs — rounding

`Rounds r x` says that rank `r` is the one nearest to `x` units: `x` lies between the midpoints to
the neighbouring magnitudes, and on a midpoint only if `r` is even.  A rational rounds to one rank
at most (`Rounds.unique`).  What computes with ranks is tied to it:

* `nearestRank` finds the rank of a quotient (`rounds_nearestRank`);
* `readsBack` decides it for the units of printing (`readsBack_iff`).

The magnitudes are handled through their leading digits.  Rank `m + s · 2^52` has the magnitude
`m · 2^s` while `m` has 53 binary digits, or at most that many if `s` is zero, and still where `m`
is the first number of 54 digits (`units_add_mul`).
-/

namespace Curried.Number

/-! ### Magnitudes -/

theorem binade_pos : 0 < binade := by decide

/-- The magnitude of a rank by its leading digits. -/
theorem units_add_mul {m s : Nat} (hm : m ≤ 2 * binade) (hs : s = 0 ∨ binade ≤ m) :
    units (m + s * binade) = m * 2 ^ s := by
  by_cases hlow : m < binade
  · have hs : s = 0 := by omega
    subst hs
    simp [units, hlow]
  · have hB := binade_pos
    have hge : ¬ m + s * binade < binade := by omega
    rw [units, if_neg hge]
    rcases Nat.lt_or_eq_of_le hm with hm | hm
    · have hmod : (m + s * binade) % binade = m - binade := by
        rw [Nat.add_mul_mod_self_right, Nat.mod_eq_sub_mod (by omega), Nat.mod_eq_of_lt (by omega)]
      have hdiv : (m + s * binade) / binade - 1 = s := by
        have : m / binade = 1 := Nat.div_eq_of_lt_le (by omega) (by omega)
        rw [Nat.add_mul_div_right _ _ hB, this]
        omega
      rw [hmod, hdiv, Nat.add_sub_cancel' (by omega)]
      rfl
    · have hr : m + s * binade = (s + 2) * binade := by rw [hm, Nat.add_mul]; omega
      rw [hr, Nat.mul_mod_left, Nat.mul_div_cancel _ hB, hm, Nat.add_zero]
      show binade * 2 ^ (s + 1) = 2 * binade * 2 ^ s
      rw [Nat.pow_succ, Nat.mul_comm (2 ^ s) 2, ← Nat.mul_assoc, Nat.mul_comm binade 2]

/-- Every rank has leading digits. -/
theorem exists_leading (r : Nat) :
    ∃ m s, r = m + s * binade ∧ m < 2 * binade ∧ (s = 0 ∨ binade ≤ m) := by
  by_cases hr : r < binade
  · exact ⟨r, 0, by simp, by omega, .inl rfl⟩
  · have hmod := Nat.mod_lt r binade_pos
    have hdiv : 0 < r / binade := Nat.div_pos (by omega) binade_pos
    refine ⟨binade + r % binade, r / binade - 1, ?_, by omega, .inr (by omega)⟩
    have hcut := Nat.mod_add_div r binade
    have hlead : binade * (r / binade) = binade + (r / binade - 1) * binade := by
      obtain ⟨k, hk⟩ := Nat.exists_eq_add_of_lt hdiv
      rw [hk, Nat.mul_comm]
      simp [Nat.add_mul]
      omega
    omega

theorem units_lt_succ (r : Nat) : units r < units (r + 1) := by
  obtain ⟨m, s, rfl, hm, hs⟩ := exists_leading r
  have hnext : m + s * binade + 1 = (m + 1) + s * binade := by omega
  rw [hnext, units_add_mul (by omega) hs, units_add_mul (by omega) (by omega)]
  exact Nat.mul_lt_mul_of_pos_right (by omega) (Nat.two_pow_pos s)

/-- **The order of the ranks is that of the magnitudes.** -/
theorem units_strictMono : StrictMono units := strictMono_nat_of_lt_succ units_lt_succ

theorem units_zero : units 0 = 0 := by decide

/-- The next magnitude is at least a step of `2^s` up. -/
theorem le_units_succ {m s : Nat} (hm : m ≤ 2 * binade) (hs : s = 0 ∨ binade ≤ m) :
    (m + 1) * 2 ^ s ≤ units (m + s * binade + 1) := by
  rcases Nat.lt_or_eq_of_le hm with hm | hm
  · have hr : m + s * binade + 1 = (m + 1) + s * binade := by omega
    rw [hr, units_add_mul (by omega) (by omega)]
  · -- Here the digits begin anew, and the step has doubled.
    have hB := binade_pos
    have hr : m + s * binade + 1 = (binade + 1) + (s + 1) * binade := by
      rw [hm, Nat.add_mul]; omega
    rw [hr, units_add_mul (by omega) (by omega), Nat.pow_succ, Nat.mul_comm (2 ^ s), ← Nat.mul_assoc]
    exact Nat.mul_le_mul_right _ (by omega)

/-- The magnitude before is a step of `2^s` down, except where the digits begin anew. -/
theorem units_pred {m s : Nat} (hm : m ≤ 2 * binade) (h0 : m ≠ 0) (hs : s = 0 ∨ binade < m) :
    units (m + s * binade - 1) = (m - 1) * 2 ^ s := by
  have hr : m + s * binade - 1 = (m - 1) + s * binade := by omega
  rw [hr, units_add_mul (by omega) (by omega)]

/-! ### The rank nearest to a rational -/

/-- The rank nearest to `x` units is `r`: of two that are equally near, the even one. -/
def Rounds (r : Nat) (x : ℚ) : Prop :=
  if r % 2 = 0 then (units (r - 1) : ℚ) + units r ≤ 2 * x ∧ 2 * x ≤ units r + units (r + 1)
  else (units (r - 1) : ℚ) + units r < 2 * x ∧ 2 * x < units r + units (r + 1)

/-- In any case the midpoints are bounds. -/
theorem Rounds.bounds {r : Nat} {x : ℚ} (h : Rounds r x) :
    (units (r - 1) : ℚ) + units r ≤ 2 * x ∧ 2 * x ≤ units r + units (r + 1) := by
  unfold Rounds at h
  split at h
  · exact h
  · exact ⟨h.1.le, h.2.le⟩

/-- Two ranks never share a midpoint, since the even one of them has it. -/
theorem Rounds.not_lt {r s : Nat} {x : ℚ} (hr : Rounds r x) (hs : Rounds s x) : ¬ r < s := by
  intro hlt
  have hle : units r + units (r + 1) ≤ units (s - 1) + units s :=
    Nat.add_le_add (units_strictMono.monotone (by omega)) (units_strictMono.monotone (by omega))
  have hle' : (units r : ℚ) + units (r + 1) ≤ units (s - 1) + units s := by exact_mod_cast hle
  have hr₂ := hr.bounds.2
  have hs₁ := hs.bounds.1
  unfold Rounds at hr hs
  by_cases her : r % 2 = 0
  · by_cases hes : s % 2 = 0
    · -- Both even, so there is a rank between them.
      have hlt : units r < units (s - 1) := units_strictMono (by omega)
      have hlt' : (units r : ℚ) < units (s - 1) := by exact_mod_cast hlt
      have hmono : (units (r + 1) : ℚ) ≤ units s := by
        exact_mod_cast units_strictMono.monotone (by omega)
      linarith
    · rw [if_neg hes] at hs
      linarith [hs.1]
  · rw [if_neg her] at hr
    linarith [hr.2]

/-- **A rational rounds to one rank at most.** -/
theorem Rounds.unique {r s : Nat} {x : ℚ} (hr : Rounds r x) (hs : Rounds s x) : r = s := by
  have h₁ := hr.not_lt hs
  have h₂ := hs.not_lt hr
  omega

/-- A magnitude is its own nearest one. -/
theorem rounds_units (r : Nat) : Rounds r (units r) := by
  have hlow : (units (r - 1) : ℚ) ≤ units r := by
    exact_mod_cast units_strictMono.monotone (by omega)
  have hhigh : (units r : ℚ) < units (r + 1) := by exact_mod_cast units_lt_succ r
  unfold Rounds
  split
  · exact ⟨by linarith, by linarith⟩
  · have hlow : (units (r - 1) : ℚ) < units r := by exact_mod_cast units_strictMono (by omega)
    exact ⟨by linarith, by linarith⟩

/-- What rounding to a whole number `m` of steps means for `x`. -/
structure Near (m : Nat) (step x : ℚ) : Prop where
  low : (2 * m - 1) * step ≤ 2 * x
  high : 2 * x ≤ (2 * m + 1) * step
  low_of_odd : m % 2 = 1 → (2 * m - 1) * step < 2 * x
  high_of_odd : m % 2 = 1 → 2 * x < (2 * m + 1) * step

/-- The midpoint below a rank: half a step down, or anywhere if `x` is not below the magnitude. -/
theorem Near.midpoint_le {m s : Nat} {x : ℚ} (h : Near m (2 ^ s) x) (hm : m ≤ 2 * binade)
    (hs : s = 0 ∨ binade ≤ m) (hx : s = 0 ∨ (binade : ℚ) * 2 ^ s ≤ x) (hpos : 0 ≤ x) :
    (units (m + s * binade - 1) : ℚ) + units (m + s * binade) ≤ 2 * x ∧
      (m % 2 = 1 → (units (m + s * binade - 1) : ℚ) + units (m + s * binade) < 2 * x) := by
  have hunits : (units (m + s * binade) : ℚ) = m * 2 ^ s := by exact_mod_cast units_add_mul hm hs
  by_cases h0 : m = 0
  · -- Rank 0 has no rank below it, and its midpoint is 0 itself.
    subst h0
    have hs : s = 0 := by have := binade_pos; omega
    subst hs
    simpa [units_zero] using hpos
  by_cases hanew : s ≠ 0 ∧ m = binade
  · -- The step below is half as wide here, so `h.low` says too little; `hx` does it.
    obtain ⟨hs0, rfl⟩ := hanew
    have hlt : (units (binade + s * binade - 1) : ℚ) < units (binade + s * binade) := by
      exact_mod_cast units_strictMono (by omega)
    have hx := hx.resolve_left hs0
    rw [hunits] at hlt ⊢
    exact ⟨by linarith, fun _ => by linarith⟩
  · have hmid : (units (m + s * binade - 1) : ℚ) + units (m + s * binade) = (2 * m - 1) * 2 ^ s := by
      rw [hunits, units_pred hm h0 (by omega)]
      push_cast [Nat.cast_sub (show 1 ≤ m by omega)]
      ring
    rw [hmid]
    exact ⟨h.low, h.low_of_odd⟩

/-- **Rounding the leading digits is rounding.**  The rank below may be nearer than `2^s` units
only where the digits begin anew, and `x` is not below that place. -/
theorem Near.rounds {m s : Nat} {x : ℚ} (h : Near m (2 ^ s) x) (hm : m ≤ 2 * binade)
    (hs : s = 0 ∨ binade ≤ m) (hx : s = 0 ∨ (binade : ℚ) * 2 ^ s ≤ x) (hpos : 0 ≤ x) :
    Rounds (m + s * binade) x := by
  have hunits : (units (m + s * binade) : ℚ) = m * 2 ^ s := by exact_mod_cast units_add_mul hm hs
  have hnext : ((m : ℚ) + 1) * 2 ^ s ≤ units (m + s * binade + 1) := by
    exact_mod_cast le_units_succ hm hs
  have habove : ((2 * m + 1) * 2 ^ s : ℚ) ≤
      units (m + s * binade) + units (m + s * binade + 1) := by
    rw [hunits]; linarith
  obtain ⟨hbelow, hbelow'⟩ := h.midpoint_le hm hs hx hpos
  have hparity : (m + s * binade) % 2 = m % 2 := by
    have : binade % 2 = 0 := by decide
    rw [Nat.add_mod, Nat.mul_mod, this]
    simp
  unfold Rounds
  rw [hparity]
  split
  · exact ⟨hbelow, h.high.trans habove⟩
  · have hodd : m % 2 = 1 := by omega
    exact ⟨hbelow' hodd, (h.high_of_odd hodd).trans_le habove⟩

/-! ### The nearest rank of a quotient -/

theorem Near.div {m : Nat} {step x k : ℚ} (hk : 0 < k) (h : Near m (k * step) x) :
    Near m step (x / k) where
  low := by rw [← mul_div_assoc, le_div_iff₀ hk]; linarith [h.low]
  high := by rw [← mul_div_assoc, div_le_iff₀ hk]; linarith [h.high]
  low_of_odd hm := by rw [← mul_div_assoc, lt_div_iff₀ hk]; linarith [h.low_of_odd hm]
  high_of_odd hm := by rw [← mul_div_assoc, div_lt_iff₀ hk]; linarith [h.high_of_odd hm]

/-- A quotient of natural numbers, rounded, is the nearest number of steps. -/
theorem near_roundDiv (num : Nat) {den : Nat} (hden : 0 < den) :
    Near (roundDiv num den) den num := by
  have hrest : num % den < den := Nat.mod_lt num hden
  have hcut : ((num / den : Nat) : ℚ) * den + (num % den : Nat) = num := by
    exact_mod_cast Nat.div_add_mod' num den
  have hrest' : ((num % den : Nat) : ℚ) < den := by exact_mod_cast hrest
  have hpos : (0 : ℚ) ≤ (num % den : Nat) := by positivity
  unfold roundDiv
  generalize num / den = q at *
  generalize num % den = t at *
  dsimp only
  split
  · -- Down: less than half is left, or just half and the quotient is even.
    rename_i hdown
    have hle : (2 * t : ℚ) ≤ den := by
      have : 2 * t ≤ den := by omega
      exact_mod_cast this
    have hlt : q % 2 = 1 → (2 * t : ℚ) < den := by
      intro hq
      have : 2 * t < den := by omega
      exact_mod_cast this
    exact ⟨by linarith, by linarith, fun _ => by linarith, fun hq => by linarith [hlt hq]⟩
  · -- Up: more than half is left, or just half and the next number is even.
    rename_i hup
    have hle : (den : ℚ) ≤ 2 * t := by
      have : den ≤ 2 * t := by omega
      exact_mod_cast this
    have hlt : (q + 1) % 2 = 1 → (den : ℚ) < 2 * t := by
      intro hq
      have : den < 2 * t := by omega
      exact_mod_cast this
    exact ⟨by push_cast; linarith, by push_cast; linarith,
      fun hq => by push_cast; linarith [hlt hq], fun _ => by push_cast; linarith⟩

theorem roundDiv_le {num den k : Nat} (h : num < k * den) : roundDiv num den ≤ k := by
  have hq : num / den < k := Nat.div_lt_of_lt_mul (by rwa [Nat.mul_comm])
  unfold roundDiv
  dsimp only
  split <;> omega

theorem le_roundDiv {num den k : Nat} (hden : 0 < den) (h : k * den ≤ num) :
    k ≤ roundDiv num den := by
  have hq : k ≤ num / den := (Nat.le_div_iff_mul_le hden).mpr h
  unfold roundDiv
  dsimp only
  split <;> omega

/-- Where the digits after the leading 53 are dropped, there were that many. -/
theorem leading_bounds (num : Nat) {den s : Nat} (hden : 0 < den)
    (hs : s = (num / den).log2 - 52) :
    num < 2 * binade * (den * 2 ^ s) ∧ (s = 0 ∨ binade * (den * 2 ^ s) ≤ num) := by
  have hbinade : binade = 2 ^ 52 := by decide
  constructor
  · have hq : num / den < 2 * binade * 2 ^ s := by
      calc num / den < 2 ^ ((num / den).log2 + 1) := Nat.lt_log2_self
        _ ≤ 2 ^ (53 + s) := Nat.pow_le_pow_right (by decide) (by omega)
        _ = 2 * binade * 2 ^ s := by rw [Nat.pow_add, hbinade, ← Nat.pow_succ']
    calc num < 2 * binade * 2 ^ s * den := (Nat.div_lt_iff_lt_mul hden).mp hq
      _ = 2 * binade * (den * 2 ^ s) := by rw [Nat.mul_assoc, Nat.mul_comm (2 ^ s)]
  · by_cases h0 : s = 0
    · exact .inl h0
    · right
      have hne : num / den ≠ 0 := by
        intro e
        rw [e] at hs
        exact h0 hs
      have hq : binade * 2 ^ s ≤ num / den := by
        calc binade * 2 ^ s = 2 ^ (52 + s) := by rw [Nat.pow_add, hbinade]
          _ = 2 ^ (num / den).log2 := by rw [hs]; congr 1; omega
          _ ≤ num / den := Nat.log2_self_le hne
      calc binade * (den * 2 ^ s) = binade * 2 ^ s * den := by
            rw [Nat.mul_assoc, Nat.mul_comm den]
        _ ≤ num := (Nat.le_div_iff_mul_le hden).mp hq

/-- **The rank that is computed for a quotient is the nearest one.** -/
theorem rounds_nearestRank (num : Nat) {den : Nat} (hden : 0 < den) :
    Rounds (nearestRank num den) (num / den) := by
  unfold nearestRank
  generalize hs : (num / den).log2 - 52 = s
  obtain ⟨hlt, hle⟩ := leading_bounds num hden hs.symm
  have hstep : 0 < den * 2 ^ s := Nat.mul_pos hden (Nat.two_pow_pos s)
  have hden' : (0 : ℚ) < den := by exact_mod_cast hden
  have hnear : Near (roundDiv num (den * 2 ^ s)) (2 ^ s) (num / den) := by
    refine Near.div hden' ?_
    exact_mod_cast near_roundDiv num hstep
  refine hnear.rounds (roundDiv_le hlt) (hle.imp_right (le_roundDiv hstep)) ?_ (by positivity)
  refine hle.imp_right fun hle => ?_
  rw [le_div_iff₀ hden']
  have : (binade * (den * 2 ^ s) : ℚ) ≤ num := by exact_mod_cast hle
  linarith

/-- The finite number of a quotient that rounds to a finite rank. -/
theorem ofUnits_eq_finite {negative : Bool} {num den : Nat} (hden : 0 < den)
    {r : Fin rankCount} (h : Rounds r (num / den)) :
    ofUnits negative num den = finite negative r := by
  have hr : nearestRank num den = r := (rounds_nearestRank num hden).unique h
  simp [ofUnits, hr]

/-! ### What reads back -/

theorem scale_pos : 0 < scale := by decide +kernel

/-- **What reads back as a rank is what rounds to it**, in units of `10^-1074`. -/
theorem readsBack_iff {r v : Nat} : readsBack r v = true ↔ Rounds r (v / scale) := by
  have hscale : (0 : ℚ) < scale := by exact_mod_cast scale_pos
  unfold readsBack Rounds
  rw [← mul_div_assoc, le_div_iff₀ hscale, div_le_iff₀ hscale, lt_div_iff₀ hscale,
    div_lt_iff₀ hscale]
  dsimp only
  split
  · rw [Bool.and_eq_true, decide_eq_true_iff, decide_eq_true_iff]
    exact_mod_cast Iff.rfl
  · rw [Bool.and_eq_true, decide_eq_true_iff, decide_eq_true_iff]
    exact_mod_cast Iff.rfl

end Curried.Number
