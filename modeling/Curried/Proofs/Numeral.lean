import Curried.Number.Printer
import Curried.Proofs.Rounding
import Mathlib.Algebra.Order.Field.Power
import Mathlib.Data.List.TakeWhile

/-!
# Proofs — numerals

The text of a number reads back as the number (`read?_text`); only the sign of a zero is lost.

A decimal stands for a rational number of units, `Decimal.magnitude`.  Three facts meet there:
reading rounds the magnitude of a decimal (`ofDecimal_eq_finite`), the shortest decimal of a rank
rounds to that rank (`rounds_shortest`), and however a decimal is laid out, what is read from the
text has the same magnitude (`Layout.Shows`).
-/

namespace Curried

namespace Decimal

/-- What a decimal is worth, in units of `2^-1074`. -/
def magnitude (d : Decimal) : ℚ := d.digits * 10 ^ d.exponent * Number.one

/-- One past the power of ten that the leading digit stands for. -/
def top (d : Decimal) : Int := d.exponent + (Nat.toDigits 10 d.digits).length

theorem digits_lt (n : Nat) : n < 10 ^ (Nat.toDigits 10 n).length :=
  (Nat.length_toDigits_le_iff (by decide) Nat.length_toDigits_pos).mp le_rfl

theorem le_digits {n : Nat} (hn : n ≠ 0) : 10 ^ ((Nat.toDigits 10 n).length - 1) ≤ n := by
  by_cases hlen : (Nat.toDigits 10 n).length = 1
  · rw [hlen]
    exact Nat.one_le_iff_ne_zero.mpr hn
  · have hpos := Nat.length_toDigits_pos (b := 10) (n := n)
    by_contra hlt
    have := (Nat.length_toDigits_le_iff (n := n) (b := 10)
      (k := (Nat.toDigits 10 n).length - 1) (by decide) (by omega)).mpr (by omega)
    omega

theorem magnitude_of_zero {d : Decimal} (h : d.digits = 0) : d.magnitude = 0 := by
  rw [magnitude, h, Nat.cast_zero, zero_mul, zero_mul]

theorem magnitude_nonneg (d : Decimal) : 0 ≤ d.magnitude :=
  mul_nonneg (by positivity) (Nat.cast_nonneg _)

theorem magnitude_le (d : Decimal) : d.magnitude ≤ 10 ^ d.top * Number.one := by
  refine mul_le_mul_of_nonneg_right ?_ (Nat.cast_nonneg _)
  have hdigits : (d.digits : ℚ) ≤ 10 ^ (Nat.toDigits 10 d.digits).length := by
    exact_mod_cast (digits_lt d.digits).le
  calc (d.digits : ℚ) * 10 ^ d.exponent
      ≤ 10 ^ (Nat.toDigits 10 d.digits).length * 10 ^ d.exponent := by gcongr
    _ = 10 ^ d.top := by
        rw [top, zpow_add₀ (by norm_num), zpow_natCast, mul_comm]

theorem le_magnitude {d : Decimal} (hd : d.digits ≠ 0) :
    10 ^ (d.top - 1) * Number.one ≤ d.magnitude := by
  refine mul_le_mul_of_nonneg_right ?_ (Nat.cast_nonneg _)
  have hpos := Nat.length_toDigits_pos (b := 10) (n := d.digits)
  have hdigits : (10 : ℚ) ^ ((Nat.toDigits 10 d.digits).length - 1) ≤ d.digits := by
    exact_mod_cast le_digits hd
  have htop : d.top - 1 = d.exponent + ((Nat.toDigits 10 d.digits).length - 1 : Nat) := by
    rw [top]; omega
  calc (10 : ℚ) ^ (d.top - 1)
      = 10 ^ ((Nat.toDigits 10 d.digits).length - 1) * 10 ^ d.exponent := by
        rw [htop, zpow_add₀ (by norm_num), zpow_natCast, mul_comm]
    _ ≤ d.digits * 10 ^ d.exponent := by gcongr

end Decimal

namespace Number

/-! ### Reading a decimal rounds it -/

/-- Below `10^-330` a decimal is nearer to zero than to the least number. -/
theorem rounds_zero_of_small {d : Decimal} (h : d.top < -330) : Rounds 0 d.magnitude := by
  have hsmall : 2 * d.magnitude ≤ 1 := by
    have hnat : 2 * one ≤ 10 ^ 331 := by decide +kernel
    have hone : (2 : ℚ) * one ≤ 10 ^ 331 := by exact_mod_cast hnat
    have hpow : (10 : ℚ) ^ d.top ≤ 10 ^ (-331 : Int) :=
      zpow_le_zpow_right₀ (by norm_num) (by omega)
    calc 2 * d.magnitude ≤ 2 * (10 ^ d.top * one) := by linarith [d.magnitude_le]
      _ = 10 ^ d.top * (2 * one) := by ring
      _ ≤ 10 ^ (-331 : Int) * 10 ^ 331 :=
          mul_le_mul hpow hone (mul_nonneg zero_le_two (Nat.cast_nonneg _)) (by positivity)
      _ = 1 := by
          rw [zpow_neg]
          exact inv_mul_cancel₀ (by positivity)
  have hunits : units (0 + 1) = 1 := by decide
  simp only [Rounds, Nat.zero_mod, ↓reduceIte, Nat.zero_sub, units_zero, hunits]
  constructor <;> push_cast <;> linarith [d.magnitude_nonneg]

/-- From `10^310` on a decimal is past all numbers. -/
theorem not_rounds_of_large {d : Decimal} {r : Nat} (hr : r < rankCount) (hd : d.digits ≠ 0)
    (h : 310 < d.top) : ¬ Rounds r d.magnitude := by
  intro hrounds
  have hlarge : (units rankCount : ℚ) < d.magnitude := by
    have htop : units rankCount < 10 ^ 310 * one := by decide +kernel
    have hpow : (10 : ℚ) ^ 310 ≤ 10 ^ (d.top - 1) := by
      rw [← zpow_natCast]
      exact zpow_le_zpow_right₀ (by norm_num) (by push_cast; omega)
    calc (units rankCount : ℚ) < 10 ^ 310 * one := by exact_mod_cast htop
      _ ≤ 10 ^ (d.top - 1) * one := mul_le_mul_of_nonneg_right hpow (Nat.cast_nonneg _)
      _ ≤ d.magnitude := Decimal.le_magnitude hd
  have h₁ : (units r : ℚ) ≤ units rankCount := by
    exact_mod_cast units_strictMono.monotone hr.le
  have h₂ : (units (r + 1) : ℚ) ≤ units rankCount := by
    exact_mod_cast units_strictMono.monotone hr
  linarith [hrounds.bounds.2]

theorem rounds_zero : Rounds 0 0 := by
  have := rounds_units 0
  rwa [units_zero, Nat.cast_zero] at this

/-- **Reading a decimal rounds it.** -/
theorem ofDecimal_eq_finite (negative : Bool) {d : Decimal} {r : Fin rankCount}
    (h : Rounds r d.magnitude) : ofDecimal negative d = finite negative r := by
  unfold ofDecimal
  dsimp only
  split
  · -- The first shortcut: no digits, or all of them far below the smallest number.
    rename_i hzero
    have h0 : Rounds 0 d.magnitude := by
      rcases hzero with hd | htop
      · rw [Decimal.magnitude_of_zero hd]
        exact rounds_zero
      · exact rounds_zero_of_small htop
    have hr : (r : Nat) = 0 := h.unique h0
    refine ofUnits_eq_finite Nat.one_pos ?_
    rw [hr, Nat.cast_zero, zero_div]
    exact rounds_zero
  · rename_i hsmall
    rw [not_or] at hsmall
    split
    · -- The second: far above the largest number, so of no rank.
      rename_i hlarge
      exact absurd h (not_rounds_of_large r.isLt hsmall.1 hlarge)
    · split
      · rename_i hexp
        obtain ⟨n, hn⟩ := Int.eq_ofNat_of_zero_le hexp
        refine ofUnits_eq_finite Nat.one_pos ?_
        have hvalue : ((d.digits * Nat.pow 10 d.exponent.toNat * one : Nat) : ℚ) / (1 : Nat) =
            d.magnitude := by
          rw [Decimal.magnitude, hn, Int.toNat_natCast, zpow_natCast, Nat.pow_eq, Nat.cast_mul,
            Nat.cast_mul, Nat.cast_pow, Nat.cast_one, div_one]
          rfl
        rwa [hvalue]
      · rename_i hexp
        obtain ⟨n, hn⟩ := Int.eq_ofNat_of_zero_le (show 0 ≤ -d.exponent by omega)
        have hexp : d.exponent = -(n : Int) := by omega
        refine ofUnits_eq_finite (Nat.pow_pos (by decide)) ?_
        have hvalue : ((d.digits * one : Nat) : ℚ) / (10 ^ (-d.exponent).toNat : Nat) =
            d.magnitude := by
          rw [Decimal.magnitude, hn, hexp, Int.toNat_natCast, zpow_neg, zpow_natCast, Nat.cast_mul,
            Nat.cast_pow, div_eq_mul_inv, mul_right_comm]
          rfl
        rwa [hvalue]

/-! ### The shortest decimal rounds to its rank -/

/-- A grid point of width `10^z` in units of `10^-1074`. -/
theorem magnitude_grid (n z : Nat) :
    (⟨n, z - 1074⟩ : Decimal).magnitude = (n * 10 ^ z : Nat) / (scale : ℚ) := by
  have hnat : one * scale = 10 ^ 1074 := by decide +kernel
  have hone : (one : ℚ) * scale = 10 ^ (1074 : Int) := by
    rw [← Nat.cast_mul, hnat, Nat.cast_pow]
    exact (zpow_natCast (10 : ℚ) 1074).symm
  have hscale : (scale : ℚ) ≠ 0 := by exact_mod_cast scale_pos.ne'
  rw [eq_div_iff hscale, Decimal.magnitude, mul_assoc, hone, mul_assoc,
    ← zpow_add₀ (by norm_num), sub_add_cancel, zpow_natCast]
  push_cast
  rfl

theorem readsBack_of_onGrid? {r p n : Nat} (h : onGrid? r p = some n) :
    readsBack r (n * p) = true := by
  unfold onGrid? at h
  dsimp only at h
  split at h
  · cases h
  · rename_i below _
    cases h; exact below
  · rename_i _ above
    cases h; exact above
  · rename_i below above
    split at h
    · cases h; exact below
    · cases h; exact above

/-- **The shortest decimal of a rank rounds to the rank.** -/
theorem rounds_shortest (r : Nat) : Rounds r (shortest r).magnitude := by
  unfold shortest
  dsimp only
  generalize hfound : List.findSome? _ (List.range 17) = found
  cases found with
  | none =>
      have hexact := magnitude_grid (units r * scale) 0
      have hscale : (scale : ℚ) ≠ 0 := by exact_mod_cast scale_pos.ne'
      simp only [Nat.cast_zero, zero_sub, pow_zero, mul_one, Nat.cast_mul,
        mul_div_cancel_right₀ _ hscale] at hexact
      rw [Option.getD_none, hexact]
      exact rounds_units r
  | some d =>
      obtain ⟨n, -, hn⟩ := List.exists_of_findSome?_eq_some hfound
      obtain ⟨digits, hgrid, rfl⟩ := Option.map_eq_some_iff.mp hn
      rw [Option.getD_some, magnitude_grid]
      exact readsBack_iff.mp (readsBack_of_onGrid? hgrid)

end Number

namespace Decimal

/-! ### Runs of digits -/

/-- Digits only. -/
def IsRun (cs : List Char) : Prop := ∀ c ∈ cs, c.isDigit

theorem isRun_toDigits (n : Nat) : IsRun (Nat.toDigits 10 n) :=
  fun _ hc => Nat.isDigit_of_mem_toDigits (by decide) (by decide) hc

theorem isRun_zeros (n : Nat) : IsRun (List.replicate n '0') := by
  intro c hc
  rw [List.eq_of_mem_replicate hc]
  decide

theorem IsRun.append {l m : List Char} (hl : IsRun l) (hm : IsRun m) : IsRun (l ++ m) :=
  fun c hc => (List.mem_append.mp hc).elim (hl c) (hm c)

/-- A run is cut off where the digits end. -/
theorem IsRun.span {l : List Char} (hl : IsRun l) (rest : List Char)
    (hrest : ∀ c ∈ rest.head?, c.isDigit = false) :
    (l ++ rest).takeWhile Char.isDigit = l ∧ (l ++ rest).dropWhile Char.isDigit = rest := by
  rw [List.takeWhile_append_of_pos hl, List.dropWhile_append_of_pos hl]
  cases rest with
  | nil => simp
  | cons c cs =>
      have hc : ¬ c.isDigit := by simp [hrest c (by simp)]
      rw [List.takeWhile_cons_of_neg hc, List.dropWhile_cons_of_neg hc]
      simp

theorem value_zeros_append (n : Nat) (l : List Char) :
    value (List.replicate n '0' ++ l) = value l := by
  simp [value, Nat.ofDigitChars_append, Nat.ofDigitChars_replicate_zero]

theorem value_append_zeros (l : List Char) (n : Nat) :
    value (l ++ List.replicate n '0') = value l * 10 ^ n := by
  simp [value, Nat.ofDigitChars_append, Nat.ofDigitChars_replicate_zero, Nat.mul_comm]

theorem value_toDigits (n : Nat) : value (Nat.toDigits 10 n) = n := Nat.ofDigitChars_ten_toDigits

/-! ### The grammar, backwards -/

theorem read?_whole {whole : List Char} (hne : whole ≠ []) (hw : IsRun whole) (rest : List Char)
    (hrest : ∀ c ∈ rest.head?, c.isDigit = false ∧ c ≠ '.') :
    read? (whole ++ rest) = (readExponent? rest).map fun e => ⟨value whole, e⟩ := by
  obtain ⟨htake, hdrop⟩ := hw.span rest fun c hc => (hrest c hc).1
  unfold read?
  rw [htake, hdrop]
  cases rest with
  | nil => simp [hne]
  | cons c cs =>
      have hc : c ≠ '.' := (hrest c (by simp)).2
      split
      rename_i heq
      split at heq
      · rename_i h
        exact absurd (List.cons_eq_cons.mp h).1 hc
      · cases heq
        simp [hne]

theorem read?_point {whole fraction : List Char} (hne : whole ≠ []) (hw : IsRun whole)
    (hf : IsRun fraction) (rest : List Char) (hrest : ∀ c ∈ rest.head?, c.isDigit = false) :
    read? (whole ++ '.' :: (fraction ++ rest)) =
      (readExponent? rest).map fun e => ⟨value (whole ++ fraction), e - fraction.length⟩ := by
  obtain ⟨htake, hdrop⟩ := hw.span ('.' :: (fraction ++ rest)) (by simp)
  obtain ⟨htake', hdrop'⟩ := hf.span rest hrest
  unfold read?
  rw [htake, hdrop]
  simp only [htake', hdrop', hne, false_and, ↓reduceIte]

theorem readExponent?_writeExponent (layout : Layout) (e : Int) :
    readExponent? ('e' :: layout.writeExponent e) = some e := by
  have hrun : IsRun (List.replicate (layout.exponentDigits - (Nat.toDigits 10 e.natAbs).length) '0' ++
      Nat.toDigits 10 e.natAbs) := (isRun_zeros _).append (isRun_toDigits _)
  have hne : List.replicate (layout.exponentDigits - (Nat.toDigits 10 e.natAbs).length) '0' ++
      Nat.toDigits 10 e.natAbs ≠ [] := by simp [Nat.toDigits_ne_nil]
  have hvalue := value_zeros_append (layout.exponentDigits - (Nat.toDigits 10 e.natAbs).length)
    (Nat.toDigits 10 e.natAbs)
  rw [value_toDigits] at hvalue
  unfold Layout.writeExponent readExponent?
  dsimp only
  by_cases he : e < 0
  · rw [if_pos he, sign, hvalue, if_pos ⟨.inl rfl, hne, List.all_eq_true.mpr hrun⟩, if_pos rfl]
    congr 1
    omega
  · rw [if_neg he, sign, hvalue, if_pos ⟨.inl rfl, hne, List.all_eq_true.mpr hrun⟩,
      if_neg Bool.false_ne_true]
    congr 1
    omega

end Decimal

/-! ### Layouts -/

/-- A character of decimals. -/
def isNumeralChar (c : Char) : Bool := c.isDigit || c == '.' || c == 'e' || c == '+' || c == '-'

/-- The text of a decimal that is worth `x` units. -/
structure Shows (cs : List Char) (x : ℚ) : Prop where
  reads : ∃ d, Decimal.read? cs = some d ∧ d.magnitude = x
  chars : ∀ c ∈ cs, isNumeralChar c
  head : ∃ c rest, cs = c :: rest ∧ c.isDigit

namespace Decimal

theorem magnitude_shift (n k : Nat) (e : Int) :
    (⟨n * 10 ^ k, e⟩ : Decimal).magnitude = (⟨n, e + k⟩ : Decimal).magnitude := by
  simp only [magnitude]
  rw [zpow_add₀ (by norm_num), zpow_natCast]
  push_cast
  ring

theorem IsRun.chars {l : List Char} (hl : IsRun l) : ∀ c ∈ l, isNumeralChar c := by
  intro c hc
  simp [isNumeralChar, hl c hc]

theorem isNumeralChar_writeExponent (layout : Layout) (e : Int) :
    ∀ c ∈ layout.writeExponent e, isNumeralChar c := by
  have hsign : isNumeralChar (if e < 0 then '-' else '+') := by split <;> decide
  exact List.forall_mem_cons.mpr ⟨hsign, ((isRun_zeros _).append (isRun_toDigits _)).chars⟩

/-- A run of digits is its own integer. -/
theorem shows_run {l : List Char} (hne : l ≠ []) (hl : IsRun l) :
    Shows l (⟨value l, 0⟩ : Decimal).magnitude := by
  obtain ⟨c, rest, rfl⟩ := List.exists_cons_of_ne_nil hne
  refine ⟨⟨_, ?_, rfl⟩, hl.chars, c, rest, rfl, hl c (by simp)⟩
  have := read?_whole hne hl [] (by simp)
  simpa [readExponent?] using this

/-- A point between two runs. -/
theorem shows_point (whole fraction : List Char) (hne : whole ≠ []) (hw : IsRun whole)
    (hf : IsRun fraction) :
    Shows (whole ++ '.' :: fraction)
      (⟨value (whole ++ fraction), -fraction.length⟩ : Decimal).magnitude := by
  obtain ⟨c, rest, rfl⟩ := List.exists_cons_of_ne_nil hne
  refine ⟨⟨_, ?_, rfl⟩, ?_, c, _, rfl, hw c (by simp)⟩
  · have := read?_point hne hw hf [] (by simp)
    simpa [readExponent?] using this
  · intro d hd
    rcases List.mem_append.mp hd with hd | hd
    · exact hw.chars d hd
    · rcases List.mem_cons.mp hd with rfl | hd
      · decide
      · exact hf.chars d hd

/-- One digit, a point with the others if there are any, and an exponent. -/
theorem shows_exponent (layout : Layout) {c : Char} {fraction : List Char}
    (hl : IsRun (c :: fraction)) (e : Int) :
    Shows ([c] ++ (if fraction = [] then [] else '.' :: fraction) ++ 'e' :: layout.writeExponent e)
      (⟨value (c :: fraction), e - fraction.length⟩ : Decimal).magnitude := by
  have hc : IsRun [c] := by simpa [IsRun] using hl c (by simp)
  have hf : IsRun fraction := fun d hd => hl d (List.mem_cons_of_mem c hd)
  have hexp := readExponent?_writeExponent layout e
  have hchars := isNumeralChar_writeExponent layout e
  refine ⟨⟨_, ?_, rfl⟩, ?_, c, _, rfl, hl c (by simp)⟩
  · by_cases h : fraction = []
    · subst h
      have := read?_whole (by simp) hc ('e' :: layout.writeExponent e) (by simp)
      simpa [hexp] using this
    · have := read?_point (by simp) hc hf ('e' :: layout.writeExponent e) (by simp)
      simpa [hexp, h] using this
  · have hmark : isNumeralChar 'e' := by decide
    have hpoint : isNumeralChar '.' := by decide
    intro d hd
    simp only [List.append_assoc, List.mem_append, List.mem_cons, List.not_mem_nil, or_false] at hd
    rcases hd with rfl | hd | rfl | hd
    · exact hc.chars d (by simp)
    · split at hd
      · cases hd
      · rcases List.mem_cons.mp hd with rfl | hd
        · exact hpoint
        · exact hf.chars d hd
    · exact hmark
    · exact hchars d hd

/-- **However digits are laid out, what is read is worth the same.** -/
theorem shows_write (layout : Layout) {l : List Char} (hne : l ≠ []) (hl : IsRun l) (e : Int) :
    Shows (layout.write l e) (⟨value l, e + 1 - l.length⟩ : Decimal).magnitude := by
  unfold Layout.write
  split
  · obtain ⟨c, fraction, rfl⟩ := List.exists_cons_of_ne_nil hne
    have hexp : e + 1 - (c :: fraction).length = e - fraction.length := by
      simp only [List.length_cons]; omega
    rw [hexp]
    exact shows_exponent layout hl e
  · split
    · -- Zeros come in front, after the point.
      have := shows_point ['0'] _ (by simp) (by simp [IsRun])
        ((isRun_zeros ((-e).toNat - 1)).append hl)
      have hvalue : value (['0'] ++ (List.replicate ((-e).toNat - 1) '0' ++ l)) = value l :=
        (value_zeros_append 1 _).trans (value_zeros_append _ l)
      have hexp : -((List.replicate ((-e).toNat - 1) '0' ++ l).length : Int) = e + 1 - l.length := by
        rw [List.length_append, List.length_replicate]; omega
      rwa [hvalue, hexp] at this
    · dsimp only
      by_cases hlen : l.length ≤ e.toNat + 1
      · -- Zeros come after the digits, before the point, and one after it.
        rw [List.take_of_length_le hlen, List.drop_of_length_le hlen, if_pos rfl]
        have := shows_point (l ++ List.replicate (e.toNat + 1 - l.length) '0')
          ['0'] (by simp [hne]) (hl.append (isRun_zeros _)) (by simp [IsRun])
        have hvalue : value (l ++ List.replicate (e.toNat + 1 - l.length) '0' ++ ['0']) =
            value l * 10 ^ (e.toNat + 1 - l.length + 1) := by
          rw [← value_append_zeros, List.append_assoc, List.replicate_succ']
        rw [hvalue, magnitude_shift] at this
        convert this using 4
        simp only [List.length_singleton]
        omega
      · -- The point comes between the digits.
        have hzeros : e.toNat + 1 - l.length = 0 := by omega
        have hdrop : l.drop (e.toNat + 1) ≠ [] := by simp; omega
        rw [hzeros, List.replicate_zero, List.append_nil, if_neg hdrop]
        have := shows_point (l.take (e.toNat + 1)) _ (by simp [hne])
          (fun c hc => hl c (List.mem_of_mem_take hc))
          (fun c hc => hl c (List.mem_of_mem_drop (i := e.toNat + 1) hc))
        rw [List.take_append_drop] at this
        convert this using 4
        rw [List.length_drop]
        omega

/-- A text is what is left without the zeros at its end, and those zeros. -/
theorem exists_zeros (l : List Char) :
    ∃ k, l = (l.reverse.dropWhile (· == '0')).reverse ++ List.replicate k '0' := by
  refine ⟨(l.reverse.takeWhile (· == '0')).length, ?_⟩
  have hzeros : l.reverse.takeWhile (· == '0') =
      List.replicate (l.reverse.takeWhile (· == '0')).length '0' :=
    List.eq_replicate_of_mem fun c hc => by simpa using List.mem_takeWhile_imp hc
  rw [← List.reverse_replicate, ← hzeros, ← List.reverse_append, List.takeWhile_append_dropWhile,
    List.reverse_reverse]

/-- **A decimal reads back from its text with the same worth**, though without its last zeros. -/
theorem shows_writeDecimal (layout : Layout) (d : Decimal) :
    Shows (layout.writeDecimal d) d.magnitude := by
  obtain ⟨k, hk⟩ := exists_zeros (Nat.toDigits 10 d.digits)
  unfold Layout.writeDecimal
  dsimp only
  generalize ((Nat.toDigits 10 d.digits).reverse.dropWhile (· == '0')).reverse = l at hk ⊢
  have hl : IsRun l := fun c hc => isRun_toDigits d.digits c (by rw [hk]; simp [hc])
  have hdigits : d.digits = value l * 10 ^ k := by
    rw [← value_append_zeros, ← hk, value_toDigits]
  by_cases hne : l = []
  · have hzero : d.digits = 0 := by rw [hdigits, hne]; simp [value]
    have := shows_write layout (l := ['0']) (by simp) (by simp [IsRun])
      (d.exponent + (Nat.toDigits 10 d.digits).length - 1)
    rw [magnitude_of_zero (d := ⟨value ['0'], _⟩) rfl] at this
    rw [if_pos hne, magnitude_of_zero hzero]
    exact this
  · have := shows_write layout hne hl (d.exponent + (Nat.toDigits 10 d.digits).length - 1)
    have hlen : (Nat.toDigits 10 d.digits).length = l.length + k := by
      rw [hk, List.length_append, List.length_replicate]
    have hexp : d.exponent + (Nat.toDigits 10 d.digits).length - 1 + 1 - l.length =
        d.exponent + k := by rw [hlen]; omega
    rw [hexp, ← magnitude_shift, ← hdigits] at this
    rw [if_neg hne]
    exact this

end Decimal

namespace Number

/-! ### Numbers -/

/-- A number with no sign on zero. -/
def unsigned : Number → Number
  | finite negative rank => finite (negative && rank.val != 0) rank
  | n => n

theorem isNumeralChar_ascii {c : Char} (h : isNumeralChar c) :
    (c.val < 128 && c != '_') = true ∧ isPadding c = false := by
  simp only [isNumeralChar, Bool.or_eq_true, beq_iff_eq, or_assoc] at h
  rcases h with h | rfl | rfl | rfl | rfl
  · simp only [Char.isDigit, Bool.and_eq_true, decide_eq_true_eq] at h
    obtain ⟨h₁, h₂⟩ := h
    have hne : c ≠ '_' := by rintro rfl; exact absurd h₂ (by decide)
    have hsp : c ≠ ' ' := by rintro rfl; exact absurd h₁ (by decide)
    have hlt : c.val < 128 := by grind
    have h13 : ¬ c.val ≤ 13 := by grind
    simp [hne, hsp, hlt, h13, isPadding]
  · decide
  · decide
  · decide
  · decide

theorem unpad_eq_self {cs : List Char} (h : ∀ c ∈ cs, isPadding c = false) : unpad cs = cs := by
  have hself : ∀ l : List Char, (∀ c ∈ l, isPadding c = false) → l.dropWhile isPadding = l := by
    intro l hl
    cases l with
    | nil => rfl
    | cons c l => rw [List.dropWhile_cons_of_neg (by simp [hl c (by simp)])]
  unfold unpad
  rw [hself cs h, hself cs.reverse fun c hc => h c (List.mem_reverse.mp hc), List.reverse_reverse]

/-- A text without padding is read after its sign. -/
theorem read?_of_isNumeralChar {cs : List Char} (h : ∀ c ∈ cs, isNumeralChar c) :
    read? cs = readUnsigned? (Decimal.sign cs).1 (Decimal.sign cs).2 := by
  have hascii : cs.all fun c => c.val < 128 && c != '_' :=
    List.all_eq_true.mpr fun c hc => (isNumeralChar_ascii (h c hc)).1
  unfold read?
  rw [if_pos hascii, unpad_eq_self fun c hc => (isNumeralChar_ascii (h c hc)).2]

/-- A text that shows a magnitude of rank `r` is read as the number of that rank. -/
theorem read?_signed {cs : List Char} {x : ℚ} (h : Shows cs x) {r : Fin rankCount}
    (hr : Rounds r x) (negative : Bool) :
    read? (signed negative cs) = some (finite negative r) := by
  obtain ⟨⟨d, hd, rfl⟩, hchars, c, rest, rfl, hc⟩ := h
  have hread : readUnsigned? negative (c :: rest) = some (finite negative r) := by
    have hlower : c.toLower = c := by
      simp only [Char.isDigit, Bool.and_eq_true, decide_eq_true_eq] at hc
      unfold Char.toLower
      rw [dif_neg]
      grind
    have hi : c ≠ 'i' := by rintro rfl; exact absurd hc (by decide)
    have hn : c ≠ 'n' := by rintro rfl; exact absurd hc (by decide)
    simp [readUnsigned?, hlower, hi, hn, hd, ofDecimal_eq_finite negative hr]
  have hsign : Decimal.sign (c :: rest) = (false, c :: rest) := by
    unfold Decimal.sign
    split
    · rename_i heq
      cases heq
      exact absurd hc (by decide)
    · rename_i heq
      cases heq
      exact absurd hc (by decide)
    · rfl
  cases negative with
  | false =>
      rw [signed, if_neg Bool.false_ne_true, read?_of_isNumeralChar hchars, hsign]
      exact hread
  | true =>
      have hchars' : ∀ d ∈ '-' :: c :: rest, isNumeralChar d :=
        List.forall_mem_cons.mpr ⟨by decide, hchars⟩
      rw [signed, if_pos rfl, read?_of_isNumeralChar hchars', Decimal.sign]
      exact hread

/-- The digits of an integral number of units show it. -/
theorem shows_integer {u : Nat} (h : u % one = 0) : Shows (Nat.toDigits 10 (u / one)) u := by
  have := Decimal.shows_run Nat.toDigits_ne_nil (Decimal.isRun_toDigits (u / one))
  have hu : (⟨Decimal.value (Nat.toDigits 10 (u / one)), 0⟩ : Decimal).magnitude = u := by
    rw [Decimal.value_toDigits, Decimal.magnitude, zpow_zero, mul_one]
    exact_mod_cast Nat.div_mul_cancel (Nat.dvd_of_mod_eq_zero h)
  rwa [hu] at this

/-- What stands after the sign in the text of a finite number shows its magnitude, up to
rounding. -/
theorem exists_shows (negative : Bool) (r : Fin rankCount) :
    ∃ cs x, Shows cs x ∧ Rounds r x ∧
      (finite negative r).text.toList = signed (negative && r.val != 0) cs := by
  have hzero : units r = 0 ↔ r.val = 0 := by
    constructor
    · intro h
      by_contra hr
      have := units_strictMono (Nat.pos_of_ne_zero hr)
      omega
    · intro h
      rw [h, units_zero]
  unfold text
  dsimp only
  split
  · rename_i hint
    refine ⟨_, _, shows_integer hint, rounds_units r, ?_⟩
    have hbne : (units r != 0) = (r.val != 0) := by
      rw [Bool.eq_iff_iff, bne_iff_ne, bne_iff_ne, ne_eq, ne_eq, hzero]
    rw [String.toList_ofList, hbne]
  · -- Zero is integral, so the sign that is left is the sign of the number.
    rename_i hint
    have hr : r.val ≠ 0 := by
      intro h
      rw [hzero.mpr h, Nat.zero_mod] at hint
      exact hint rfl
    refine ⟨_, _, Decimal.shows_writeDecimal layout (shortest r), rounds_shortest r, ?_⟩
    rw [String.toList_ofList, plainFinite, if_neg hr, bne_iff_ne.mpr hr, Bool.and_true]

/-- **The text of a number reads back as the number**, except for the sign of a zero. -/
theorem read?_text (n : Number) : read? n.text.toList = some n.unsigned := by
  cases n with
  | nan => decide
  | infinite negative => cases negative <;> decide
  | finite negative r =>
      obtain ⟨cs, x, hshows, hrounds, htext⟩ := exists_shows negative r
      rw [htext, read?_signed hshows hrounds]
      rfl

end Number

end Curried
