import Curried.Proofs.RoundTrip

/-!
# Proofs — literals

What text literals are, and that numbers survive their own text.

* `text_literals`: a literal is a quote, then characters other than quote and backslash and pairs of
  a backslash with any character, then a quote.  The lexer finds the same literals character by
  character, with its two flags: a text between two quotes is one token exactly if it is a literal.
* `numbers_survive_printing`: the text of a number is classified as that number, bit for bit except
  for the sign of a zero, so numbers that differ never print alike.

Both come from the class of a whole lexeme.  A text that is blank at neither end is lexed into one
token exactly if it is one lexeme (`lex_eq_single_iff`), and a literal is classified by nothing but
its own reading.
-/

namespace Curried

/-! ### Text literals -/

/-- A text that is blank at neither end is one token exactly if it is a lexeme with that class. -/
theorem lex_eq_single_iff {source : String} {kind : Kind} {value : Tree}
    (hhead : ∀ c ∈ source.toList.head?, Text.isBlank c = false)
    (hlast : ∀ c ∈ source.toList.getLast?, Text.isBlank c = false) :
    (lex source).result = .ok [⟨kind, value, .first⟩] ↔
      Lexeme source.toList ∧ Lexeme.reads? source.toList = some (kind, value) := by
  constructor
  · intro h
    obtain ⟨⟨_ | ⟨p, _ | ⟨q, ps⟩⟩, last⟩, hc, htext, hspells⟩ := lex_eq_ok_iff.mp h
    · cases hspells
    · obtain ⟨_, _, _, htokens, hreads, -⟩ := hspells
      obtain ⟨⟨rfl, rfl, -⟩, -⟩ := by simpa using htokens
      -- Neither gap has a character, since it would be a blank at that end.
      have hgap : p.gap = [] := by
        cases hgap : p.gap with
        | nil => rfl
        | cons c cs =>
            have hblank : Text.isBlank c := hc.gaps p (by simp) c (by simp [hgap])
            rw [hhead c (by simp [← htext, Cut.text, hgap])] at hblank
            cases hblank
      have hend : last = [] := by
        rcases List.eq_nil_or_concat last with hend | ⟨cs, c, hend⟩
        · exact hend
        · have hblank : Text.isBlank c := hc.last c (by simp [hend])
          rw [hlast c (by simp [← htext, Cut.text, hend])] at hblank
          cases hblank
      have hlexeme : p.lexeme = source.toList := by simpa [Cut.text, hgap, hend] using htext
      rw [← hlexeme]
      exact ⟨hc.lexemes p (by simp), hreads⟩
    · obtain ⟨_, _, rest, htokens, -, _, _, _, hrest, -, -⟩ := hspells
      simp [hrest] at htokens
  · rintro ⟨hl, hreads⟩
    exact lex_of_lexeme hl hreads

/-- A lexeme with a quote in it is a text exactly if it is a literal with that interior. -/
theorem Token.classify?_eq_text_iff {l : List Char} (hq : '"' ∈ l) {s : String} :
    classify? l = some (.literal, .text s) ↔ Text.unquote? l = some s.toList := by
  constructor
  · intro h
    obtain ⟨body, hbody⟩ := unquote?_of_classify? h hq
    rw [Tree.classify?_text hbody] at h
    cases h
    rw [hbody, String.toList_ofList]
  · intro h
    rw [Tree.classify?_text h, String.ofList_toList]

/-- **Text literals.**  A text `t` is a literal with the interior `b` if and only if it is `b`
between quotes, and `b` is made of characters other than quote and backslash and of pairs of a
backslash with any character.  And a text without parentheses that begins and ends with a quote is
lexed into one token, the literal `b` at the first position, if and only if it is a literal with
the interior `b`. -/
theorem text_literals (t b : String) :
    (Text.unquote? t.toList = some b.toList ↔
      t = "\"" ++ b ++ "\"" ∧ Text.Interior b.toList) ∧
    ((∀ c ∈ t.toList, !isParen c) → t.toList.head? = some '"' → t.toList.getLast? = some '"' →
      (lex t = ⟨[⟨.literal, .text b, ⟨1, 1⟩⟩], none⟩ ↔
        Text.unquote? t.toList = some b.toList)) := by
  have hquoted : t = "\"" ++ b ++ "\"" ↔ t.toList = '"' :: (b.toList ++ ['"']) := by
    rw [← String.toList_inj]
    simp
  refine ⟨by rw [Text.unquote?_eq_some_iff, hquoted], fun hparen hhead hlast => ?_⟩
  have hblank : ∀ c ∈ some '"', Text.isBlank c = false := by
    rintro c ⟨⟩
    decide
  have hmem : '"' ∈ t.toList := List.mem_of_mem_head? hhead
  have hnot : ¬ IsParen t.toList := not_isParen_of_forall hparen
  rw [← Lexed.result_eq_ok_iff]
  calc (lex t).result = .ok [⟨.literal, .text b, .first⟩]
      ↔ Lexeme t.toList ∧ Token.classify? t.toList = some (.literal, .text b) := by
        rw [lex_eq_single_iff (hhead ▸ hblank) (hlast ▸ hblank), Lexeme.reads?_eq_classify? hnot]
    _ ↔ Lexeme t.toList ∧ Text.unquote? t.toList = some b.toList := by
        rw [Token.classify?_eq_text_iff hmem]
    _ ↔ Text.unquote? t.toList = some b.toList :=
        and_iff_right_of_imp fun h => .quoted h hparen

/-- A blank, an escaped quote and, before the closing quote, an escaped backslash. -/
theorem text_literals_escaped :
    Text.unquote? "\"a \\\" b\\\\\"".toList = some "a \\\" b\\\\".toList ∧
    lex "\"a \\\" b\\\\\"" = ⟨[⟨.literal, .text "a \\\" b\\\\", ⟨1, 1⟩⟩], none⟩ := by
  obtain ⟨-, hlex⟩ := text_literals "\"a \\\" b\\\\\"" "a \\\" b\\\\"
  have hread : Text.unquote? "\"a \\\" b\\\\\"".toList = some "a \\\" b\\\\".toList := rfl
  exact ⟨hread, (hlex (List.all_eq_true.mp rfl) rfl rfl).mpr hread⟩

/-! ### Numbers -/

namespace Number

/-- An encoding of 64 bits is that of the number it stands for, unless this is not-a-number. -/
theorem toBits_ofBits {bits : Nat} (h : bits < 2 * signBit) (hn : ofBits bits ≠ nan) :
    (ofBits bits).toBits = bits := by
  unfold ofBits at hn ⊢
  dsimp only at hn ⊢
  have hcut := Nat.div_add_mod bits signBit
  have hsign : bits / signBit < 2 := Nat.div_lt_of_lt_mul (by rwa [Nat.mul_comm])
  have hweight : (if bits / signBit % 2 == 1 then signBit else 0) = signBit * (bits / signBit) := by
    rcases Nat.le_one_iff_eq_zero_or_eq_one.mp (Nat.le_of_lt_succ hsign) with e | e <;> simp [e]
  split
  · rw [toBits, hweight, hcut]
  · rename_i hlow
    rw [dif_neg hlow] at hn
    split
    · rename_i hinf
      rw [toBits, hweight, ← hinf, hcut]
    · rename_i hinf
      rw [if_neg hinf] at hn
      exact absurd rfl hn

/-- Only a zero can lose its sign, and it stays the same number. -/
theorem same_unsigned {n : Number} (h : n ≠ nan) : n.unsigned.same n := by
  cases n with
  | nan => exact absurd rfl h
  | infinite negative => simp [unsigned, same]
  | finite negative r => by_cases hr : r.val = 0 <;> simp [unsigned, same, hr]

/-- The encoding without the sign of a zero. -/
theorem toBits_unsigned (n : Number) :
    n.unsigned.toBits = if n.toBits = signBit then 0 else n.toBits := by
  have hcount : rankCount < signBit := by decide
  cases n with
  | nan => rfl
  | infinite negative => cases negative <;> rfl
  | finite negative r =>
      have hr := r.isLt
      cases negative with
      | false =>
          have hne : r.val ≠ signBit := by omega
          simp [unsigned, toBits, hne]
      | true => by_cases h0 : r.val = 0 <;> simp [unsigned, toBits, h0]

/-- Two numbers are the same without the signs of zeros exactly if they are equal, or not-a-number. -/
theorem unsigned_eq_iff {m n : Number} :
    m.unsigned = n.unsigned ↔ m.same n ∨ (m = nan ∧ n = nan) := by
  cases m with
  | nan => cases n <;> simp [unsigned, same]
  | infinite a => cases n <;> simp [unsigned, same]
  | finite a r =>
      cases n with
      | nan => simp [unsigned, same]
      | infinite b => simp [unsigned, same]
      | finite b s =>
          by_cases hr : r = s
          · subst hr
            by_cases h0 : r.val = 0
            · simp [unsigned, same, h0]
            · simp [unsigned, same, h0, bne_iff_ne.mpr h0]
          · simp [unsigned, same, hr]

/-- Two numbers print alike exactly if they are the same without the signs of zeros. -/
theorem text_eq_iff {m n : Number} : m.text = n.text ↔ m.unsigned = n.unsigned := by
  constructor
  · intro h
    have hread := m.read?_text
    rw [h, n.read?_text] at hread
    exact (Option.some.inj hread).symm
  · intro h
    rw [← Tree.text_unsigned m, h, Tree.text_unsigned]

end Number

/-- **Numbers survive printing.**  For every double, given by its 64 bits, the text of the number is
a literal token.  Its value is not-a-number if the number is, and otherwise equals the number and
has the same bits, except that the negative zero reads back as the positive one.  So two doubles
print alike exactly if they are equal, or both are not-a-number. -/
theorem numbers_survive_printing (d : BitVec 64) (position : Position) :
    (∃ m, Token.ofLexeme (Number.ofBits d.toNat).text.toList position =
        .ok (some ⟨.literal, .num m, position⟩) ∧
      (Number.ofBits d.toNat = .nan → m = .nan) ∧
      (Number.ofBits d.toNat ≠ .nan → m.same (Number.ofBits d.toNat) ∧
        m.toBits = if d.toNat = Number.signBit then 0 else d.toNat)) ∧
    ∀ e : BitVec 64, (Number.ofBits d.toNat).text = (Number.ofBits e.toNat).text ↔
      (Number.ofBits d.toNat).same (Number.ofBits e.toNat) ∨
        (Number.ofBits d.toNat = .nan ∧ Number.ofBits e.toNat = .nan) := by
  have hbits : d.toNat < 2 * Number.signBit := d.isLt
  generalize hn : Number.ofBits d.toNat = n
  refine ⟨⟨n.unsigned, ?_, ?_, fun hnan => ⟨Number.same_unsigned hnan, ?_⟩⟩, fun e => ?_⟩
  · have hne : n.text.toList ≠ [] := by
      obtain ⟨c, cs, hcs, -⟩ := (Tree.lexeme_text n).not_isBlank_head
      simp [hcs]
    rw [Token.ofLexeme, if_neg hne, Tree.classify?_number n.read?_text]
  · rintro rfl
    rfl
  · rw [Number.toBits_unsigned, ← hn, Number.toBits_ofBits hbits (hn ▸ hnan)]
  · rw [Number.text_eq_iff, Number.unsigned_eq_iff]

/-- The least positive double keeps its one bit, the negative zero loses its sign, and a tenth and
its successor print differently. -/
theorem numbers_survive_printing_least :
    (∃ m, Token.ofLexeme (Number.ofBits (1#64).toNat).text.toList .first =
        .ok (some ⟨.literal, .num m, .first⟩) ∧ m.toBits = 1) ∧
    (∃ m, Token.ofLexeme (Number.ofBits (0x8000000000000000#64).toNat).text.toList .first =
        .ok (some ⟨.literal, .num m, .first⟩) ∧ m.toBits = 0) ∧
    (∃ m, Token.ofLexeme (Number.ofBits (0x7FF8000000000001#64).toNat).text.toList .first =
        .ok (some ⟨.literal, .num m, .first⟩) ∧ m = .nan) ∧
    (Number.ofBits (0x3FB999999999999A#64).toNat).text ≠
      (Number.ofBits (0x3FB999999999999B#64).toNat).text := by
  obtain ⟨⟨m, hm, -, hleast⟩, -⟩ := numbers_survive_printing 1#64 .first
  obtain ⟨⟨z, hz, -, hzero⟩, -⟩ := numbers_survive_printing 0x8000000000000000#64 .first
  obtain ⟨⟨a, ha, hnan, -⟩, -⟩ := numbers_survive_printing 0x7FF8000000000001#64 .first
  obtain ⟨-, htenth⟩ := numbers_survive_printing 0x3FB999999999999A#64 .first
  refine ⟨⟨m, hm, (hleast (by decide)).2⟩, ⟨z, hz, (hzero (by decide)).2⟩,
    ⟨a, ha, hnan (by decide)⟩, ?_⟩
  rw [ne_eq, htenth]
  decide

end Curried
