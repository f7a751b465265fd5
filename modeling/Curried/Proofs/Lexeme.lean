import Curried.Token.Lexer
import Mathlib.Data.List.Basic
import Mathlib.Data.List.Chain
import Mathlib.Data.List.TakeWhile

/-!
# Proofs — lexemes, and the cuts of a text

A lexeme is a parenthesis, a word — no blank, no parenthesis, no double quote — or a text literal
without parentheses.  A *cut* of a text splits it into lexemes with gaps of blanks before, between
and after them; a gap may be empty only where a parenthesis stands beside it (`Cut.Valid`).

Nothing here is about the lexer.  The grammar is unambiguous by itself (`Cut.eq_of_text_eq`): the
first gap is the longest run of blanks, and of two lexemes at the same place, each followed by
something that can follow it, neither is longer (`Lexeme.eq_of_append_eq`).
-/

namespace Curried

namespace Text

/-- The interior of a text literal: characters other than quote and backslash, and pairs of a
backslash with any character. -/
inductive Interior : List Char → Prop where
  | nil : Interior []
  | plain {c : Char} {cs : List Char} (hq : c ≠ '"') (hb : c ≠ '\\') (h : Interior cs) :
      Interior (c :: cs)
  | pair {c : Char} {cs : List Char} (h : Interior cs) : Interior ('\\' :: c :: cs)

theorem Interior.interior? {b : List Char} (h : Interior b) :
    Text.interior? (b ++ ['"']) = some b := by
  induction h with
  | nil => rfl
  | plain hq hb h ih =>
      rw [List.cons_append, Text.interior?, ih, Option.map_some]
      · simp [hq]
      · simp [hq]
      · simp [hb]
  | pair h ih =>
      rw [List.cons_append, List.cons_append, Text.interior?, ih, Option.map_some]

theorem interior_of_interior? {cs b : List Char} (h : Text.interior? cs = some b) :
    cs = b ++ ['"'] ∧ Interior b := by
  fun_induction Text.interior? cs generalizing b with
  | case1 => cases h; exact ⟨rfl, .nil⟩
  | case2 => cases h
  | case3 c cs ih =>
      obtain ⟨u, hu, rfl⟩ := Option.map_eq_some_iff.mp h
      obtain ⟨rfl, hi⟩ := ih hu
      exact ⟨rfl, .pair hi⟩
  | case4 c cs hq hq' hb ih =>
      obtain ⟨u, hu, rfl⟩ := Option.map_eq_some_iff.mp h
      obtain ⟨rfl, hi⟩ := ih hu
      refine ⟨rfl, .plain (fun e => hq' e) (fun e => ?_) hi⟩
      obtain ⟨d, ds, e'⟩ := List.exists_cons_of_ne_nil (l := u ++ ['"']) (by simp)
      exact hb d ds e e'
  | case5 => cases h

/-- What the literals are: a quote, an interior, a quote. -/
theorem unquote?_eq_some_iff {l b : List Char} :
    unquote? l = some b ↔ l = '"' :: (b ++ ['"']) ∧ Interior b := by
  constructor
  · intro h
    unfold unquote? at h
    split at h
    · obtain ⟨rfl, hi⟩ := interior_of_interior? h
      exact ⟨rfl, hi⟩
    · cases h
  · rintro ⟨rfl, hi⟩
    exact hi.interior?

/-- An interior ends at the first quote that no backslash takes. -/
theorem Interior.eq_of_append_eq {b b' r r' : List Char} (h : Interior b) (h' : Interior b')
    (e : b ++ '"' :: r = b' ++ '"' :: r') : b = b' := by
  induction h generalizing b' with
  | nil =>
      cases h' with
      | nil => rfl
      | plain hq hb h' => cases e; exact absurd rfl hq
      | pair h' => cases e
  | plain hq hb h ih =>
      cases h' with
      | nil => cases e; exact absurd rfl hq
      | plain hq' hb' h' =>
          obtain ⟨rfl, tail⟩ := List.cons_eq_cons.mp e
          rw [ih h' tail]
      | pair h' => exact absurd (List.cons_eq_cons.mp e).1 hb
  | pair h ih =>
      cases h' with
      | nil => cases e
      | plain hq' hb' h' => exact absurd (List.cons_eq_cons.mp e).1.symm hb'
      | pair h' =>
          obtain ⟨rfl, tail⟩ := List.cons_eq_cons.mp (List.cons_eq_cons.mp e).2
          rw [ih h' tail]

end Text

/-- A character that is a token by itself. -/
def isParen (c : Char) : Bool := c == '(' || c == ')'

/-- A character of words. -/
def isWordChar (c : Char) : Bool := !Text.isBlank c && !isParen c && c != '"'

/-- A lexeme of the language. -/
inductive Lexeme : List Char → Prop where
  | paren {c : Char} (h : isParen c) : Lexeme [c]
  | word {l : List Char} (h : l ≠ []) (hw : ∀ c ∈ l, isWordChar c) : Lexeme l
  | quoted {l body : List Char} (h : Text.unquote? l = some body) (hp : ∀ c ∈ l, !isParen c) :
      Lexeme l

/-- A lexeme that is a parenthesis. -/
def IsParen (l : List Char) : Prop := ∃ c, isParen c ∧ l = [c]

theorem not_isParen_of_forall {l : List Char} (h : ∀ c ∈ l, !isParen c) : ¬ IsParen l := by
  rintro ⟨c, hc, rfl⟩
  have := h c (by simp)
  simp [hc] at this

/-- Nothing but blanks. -/
def IsGap (w : List Char) : Prop := ∀ c ∈ w, Text.isBlank c

/-- What can follow a lexeme that is no parenthesis: the end, a blank or a parenthesis. -/
def Stops : List Char → Prop
  | [] => True
  | c :: _ => Text.isBlank c ∨ isParen c

theorem Stops.append {cs rest : List Char} (h : Stops cs) (hrest : Stops rest) :
    Stops (cs ++ rest) := by
  cases cs with
  | nil => exact hrest
  | cons c cs => exact h

/-- A lexeme and the gap in front of it. -/
structure Piece where
  gap : List Char
  lexeme : List Char

/-- Two neighbours that do not run together. -/
def Piece.Apart (p q : Piece) : Prop := IsParen p.lexeme ∨ IsParen q.lexeme ∨ q.gap ≠ []

/-- A text cut into lexemes and gaps: `w₀ l₁ w₁ l₂ … lₙ wₙ`. -/
structure Cut where
  pieces : List Piece
  last : List Char

namespace Cut

/-- The text that was cut. -/
def text (c : Cut) : List Char := c.pieces.flatMap (fun p => p.gap ++ p.lexeme) ++ c.last

/-- The gaps are blank, the lexemes are lexemes, and neighbours are apart. -/
structure Valid (c : Cut) : Prop where
  gaps : ∀ p ∈ c.pieces, IsGap p.gap
  lexemes : ∀ p ∈ c.pieces, Lexeme p.lexeme
  last : IsGap c.last
  apart : c.pieces.IsChain Piece.Apart

theorem text_cons (p : Piece) (ps : List Piece) (last : List Char) :
    text ⟨p :: ps, last⟩ = p.gap ++ (p.lexeme ++ text ⟨ps, last⟩) := by simp [text]

/-- One more lexeme in front, right at the beginning. -/
def lead (l : List Char) (c : Cut) : Cut := ⟨⟨[], l⟩ :: c.pieces, c.last⟩

/-- One more blank in front. -/
def pad (b : Char) : Cut → Cut
  | ⟨[], last⟩ => ⟨[], b :: last⟩
  | ⟨p :: ps, last⟩ => ⟨⟨b :: p.gap, p.lexeme⟩ :: ps, last⟩

@[simp] theorem text_lead (l : List Char) (c : Cut) : (c.lead l).text = l ++ c.text := by
  simp [text, lead]

@[simp] theorem text_pad (b : Char) (c : Cut) : (c.pad b).text = b :: c.text := by
  obtain ⟨_ | ⟨p, ps⟩, last⟩ := c <;> simp [text, pad]

/-- A parenthesis may stand in front of every cut. -/
theorem Valid.lead_paren {c : Cut} (h : c.Valid) {b : Char} (hb : isParen b) :
    (c.lead [b]).Valid := by
  refine ⟨?_, ?_, h.last, ?_⟩
  · rintro p (_ | ⟨_, hp⟩)
    · simp [IsGap]
    · exact h.gaps p hp
  · rintro p (_ | ⟨_, hp⟩)
    · exact .paren hb
    · exact h.lexemes p hp
  · exact List.isChain_cons.mpr ⟨fun _ _ => .inl ⟨b, hb, rfl⟩, h.apart⟩

/-- Another lexeme may stand in front of a cut that begins with a blank or a parenthesis. -/
theorem Valid.lead {c : Cut} (h : c.Valid) {l : List Char} (hl : Lexeme l)
    (hc : ∀ p ∈ c.pieces.head?, IsParen p.lexeme ∨ p.gap ≠ []) : (c.lead l).Valid := by
  refine ⟨?_, ?_, h.last, ?_⟩
  · rintro p (_ | ⟨_, hp⟩)
    · simp [IsGap]
    · exact h.gaps p hp
  · rintro p (_ | ⟨_, hp⟩)
    · exact hl
    · exact h.lexemes p hp
  · exact List.isChain_cons.mpr ⟨fun p hp => .inr (hc p hp), h.apart⟩

theorem Valid.pad {c : Cut} (h : c.Valid) {b : Char} (hb : Text.isBlank b) : (c.pad b).Valid := by
  obtain ⟨_ | ⟨p, ps⟩, last⟩ := c
  · exact ⟨by simp [Cut.pad], by simp [Cut.pad], List.forall_mem_cons.mpr ⟨hb, h.last⟩, .nil⟩
  · obtain ⟨hg, hl, hlast, hap⟩ := h
    rw [List.forall_mem_cons] at hg hl
    refine ⟨List.forall_mem_cons.mpr ⟨List.forall_mem_cons.mpr ⟨hb, hg.1⟩, hg.2⟩,
      List.forall_mem_cons.mpr ⟨hl.1, hl.2⟩, hlast, ?_⟩
    exact List.isChain_cons.mpr (List.isChain_cons (x := p).mp hap)

/-- A cut begins with a gap after padding. -/
theorem gap_pad (b : Char) (c : Cut) : ∀ p ∈ (c.pad b).pieces.head?, p.gap ≠ [] := by
  obtain ⟨_ | ⟨p, ps⟩, last⟩ := c <;> simp [Cut.pad]

end Cut

/-! ### Unambiguity -/

theorem isParen_not_isBlank {c : Char} (h : isParen c) : Text.isBlank c = false := by
  simp only [isParen, Bool.or_eq_true, beq_iff_eq] at h
  rcases h with rfl | rfl <;> decide

/-- The first character of a lexeme is no blank. -/
theorem Lexeme.not_isBlank_head {l : List Char} (h : Lexeme l) :
    ∃ c cs, l = c :: cs ∧ Text.isBlank c = false := by
  cases h with
  | paren h => exact ⟨_, [], rfl, isParen_not_isBlank h⟩
  | word h hw =>
      obtain ⟨c, cs, rfl⟩ := List.exists_cons_of_ne_nil h
      have := hw c (by simp)
      simp only [isWordChar, Bool.and_eq_true, Bool.not_eq_true'] at this
      exact ⟨c, cs, rfl, this.1.1⟩
  | quoted h hp =>
      unfold Text.unquote? at h
      split at h
      · exact ⟨'"', _, rfl, by decide⟩
      · cases h

/-- A word followed by something that can follow it is the longest run of word characters. -/
theorem takeWhile_word {l r : List Char} (hw : ∀ c ∈ l, isWordChar c) (hr : Stops r) :
    (l ++ r).takeWhile isWordChar = l := by
  rw [List.takeWhile_append_of_pos hw]
  suffices r.takeWhile isWordChar = [] by rw [this, List.append_nil]
  cases r with
  | nil => rfl
  | cons c cs => rw [List.takeWhile_cons_of_neg]; rcases hr with h | h <;> simp [isWordChar, h]

/-- **Of two lexemes at the same place neither is longer**, if each is a parenthesis or is followed
by something that can follow it. -/
theorem Lexeme.eq_of_append_eq {l l' r r' : List Char} (h : Lexeme l) (h' : Lexeme l')
    (hr : IsParen l ∨ Stops r) (hr' : IsParen l' ∨ Stops r') (e : l ++ r = l' ++ r') : l = l' := by
  -- The first character tells the class.
  have head : ∀ {c : Char} {cs : List Char}, Lexeme (c :: cs) →
      (isParen c ∧ cs = []) ∨ (isWordChar c ∧ ∀ d ∈ c :: cs, isWordChar d) ∨
        (c = '"' ∧ ∃ b, Text.Interior b ∧ cs = b ++ ['"']) := by
    intro c cs h
    cases h with
    | paren h => exact .inl ⟨h, rfl⟩
    | word _ hw => exact .inr (.inl ⟨hw c (by simp), hw⟩)
    | quoted h _ =>
        obtain ⟨e, hi⟩ := Text.unquote?_eq_some_iff.mp h
        obtain ⟨rfl, rfl⟩ := List.cons_eq_cons.mp e
        exact .inr (.inr ⟨rfl, _, hi, rfl⟩)
  obtain ⟨c, cs, rfl, -⟩ := h.not_isBlank_head
  obtain ⟨d, ds, rfl, -⟩ := h'.not_isBlank_head
  have split := e
  simp only [List.cons_append, List.cons.injEq] at split
  obtain ⟨rfl, tail⟩ := split
  rcases head h with ⟨hp, rfl⟩ | ⟨hc, hw⟩ | ⟨rfl, b, hb, rfl⟩
  · rcases head h' with ⟨-, rfl⟩ | ⟨hc, -⟩ | ⟨rfl, -⟩
    · rfl
    · simp [isWordChar, hp] at hc
    · exact absurd hp (by decide)
  · have notParen : ∀ {es : List Char}, ¬ IsParen (c :: es) := by
      rintro es ⟨b, hb, he⟩
      obtain ⟨rfl, -⟩ := List.cons_eq_cons.mp he
      simp [isWordChar, hb] at hc
    rcases head h' with ⟨hp, -⟩ | ⟨-, hw'⟩ | ⟨rfl, -⟩
    · simp [isWordChar, hp] at hc
    · rw [← takeWhile_word hw (hr.resolve_left notParen), e,
        takeWhile_word hw' (hr'.resolve_left notParen)]
    · exact absurd hc (by decide)
  · rcases head h' with ⟨hp, -⟩ | ⟨hc, -⟩ | ⟨-, b', hb', rfl⟩
    · exact absurd hp (by decide)
    · exact absurd hc (by decide)
    · simp only [List.append_assoc, List.cons_append, List.nil_append] at tail
      rw [hb.eq_of_append_eq hb' tail]

/-- The longest run of blanks in front of a lexeme, or of the end. -/
theorem takeWhile_gap {w r : List Char} (hw : IsGap w) (hr : ∀ c ∈ r.head?, Text.isBlank c = false) :
    (w ++ r).takeWhile Text.isBlank = w := by
  rw [List.takeWhile_append_of_pos hw]
  suffices r.takeWhile Text.isBlank = [] by rw [this, List.append_nil]
  cases r with
  | nil => rfl
  | cons c cs => rw [List.takeWhile_cons_of_neg]; simp [hr c (by simp)]

namespace Cut

/-- What follows the first lexeme of a valid cut can follow it. -/
theorem Valid.stops {p : Piece} {ps : List Piece} {last : List Char}
    (h : Valid ⟨p :: ps, last⟩) : IsParen p.lexeme ∨ Stops (text ⟨ps, last⟩) := by
  cases ps with
  | nil =>
      right
      cases last with
      | nil => trivial
      | cons c cs => exact .inl (h.last c (by simp))
  | cons q ps =>
      rcases (List.isChain_cons.mp h.apart).1 q (by simp) with hp | ⟨c, hc, hq⟩ | hq
      · exact .inl hp
      · right
        have hg := h.gaps q (by simp)
        cases e : q.gap with
        | nil => simpa [text, e, hq, Stops] using Or.inr hc
        | cons b bs =>
            have hb : Text.isBlank b := hg b (by simp [e])
            simpa [text, e, Stops] using Or.inl hb
      · right
        obtain ⟨b, bs, e⟩ := List.exists_cons_of_ne_nil hq
        have hb : Text.isBlank b := h.gaps q (by simp) b (by simp [e])
        simpa [text, e, Stops] using Or.inl hb

theorem Valid.tail {p : Piece} {ps : List Piece} {last : List Char}
    (h : Valid ⟨p :: ps, last⟩) : Valid ⟨ps, last⟩ :=
  ⟨fun q hq => h.gaps q (List.mem_cons_of_mem p hq),
    fun q hq => h.lexemes q (List.mem_cons_of_mem p hq), h.last, (List.isChain_cons.mp h.apart).2⟩

/-- **The grammar is unambiguous**: a text has at most one valid cut. -/
theorem eq_of_text_eq {c d : Cut} (hc : c.Valid) (hd : d.Valid) (e : c.text = d.text) : c = d := by
  obtain ⟨ps, last⟩ := c
  obtain ⟨qs, last'⟩ := d
  -- A text with a lexeme in it is not blank.
  have notGap : ∀ {p : Piece} {ps : List Piece} {last : List Char}, Valid ⟨p :: ps, last⟩ →
      ¬ IsGap (text ⟨p :: ps, last⟩) := by
    intro p ps last h hg
    obtain ⟨b, bs, hl, hb⟩ := (h.lexemes p (by simp)).not_isBlank_head
    have := hg b (by simp [text, hl])
    rw [hb] at this; cases this
  induction ps generalizing qs with
  | nil =>
      cases qs with
      | nil => simpa [text] using e
      | cons q qs =>
          refine absurd ?_ (notGap hd)
          rw [← e]; simpa [text] using hc.last
  | cons p ps ih =>
      cases qs with
      | nil =>
          refine absurd ?_ (notGap hc)
          rw [e]; simpa [text] using hd.last
      | cons q qs =>
          have start : ∀ {p : Piece} {ps : List Piece} {last : List Char}, Valid ⟨p :: ps, last⟩ →
              ∀ c ∈ (p.lexeme ++ text ⟨ps, last⟩).head?, Text.isBlank c = false := by
            intro p ps last h c hc
            obtain ⟨b, bs, hl, hb⟩ := (h.lexemes p (by simp)).not_isBlank_head
            simp only [hl, List.cons_append, List.head?_cons, Option.mem_def, Option.some.injEq] at hc
            rwa [← hc]
          rw [text_cons, text_cons] at e
          have gap : p.gap = q.gap := by
            rw [← takeWhile_gap (hc.gaps p (by simp)) (start hc), e,
              takeWhile_gap (hd.gaps q (by simp)) (start hd)]
          rw [gap, List.append_cancel_left_eq] at e
          have lexeme : p.lexeme = q.lexeme := Lexeme.eq_of_append_eq (hc.lexemes p (by simp))
            (hd.lexemes q (by simp)) hc.stops hd.stops e
          rw [lexeme, List.append_cancel_left_eq] at e
          obtain ⟨rfl, rfl⟩ := Cut.mk.inj (ih hc.tail qs hd.tail e)
          obtain ⟨pg, pl⟩ := p
          obtain ⟨qg, ql⟩ := q
          cases gap; cases lexeme; rfl

end Cut

end Curried
