import Curried.Proofs.Lexeme

/-!
# Proofs — lexing is exact

Lexing a text succeeds exactly if the text has a valid cut, and the tokens are then those of the
cut's lexemes, each at the place where its lexeme starts (`lexing_exact`).  With the
unambiguity of cuts, no character is lost, used twice or attributed to the wrong place.

The lexer is a machine with a buffer and two flags.  `Scan.At s before w` says that the machine has
read the text `before` and then holds the unfinished lexeme `w`; this fixes its buffer and positions.
What the flags have to do with `w` is said twice, once for each direction:

* a buffer without a double quote has no blank and is outside a text literal (`Scan.Sound`), so what
  is flushed and classified is a lexeme (`Scan.cut_of_run`);
* over a lexeme the machine never stops early, and after it it is outside a text literal
  (`Scan.run_lexeme`), so a valid cut is followed piece by piece (`Scan.run_cut`).
-/

namespace Curried

/-! ### Places -/

/-- The place after the text `before`: one row for every line feed, and in the last row one column
for every character. -/
def Position.past (before : List Char) : Position :=
  ⟨1 + before.count '\n', 1 + (before.reverse.takeWhile (· ≠ '\n')).length⟩

theorem Position.past_append (before : List Char) (c : Char) :
    past (before ++ [c]) = (past before).next c := by
  by_cases h : c = '\n'
  · simp [past, next, h, Int.add_assoc]
  · simp [past, next, h, Int.add_assoc]

/-! ### What lexemes denote -/

/-- The kind and value of a lexeme. -/
def Lexeme.reads? (l : List Char) : Option (Kind × Tree) :=
  if l = ['('] then some (.opening, .text "(")
  else if l = [')'] then some (.closing, .text ")")
  else Token.classify? l

/-- The tokens of pieces that follow the text `before`. -/
def Spells : List Char → List Piece → List Token → Prop
  | _, [], ts => ts = []
  | before, p :: ps, ts => ∃ kind value rest,
      ts = ⟨kind, value, .past (before ++ p.gap)⟩ :: rest ∧
      Lexeme.reads? p.lexeme = some (kind, value) ∧ Spells (before ++ p.gap ++ p.lexeme) ps rest

theorem Spells.lead {before l : List Char} {c : Cut} {kind : Kind} {value : Tree} {ts : List Token}
    (hl : Lexeme.reads? l = some (kind, value)) (h : Spells (before ++ l) c.pieces ts) :
    Spells before (c.lead l).pieces (⟨kind, value, .past before⟩ :: ts) :=
  ⟨kind, value, ts, by simp, hl, by simpa using h⟩

theorem Spells.pad {before : List Char} {b : Char} {c : Cut} {ts : List Token}
    (h : Spells (before ++ [b]) c.pieces ts) : Spells before (c.pad b).pieces ts := by
  obtain ⟨_ | ⟨p, ps⟩, last⟩ := c
  · exact h
  · obtain ⟨kind, value, rest, rfl, hl, hr⟩ := h
    exact ⟨kind, value, rest, by simp, hl, by simpa using hr⟩

/-! ### Classification -/

theorem mem_dropWhile_of_neg {p : Char → Bool} {c : Char} {cs : List Char} (h : c ∈ cs)
    (hc : ¬ p c) : c ∈ cs.dropWhile p := by
  rw [← List.takeWhile_append_dropWhile (p := p) (l := cs), List.mem_append] at h
  exact h.resolve_left fun ht => hc (List.mem_takeWhile_imp ht)

/-- No spelling of a form has a double quote. -/
theorem Form.quote_not_mem (f : Form) :
    '"' ∉ f.spelling.toList ∧ ∀ a ∈ f.alias?, '"' ∉ a.toList := by
  cases f <;> simp [spelling, alias?]

theorem Form.quote_not_mem_of_ofSpelling? {l : List Char} {f : Form}
    (h : Form.ofSpelling? (String.ofList l) = some f) : '"' ∉ l := by
  obtain ⟨canonical, ascii⟩ := f.quote_not_mem
  have hf := List.find?_some h
  simp only [Bool.or_eq_true, beq_iff_eq] at hf
  rcases hf with e | e
  · rwa [e, String.toList_ofList] at canonical
  · simpa using ascii _ e

/-- No number has a double quote. -/
theorem Decimal.quote_not_mem_of_read? {cs : List Char} {d : Decimal} (h : Decimal.read? cs = some d) :
    '"' ∉ cs := by
  -- The quote is no digit, so it survives every `dropWhile` down to the exponent, which has none.
  have drop : ∀ {cs : List Char}, '"' ∈ cs → '"' ∈ cs.dropWhile Char.isDigit :=
    fun h => mem_dropWhile_of_neg h (by decide)
  have exponent : ∀ {cs : List Char} {e : Int}, Decimal.readExponent? cs = some e → '"' ∉ cs := by
    intro cs e h
    cases cs with
    | nil => simp
    | cons mark cs =>
        simp only [Decimal.readExponent?] at h
        split at h
        · rename_i hm
          obtain ⟨hmark, -, hd⟩ := hm
          intro hq
          rcases List.mem_cons.mp hq with rfl | hq
          · simp at hmark
          · have : '"' ∈ (Decimal.sign cs).2 := by
              unfold Decimal.sign
              split <;> simp_all
            exact absurd (List.all_eq_true.mp hd _ this) (by decide)
        · cases h
  intro hq
  have hd := drop hq
  simp only [Decimal.read?] at h
  split at h
  · rename_i after hafter
    rw [hafter] at hd
    split at h
    · cases h
    · obtain ⟨e, he, -⟩ := Option.map_eq_some_iff.mp h
      exact exponent he (drop (by simpa using hd))
  · split at h
    · cases h
    · obtain ⟨e, he, -⟩ := Option.map_eq_some_iff.mp h
      exact exponent he hd

theorem Number.quote_not_mem_of_read? {cs : List Char} {n : Number} (h : Number.read? cs = some n) :
    '"' ∉ cs := by
  have unpad : ∀ {cs : List Char}, '"' ∈ cs → '"' ∈ cs.dropWhile Number.isPadding :=
    fun h => mem_dropWhile_of_neg h (by decide)
  intro hq
  have hq : '"' ∈ (Decimal.sign (Number.unpad cs)).2 := by
    have : '"' ∈ Number.unpad cs := by
      rw [Number.unpad, List.mem_reverse]
      exact unpad (List.mem_reverse.mpr (unpad hq))
    unfold Decimal.sign
    split <;> simp_all
  simp only [Number.read?, Number.readUnsigned?] at h
  split at h
  · have lower : '"' ∈ ((Decimal.sign (Number.unpad cs)).2).map Char.toLower :=
      List.mem_map.mpr ⟨_, hq, by decide⟩
    split at h
    · rename_i e
      rcases e with e | e <;> rw [e] at lower <;> simp at lower
    · split at h
      · rename_i e
        rw [e] at lower; simp at lower
      · obtain ⟨d, hd, -⟩ := Option.map_eq_some_iff.mp h
        exact Decimal.quote_not_mem_of_read? hd hq
  · cases h

/-- A double quote is read in text literals only. -/
theorem Token.unquote?_of_classify? {l : List Char} {x : Kind × Tree} (h : classify? l = some x)
    (hq : '"' ∈ l) : ∃ body, Text.unquote? l = some body := by
  simp only [classify?] at h
  split at h
  · rename_i f e
    exact absurd hq (Form.quote_not_mem_of_ofSpelling? e)
  · split at h
    · rename_i n e
      exact absurd hq (Number.quote_not_mem_of_read? e)
    · split at h
      · rename_i body e
        exact ⟨body, e⟩
      · split at h
        · rename_i e
          have : l = "Φ".toList ∨ l = "nil".toList := by
            rcases e with e | e
            · left; rw [← e, String.toList_ofList]
            · right; rw [← e, String.toList_ofList]
          rcases this with rfl | rfl <;> simp at hq
        · simp [hq] at h

/-- Every lexeme that is no parenthesis has a class. -/
theorem Lexeme.classify? {l : List Char} (h : Lexeme l) (hp : ¬ IsParen l) :
    ∃ kind value, Token.classify? l = some (kind, value) := by
  have some_of : '"' ∉ l ∨ (Text.unquote? l).isSome → (Token.classify? l).isSome := by
    intro hl
    simp only [Token.classify?]
    split
    · rfl
    · split
      · rfl
      · split
        · rfl
        · rename_i e
          have hq : '"' ∉ l := hl.resolve_right (by simp [e])
          split
          · rfl
          · simp [hq]
  suffices (Token.classify? l).isSome by
    obtain ⟨⟨kind, value⟩, e⟩ := Option.isSome_iff_exists.mp this
    exact ⟨kind, value, e⟩
  cases h with
  | paren h => exact absurd ⟨_, h, rfl⟩ hp
  | word _ hw => exact some_of (.inl fun hq => absurd (hw _ hq) (by decide))
  | quoted h _ => exact some_of (.inr (by simp [h]))

theorem Lexeme.reads?_eq_classify? {l : List Char} (hp : ¬ IsParen l) :
    Lexeme.reads? l = Token.classify? l := by
  have h₁ : l ≠ ['('] := fun e => hp ⟨'(', by decide, e⟩
  have h₂ : l ≠ [')'] := fun e => hp ⟨')', by decide, e⟩
  simp [Lexeme.reads?, h₁, h₂]

/-- A parenthesis is no name. -/
theorem Lexeme.not_isParen_of_reads? {l : List Char} {value : Tree}
    (h : Lexeme.reads? l = some (.identifier, value)) : ¬ IsParen l := by
  rintro ⟨c, hc, rfl⟩
  simp only [isParen, Bool.or_eq_true, beq_iff_eq] at hc
  rcases hc with rfl | rfl <;> cases h

/-! ### The machine -/

namespace Scan

/-- The machine has read `before`, and then `w`, of which it has not made a token yet. -/
structure At (s : Scan) (before w : List Char) : Prop where
  buffer : s.buffer = w.reverse
  start : s.start = .past before
  position : s.position = .past (before ++ w)

/-- What the flag says about an unfinished lexeme. -/
structure Sound (s : Scan) (w : List Char) : Prop where
  noParen : ∀ c ∈ w, !isParen c
  plain : '"' ∉ w → s.inText = false ∧ ∀ c ∈ w, !Text.isBlank c

theorem at_fresh (before : List Char) : (fresh (.past before)).At before [] :=
  ⟨rfl, rfl, by simp [fresh]⟩

theorem sound_fresh (p : Position) : (fresh p).Sound [] := ⟨by simp, by simp [fresh]⟩

theorem At.push {s : Scan} {before w : List Char} (h : s.At before w) (c : Char) :
    (s.push c).At before (w ++ [c]) := by
  refine ⟨by simp [Scan.push, h.buffer], ?_, ?_⟩
  · by_cases hw : w = []
    · have := h.position
      simp_all [Scan.push, h.buffer]
    · simp [Scan.push, h.buffer, hw, h.start]
  · rw [← List.append_assoc, Position.past_append, ← h.position]
    rfl

theorem At.pushAll {s : Scan} {before w : List Char} (h : s.At before w) (l : List Char) :
    (l.foldl Scan.push s).At before (w ++ l) := by
  induction l generalizing s w with
  | nil => simpa using h
  | cons c l ih => simpa using ih (h.push c)

/-- A character that neither is a parenthesis nor splits. -/
theorem Sound.push {s : Scan} {w : List Char} (h : s.Sound w) {c : Char} (hp : !isParen c)
    (hb : Text.isBlank c → s.inText) : (s.push c).Sound (w ++ [c]) := by
  refine ⟨?_, fun hq => ?_⟩
  · intro d hd
    rcases List.mem_append.mp hd with hd | hd
    · exact h.noParen d hd
    · rwa [List.mem_singleton.mp hd]
  · simp only [List.mem_append, List.mem_singleton, not_or] at hq
    obtain ⟨hin, hw⟩ := h.plain hq.1
    refine ⟨by simp [Scan.push, Ne.symm hq.2, hin], fun d hd => ?_⟩
    rcases List.mem_append.mp hd with hd | hd
    · exact hw d hd
    · rw [List.mem_singleton.mp hd]
      cases e : Text.isBlank c with
      | false => rfl
      | true => rw [hb e] at hin; cases hin

/-- The characters at which the machine makes a token. -/
theorem splits_iff (s : Scan) (c : Char) :
    ((s.parenthesis? c).isSome || (Text.isBlank c && !s.inText)) = true ↔
      isParen c ∨ (Text.isBlank c ∧ s.inText = false) := by
  have : (s.parenthesis? c).isSome = isParen c := by
    unfold parenthesis? isParen
    split
    · simp [*]
    · split <;> simp [*]
  simp [this]

theorem parenthesis?_of_isBlank {s : Scan} {c : Char} (h : Text.isBlank c) :
    s.parenthesis? c = none := by
  have hp : ¬ isParen c := fun hp => by simp [isParen_not_isBlank hp] at h
  simp only [isParen, Bool.or_eq_true, beq_iff_eq, not_or] at hp
  simp [parenthesis?, hp]

theorem At.parenthesis? {s : Scan} {before w : List Char} (h : s.At before w) {c : Char}
    (hc : isParen c) : ∃ kind value, Lexeme.reads? [c] = some (kind, value) ∧
      s.parenthesis? c = some ⟨kind, value, .past (before ++ w)⟩ := by
  rw [← h.position]
  simp only [isParen, Bool.or_eq_true, beq_iff_eq] at hc
  rcases hc with rfl | rfl
  · exact ⟨.opening, .text "(", rfl, rfl⟩
  · exact ⟨.closing, .text ")", rfl, rfl⟩

theorem run_push {s : Scan} {c : Char} (h : ¬ (isParen c ∨ (Text.isBlank c ∧ s.inText = false)))
    (cs : List Char) : s.run (c :: cs) = (s.push c).run cs := by
  rw [← splits_iff] at h
  rw [run, if_neg h]

/-- Flushing an unfinished lexeme that has a class. -/
theorem At.flush_eq {s : Scan} {before w : List Char} (h : s.At before w) (hw : w ≠ []) {kind : Kind}
    {value : Tree} (hc : Token.classify? w = some (kind, value)) :
    s.flush = .ok [⟨kind, value, .past before⟩] := by
  simp [flush, Token.ofLexeme, h.buffer, h.start, hw, hc, Except.map]

/-! ### From tokens to a cut -/

/-- What is flushed without a fault is nothing, or the token of a lexeme. -/
theorem At.of_flush {s : Scan} {before w : List Char} {ts : List Token} (h : s.At before w)
    (hs : s.Sound w) (hf : s.flush = .ok ts) :
    (w = [] ∧ ts = []) ∨ (Lexeme w ∧ ∃ kind value, Lexeme.reads? w = some (kind, value) ∧
      ts = [⟨kind, value, .past before⟩]) := by
  by_cases hw : w = []
  · left
    simp only [flush, Token.ofLexeme, h.buffer, hw, List.reverse_nil, ↓reduceIte, Except.map,
      Option.toList, Except.ok.injEq] at hf
    exact ⟨hw, hf.symm⟩
  · right
    cases hc : Token.classify? w with
    | none => simp [flush, Token.ofLexeme, h.buffer, hw, hc, Except.map] at hf
    | some x =>
        obtain ⟨kind, value⟩ := x
        rw [h.flush_eq hw hc] at hf
        cases hf
        have hp : ¬ IsParen w := not_isParen_of_forall hs.noParen
        refine ⟨?_, kind, value, by rw [Lexeme.reads?_eq_classify? hp, hc], rfl⟩
        by_cases hq : '"' ∈ w
        · obtain ⟨body, hb⟩ := Token.unquote?_of_classify? hc hq
          exact .quoted hb hs.noParen
        · refine .word hw fun c hcw => ?_
          have hne : c ≠ '"' := fun e => hq (e ▸ hcw)
          have h₁ := hs.noParen c hcw
          have h₂ := (hs.plain hq).2 c hcw
          simp_all [isWordChar]

/-- The unfinished lexeme, flushed, in front of a cut that begins apart from it. -/
theorem At.lead_of_flush {s : Scan} {before w : List Char} {ts ts' : List Token} {c : Cut}
    (h : s.At before w) (hs : s.Sound w) (hf : s.flush = .ok ts) (hc : c.Valid)
    (hhead : ∀ p ∈ c.pieces.head?, IsParen p.lexeme ∨ p.gap ≠ [])
    (hts : Spells (before ++ w) c.pieces ts') :
    ∃ d : Cut, d.Valid ∧ d.text = w ++ c.text ∧ Spells before d.pieces (ts ++ ts') := by
  rcases h.of_flush hs hf with ⟨rfl, rfl⟩ | ⟨hl, kind, value, hr, rfl⟩
  · exact ⟨c, hc, rfl, by simpa using hts⟩
  · exact ⟨c.lead w, hc.lead hl hhead, by simp, hts.lead hr⟩

/-- **If lexing succeeds, the text has a valid cut** with the tokens of the lexer. -/
theorem cut_of_run {s : Scan} {before w cs : List Char} {ts : List Token} (h : s.At before w)
    (hs : s.Sound w) (hrun : s.run cs = ⟨ts, none⟩) :
    ∃ c : Cut, c.Valid ∧ c.text = w ++ cs ∧ Spells before c.pieces ts := by
  induction cs generalizing s before w ts with
  | nil =>
      rw [run] at hrun
      split at hrun
      · cases hrun
      · rename_i ts₀ hf
        cases hrun
        have hc : Cut.Valid ⟨[], []⟩ := ⟨by simp, by simp, by simp [IsGap], .nil⟩
        obtain ⟨d, hd, htext, hsp⟩ := h.lead_of_flush hs hf hc (by simp) (show Spells _ _ [] from rfl)
        exact ⟨d, hd, by simpa [Cut.text] using htext, by simpa using hsp⟩
  | cons c cs ih =>
      by_cases hsplit : isParen c ∨ (Text.isBlank c ∧ s.inText = false)
      · -- The lexeme ends before `c`, and a fresh machine goes on after it.
        rw [run, if_pos ((splits_iff s c).mpr hsplit)] at hrun
        split at hrun
        · cases hrun
        · rename_i ts₀ hf
          obtain ⟨hts, hfault⟩ := Lexed.mk.inj hrun
          have hnext : s.position.next c = .past (before ++ w ++ [c]) := by
            rw [Position.past_append, h.position]
          rw [hnext] at hts hfault
          have hrest : run (fresh (.past (before ++ w ++ [c]))) cs =
              ⟨(run (fresh (.past (before ++ w ++ [c]))) cs).tokens, none⟩ := by rw [← hfault]
          obtain ⟨d, hd, htext, hsp⟩ := ih (at_fresh (before ++ w ++ [c])) (sound_fresh _) hrest
          -- A parenthesis is a piece of its own; a blank joins the gap of the next piece.
          rcases hsplit with hp | ⟨hb, -⟩
          · obtain ⟨kind, value, hr, hparen⟩ := h.parenthesis? hp
            obtain ⟨e, he, hetext, hesp⟩ := h.lead_of_flush hs hf (hd.lead_paren hp)
              (by simp [Cut.lead, IsParen, hp]) (hsp.lead hr)
            refine ⟨e, he, by simp [hetext, htext], ?_⟩
            rw [hparen] at hts
            rw [← hts]; simpa using hesp
          · obtain ⟨e, he, hetext, hesp⟩ := h.lead_of_flush hs hf (hd.pad hb)
              (fun p hp => .inr (d.gap_pad c p hp)) hsp.pad
            refine ⟨e, he, by simp [hetext, htext], ?_⟩
            rw [parenthesis?_of_isBlank hb] at hts
            rw [← hts]; simpa using hesp
      · rw [run_push hsplit] at hrun
        rw [not_or, not_and] at hsplit
        obtain ⟨d, hd, htext, hsp⟩ := ih (h.push c)
          (hs.push (by simpa using hsplit.1) (fun hb => by simpa using hsplit.2 hb)) hrun
        exact ⟨d, hd, by simpa using htext, hsp⟩

/-! ### From a cut to tokens -/

/-- Over a word the machine only collects. -/
theorem run_word {s : Scan} (hin : s.inText = false) {l : List Char} (hl : ∀ c ∈ l, isWordChar c)
    (rest : List Char) : s.run (l ++ rest) = (l.foldl push s).run rest ∧
      (l.foldl push s).inText = false := by
  induction l generalizing s with
  | nil => exact ⟨rfl, hin⟩
  | cons c l ih =>
      rw [List.forall_mem_cons] at hl
      have hc := hl.1
      simp only [isWordChar, Bool.and_eq_true, Bool.not_eq_true', bne_iff_ne] at hc
      have hpush : (s.push c).inText = false := by simp [push, hc.2, hin]
      rw [List.cons_append, run_push (by simp [hc.1]), List.foldl_cons]
      exact ih hpush hl.2

/-- Over an interior the machine only collects, and stays in the text literal. -/
theorem run_interior {s : Scan} (hin : s.inText = true) (hesc : s.escaped = false) {b : List Char}
    (hb : Text.Interior b) (hp : ∀ c ∈ b, !isParen c) (rest : List Char) :
    s.run (b ++ rest) = (b.foldl push s).run rest ∧
      (b.foldl push s).inText = true ∧ (b.foldl push s).escaped = false := by
  induction hb generalizing s with
  | nil => exact ⟨rfl, hin, hesc⟩
  | @plain c b hq hbs h ih =>
      rw [List.forall_mem_cons] at hp
      have h₁ : (s.push c).inText = true := by simp [push, hq, hin]
      have h₂ : (s.push c).escaped = false := by simp [push, hbs]
      rw [List.cons_append, run_push (by simpa [hin] using hp.1), List.foldl_cons]
      exact ih h₁ h₂ hp.2
  | @pair c b h ih =>
      rw [List.forall_mem_cons, List.forall_mem_cons] at hp
      have h₁ : (s.push '\\').inText = true := by simp [push, hin]
      have h₂ : (s.push '\\').escaped = true := by simp [push, hin, hesc]
      have h₃ : ((s.push '\\').push c).inText = true := by
        rw [push]; simp [h₁, h₂]
      have h₄ : ((s.push '\\').push c).escaped = false := by
        rw [push]; simp [h₂]
      rw [List.cons_append, run_push (by simp [hin, isParen]), List.cons_append,
        run_push (by simpa [h₁] using hp.2.1), List.foldl_cons, List.foldl_cons]
      exact ih h₃ h₄ hp.2.2

/-- Over a lexeme that is no parenthesis the machine only collects, and then is outside a text
literal. -/
theorem run_collect {l : List Char} (hl : Lexeme l) (hp : ¬ IsParen l) (p : Position)
    (rest : List Char) : (fresh p).run (l ++ rest) = (l.foldl push (fresh p)).run rest ∧
      (l.foldl push (fresh p)).inText = false := by
  cases hl with
  | paren h => exact absurd ⟨_, h, rfl⟩ hp
  | word _ hw => exact run_word rfl hw rest
  | @quoted l body h hnp =>
      obtain ⟨rfl, hb⟩ := Text.unquote?_eq_some_iff.mp h
      have hbody : ∀ c ∈ body, !isParen c := fun c hc => hnp c (by simp [hc])
      have h₁ : ((fresh p).push '"').inText = true := by simp [push, fresh]
      have h₂ : ((fresh p).push '"').escaped = false := by simp [push, fresh]
      obtain ⟨hrun, hin, hesc⟩ := run_interior h₁ h₂ hb hbody ('"' :: rest)
      rw [List.cons_append, run_push (by simp [fresh, isParen]; decide), List.append_assoc,
        List.singleton_append, hrun, run_push (by simp [hin, isParen])]
      refine ⟨by simp only [List.foldl_cons, List.foldl_append, List.foldl_nil], ?_⟩
      simp only [List.foldl_cons, List.foldl_append, List.foldl_nil]
      rw [push]; simp [hin, hesc]

/-- Blanks outside lexemes are skipped. -/
theorem run_gap (before : List Char) {w : List Char} (hw : IsGap w) (rest : List Char) :
    (fresh (.past before)).run (w ++ rest) = (fresh (.past (before ++ w))).run rest := by
  induction w generalizing before with
  | nil => simp
  | cons c w ih =>
      have hc : Text.isBlank c := hw c (by simp)
      have hsplit := (splits_iff (fresh (.past before)) c).mpr (.inr ⟨hc, rfl⟩)
      have hflush : (fresh (.past before)).flush = .ok [] := rfl
      rw [List.cons_append, run, if_pos hsplit, hflush, parenthesis?_of_isBlank hc]
      have hnext : (fresh (.past before)).position.next c = .past (before ++ [c]) :=
        (Position.past_append before c).symm
      rw [hnext, ih (before ++ [c]) fun d hd => hw d (List.mem_cons_of_mem c hd)]
      simp

/-- A parenthesis is a token by itself. -/
theorem run_paren (before : List Char) {c : Char} (hc : isParen c) (rest : List Char) :
    ∃ kind value, Lexeme.reads? [c] = some (kind, value) ∧
      (fresh (.past before)).run (c :: rest) =
        ⟨⟨kind, value, .past before⟩ :: ((fresh (.past (before ++ [c]))).run rest).tokens,
          ((fresh (.past (before ++ [c]))).run rest).fault?⟩ := by
  obtain ⟨kind, value, hr, hparen⟩ := (at_fresh before).parenthesis? hc
  refine ⟨kind, value, hr, ?_⟩
  have hsplit := (splits_iff (fresh (.past before)) c).mpr (.inl hc)
  have hflush : (fresh (.past before)).flush = .ok [] := rfl
  have hnext : (fresh (.past before)).position.next c = .past (before ++ [c]) :=
    (Position.past_append before c).symm
  rw [run, if_pos hsplit, hflush, hparen, hnext]
  simp

/-- **Another lexeme becomes one token**, if something follows that can follow it. -/
theorem run_lexeme (before : List Char) {l rest : List Char} (hl : Lexeme l) (hp : ¬ IsParen l)
    (hrest : Stops rest) : ∃ kind value, Token.classify? l = some (kind, value) ∧
      (fresh (.past before)).run (l ++ rest) =
        ⟨⟨kind, value, .past before⟩ :: ((fresh (.past (before ++ l))).run rest).tokens,
          ((fresh (.past (before ++ l))).run rest).fault?⟩ := by
  obtain ⟨kind, value, hc⟩ := hl.classify? hp
  refine ⟨kind, value, hc, ?_⟩
  obtain ⟨hrun, hin⟩ := run_collect hl hp (.past before) rest
  have hat : (l.foldl push (fresh (.past before))).At before l := by
    simpa using (at_fresh before).pushAll l
  have hne : l ≠ [] := by
    obtain ⟨c, cs, rfl, -⟩ := hl.not_isBlank_head
    simp
  have hflush := hat.flush_eq hne hc
  have hempty : (fresh (.past (before ++ l))).flush = .ok [] := rfl
  rw [hrun]
  -- Beyond the flush, the machine does what a fresh one does that starts after the lexeme.
  cases rest with
  | nil => rw [run, run, hflush, hempty]
  | cons c cs =>
      have hsplit : isParen c ∨ (Text.isBlank c ∧ (l.foldl push (fresh (.past before))).inText = false) :=
        hrest.symm.imp_right fun hb => ⟨hb, hin⟩
      have hsplit' : isParen c ∨ (Text.isBlank c ∧ (fresh (.past (before ++ l))).inText = false) :=
        hrest.symm.imp_right fun hb => ⟨hb, rfl⟩
      have hpos : (l.foldl push (fresh (.past before))).position =
          (fresh (.past (before ++ l))).position := hat.position
      have hparen : (l.foldl push (fresh (.past before))).parenthesis? c =
          (fresh (.past (before ++ l))).parenthesis? c := by
        unfold parenthesis?; rw [hpos]
      rw [run, if_pos ((splits_iff _ c).mpr hsplit), run, if_pos ((splits_iff _ c).mpr hsplit'),
        hflush, hempty, hparen, hpos]
      simp

/-- **A valid cut is followed piece by piece**, up to something that can follow a lexeme. -/
theorem run_cut (before : List Char) {c : Cut} (hc : c.Valid) (rest : List Char)
    (hrest : Stops rest) : ∃ ts, Spells before c.pieces ts ∧
      (fresh (.past before)).run (c.text ++ rest) =
        ⟨ts ++ ((fresh (.past (before ++ c.text))).run rest).tokens,
          ((fresh (.past (before ++ c.text))).run rest).fault?⟩ := by
  obtain ⟨ps, last⟩ := c
  induction ps generalizing before with
  | nil =>
      refine ⟨[], rfl, ?_⟩
      simp only [Cut.text, List.flatMap_nil, List.nil_append]
      rw [run_gap before hc.last rest]
  | cons p ps ih =>
      have hl := hc.lexemes p (by simp)
      obtain ⟨ts, hts, hrun⟩ := ih (before ++ p.gap ++ p.lexeme) hc.tail
      have hpast : before ++ (p.gap ++ (p.lexeme ++ Cut.text ⟨ps, last⟩)) =
          before ++ p.gap ++ p.lexeme ++ Cut.text ⟨ps, last⟩ := by simp
      rw [Cut.text_cons, hpast, List.append_assoc, List.append_assoc,
        run_gap before (hc.gaps p (by simp))]
      by_cases hp : IsParen p.lexeme
      · obtain ⟨b, hb, hpb⟩ := hp
        obtain ⟨kind, value, hr, hrun'⟩ := run_paren (before ++ p.gap) hb
          (Cut.text ⟨ps, last⟩ ++ rest)
        rw [hpb] at hrun hts ⊢
        rw [List.singleton_append, hrun', hrun]
        exact ⟨_, ⟨kind, value, ts, rfl, by rw [hpb, hr], by rwa [hpb]⟩, rfl⟩
      · obtain ⟨kind, value, hcl, hrun'⟩ := run_lexeme (before ++ p.gap) hl hp
          ((hc.stops.resolve_left hp).append hrest)
        rw [hrun', hrun]
        exact ⟨_, ⟨kind, value, ts, rfl, by rw [Lexeme.reads?_eq_classify? hp, hcl], hts⟩, rfl⟩

/-- **If a text has a valid cut, lexing succeeds** with the tokens of the cut. -/
theorem run_of_cut (before : List Char) {c : Cut} (hc : c.Valid) :
    ∃ ts, Spells before c.pieces ts ∧ (fresh (.past before)).run c.text = ⟨ts, none⟩ := by
  obtain ⟨ts, hts, hrun⟩ := run_cut before hc [] trivial
  have hend : (fresh (.past (before ++ c.text))).run [] = ⟨[], none⟩ := rfl
  rw [hend, List.append_nil, List.append_nil] at hrun
  exact ⟨ts, hts, hrun⟩

end Scan

theorem Lexed.result_eq_ok_iff {l : Lexed} {ts : List Token} : l.result = .ok ts ↔ l = ⟨ts, none⟩ := by
  obtain ⟨tokens, _ | f⟩ := l <;> simp [Lexed.result]

theorem Spells.unique {before : List Char} {ps : List Piece} {ts ts' : List Token}
    (h : Spells before ps ts) (h' : Spells before ps ts') : ts = ts' := by
  induction ps generalizing before ts ts' with
  | nil => rw [h, h']
  | cons p ps ih =>
      obtain ⟨kind, value, rest, rfl, hr, hs⟩ := h
      obtain ⟨kind', value', rest', rfl, hr', hs'⟩ := h'
      rw [hr] at hr'
      cases hr'
      rw [ih hs hs']

/-- Lexing succeeds exactly on the texts with a valid cut, with the tokens of the cut. -/
theorem lex_eq_ok_iff {source : String} {tokens : List Token} :
    (lex source).result = .ok tokens ↔
      ∃ c : Cut, c.Valid ∧ c.text = source.toList ∧ Spells [] c.pieces tokens := by
  rw [Lexed.result_eq_ok_iff]
  constructor
  · intro h
    exact Scan.cut_of_run (Scan.at_fresh []) (Scan.sound_fresh _) h
  · rintro ⟨c, hc, htext, hsp⟩
    obtain ⟨ts, hts, hrun⟩ := Scan.run_of_cut [] hc
    rw [hsp.unique hts, ← hrun, htext]
    rfl

/-- A text that is one lexeme is one token. -/
theorem lex_of_lexeme {source : String} {kind : Kind} {value : Tree}
    (hl : Lexeme source.toList) (h : Lexeme.reads? source.toList = some (kind, value)) :
    (lex source).result = .ok [⟨kind, value, .first⟩] := by
  refine lex_eq_ok_iff.mpr ⟨⟨[⟨[], source.toList⟩], []⟩, ⟨?_, ?_, ?_, .singleton _⟩, ?_, ?_⟩
  · simp [IsGap]
  · simpa using hl
  · simp [IsGap]
  · simp [Cut.text]
  · exact ⟨kind, value, [], rfl, h, rfl⟩

/-- **Lexing is exact.**  Lexing a text succeeds with certain tokens if and only if the text has a
valid cut `w₀ l₁ w₁ … lₙ wₙ` whose lexemes denote them: token `i` is the parenthesis or the class
of `lᵢ`, and stands at the row and column that the text before `lᵢ` gives.  And the cut is the only
one that the text has. -/
theorem lexing_exact (source : String) :
    (∀ tokens, (lex source).result = .ok tokens ↔
      ∃ c : Cut, c.Valid ∧ c.text = source.toList ∧ Spells [] c.pieces tokens) ∧
    (∀ c d : Cut, c.Valid → d.Valid → c.text = source.toList → d.text = source.toList → c = d) :=
  ⟨fun _ => lex_eq_ok_iff, fun _ _ hc hd ec ed => Cut.eq_of_text_eq hc hd (ec.trans ed.symm)⟩

/-- `(f` in one row and `"a b")` in the next. -/
def Cut.twoRows : Cut :=
  ⟨[⟨[], ['(']⟩, ⟨[], ['f']⟩, ⟨['\n', ' '], ['"', 'a', ' ', 'b', '"']⟩, ⟨[], [')']⟩], []⟩

theorem Cut.valid_twoRows : twoRows.Valid where
  gaps := by simp [twoRows, IsGap]; decide
  lexemes := by
    simp only [twoRows, List.forall_mem_cons, List.not_mem_nil, false_implies, implies_true, and_true]
    exact ⟨.paren rfl, .word (by simp) (List.all_eq_true.mp rfl),
      .quoted rfl (List.all_eq_true.mp rfl), .paren rfl⟩
  last := by simp [twoRows, IsGap]
  apart := by
    have hp : ∀ c, isParen c → IsParen [c] := fun c hc => ⟨c, hc, rfl⟩
    simp [twoRows, Piece.Apart, hp, isParen]

/-- The gap keeps the row, the literal keeps its blank, and no other cut of the text is valid. -/
theorem lexing_exact_twoRows :
    Cut.twoRows.Valid ∧ Cut.twoRows.text = "(f\n \"a b\")".toList ∧
    (lex "(f\n \"a b\")").result = .ok [⟨.opening, .text "(", ⟨1, 1⟩⟩,
      ⟨.identifier, .text "f", ⟨1, 2⟩⟩, ⟨.literal, .text "a b", ⟨2, 2⟩⟩,
      ⟨.closing, .text ")", ⟨2, 7⟩⟩] ∧
    ∀ d : Cut, d.Valid → d.text = "(f\n \"a b\")".toList → d = .twoRows := by
  obtain ⟨accepts, unique⟩ := lexing_exact "(f\n \"a b\")"
  refine ⟨Cut.valid_twoRows, rfl, (accepts _).mpr ⟨.twoRows, Cut.valid_twoRows, rfl, ?_⟩,
    fun d hd e => unique d .twoRows hd Cut.valid_twoRows e rfl⟩
  exact ⟨_, _, _, rfl, rfl, _, _, _, rfl, rfl, _, _, _, rfl, rfl, _, _, _, rfl, rfl, rfl⟩

end Curried
