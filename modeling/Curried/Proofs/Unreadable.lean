import Curried.Proofs.Lexing

/-!
# Proofs — where lexing stops

If a text cannot be lexed, the fault says where: the text is `a`, then the lexeme `u` that the fault
shows, then `r`.  Lexing `a` alone succeeds with the tokens found so far, the position is that of the
first character of `u`, and `u` ends where it does because the text ends, at a parenthesis, or at a
blank outside text literals (`unreadable_located`).

* `Text.Closed`: the texts after which no literal is open, said without the lexer.  The two flags of
  the lexer keep track of that (`Scan.Flags`), character by character, so the first of them is clear
  exactly after such a text (`Scan.inText_eq_false_iff`).
* `Scan.exists_collected`: a lexeme is collected up to the place where it is made a token, whatever
  comes after that place.
* `Scan.exists_of_fault`: from lexeme to lexeme up to the one that has no class.
-/

namespace Curried

/-! ### Open and closed literals -/

namespace Text

theorem Interior.append {b d : List Char} (hb : Interior b) (hd : Interior d) :
    Interior (b ++ d) := by
  induction hb with
  | nil => exact hd
  | plain hq hs _ ih => exact .plain hq hs ih
  | pair _ ih => exact .pair ih

/-- A text after which no literal is open: characters other than the quote, and literals. -/
inductive Closed : List Char → Prop where
  | nil : Closed []
  | plain {cs : List Char} {c : Char} (h : Closed cs) (hc : c ≠ '"') : Closed (cs ++ [c])
  | literal {cs b : List Char} (h : Closed cs) (hb : Interior b) :
      Closed (cs ++ '"' :: (b ++ ['"']))

end Text

namespace Scan

/-- What the two flags say about the lexeme that has been collected: no literal is open, or one is,
or one is and its last backslash waits for a character. -/
inductive Flags : (u : List Char) → (inText escaped : Bool) → Prop where
  | outside {u : List Char} (h : Text.Closed u) : Flags u false false
  | inside {v b : List Char} (h : Text.Closed v) (hb : Text.Interior b) :
      Flags (v ++ '"' :: b) true false
  | escaping {v b : List Char} (h : Text.Closed v) (hb : Text.Interior b) :
      Flags (v ++ '"' :: (b ++ ['\\'])) true true

/-- One more character. -/
theorem Flags.push {s : Scan} {u : List Char} (h : Flags u s.inText s.escaped) (c : Char) :
    Flags (u ++ [c]) (s.push c).inText (s.push c).escaped := by
  obtain ⟨buffer, start, position, inText, escaped⟩ := s
  cases h with
  | outside h =>
      by_cases hq : c = '"'
      · subst hq
        exact .inside h .nil
      · simpa [Scan.push, hq] using Flags.outside (h.plain hq)
  | @inside v b h hb =>
      rw [List.append_assoc, List.cons_append]
      by_cases hq : c = '"'
      · subst hq
        exact .outside (h.literal hb)
      · by_cases hs : c = '\\'
        · subst hs
          exact .escaping h hb
        · have hs' : (c == '\\') = false := beq_eq_false_iff_ne.mpr hs
          simpa [Scan.push, hq, hs'] using Flags.inside h (hb.append (.plain hq hs .nil))
  | @escaping v b h hb =>
      simpa [Scan.push] using Flags.inside h (hb.append (.pair .nil : Text.Interior ['\\', c]))

theorem Flags.pushAll {s : Scan} {u : List Char} (h : Flags u s.inText s.escaped) (w : List Char) :
    Flags (u ++ w) (w.foldl Scan.push s).inText (w.foldl Scan.push s).escaped := by
  induction w generalizing s u with
  | nil => simpa using h
  | cons c w ih => simpa using ih (h.push c)

/-- An interior keeps a literal open. -/
theorem flags_interior {s : Scan} (hin : s.inText = true) (hesc : s.escaped = false) {b : List Char}
    (hb : Text.Interior b) :
    (b.foldl push s).inText = true ∧ (b.foldl push s).escaped = false := by
  induction hb generalizing s with
  | nil => exact ⟨hin, hesc⟩
  | plain hq hs _ ih => exact ih (by simp [push, hq, hin]) (by simp [push, hs])
  | pair _ ih => exact ih (by simp [push, hin, hesc]) (by simp [push, hin, hesc])

/-- A text after which no literal is open clears both flags. -/
theorem flags_of_closed (p : Position) {u : List Char} (h : Text.Closed u) :
    (u.foldl push (fresh p)).inText = false ∧ (u.foldl push (fresh p)).escaped = false := by
  induction h with
  | nil => exact ⟨rfl, rfl⟩
  | plain _ hc ih => simp [push, hc, ih]
  | literal _ hb ih =>
      rw [List.foldl_append, List.foldl_cons, List.foldl_append]
      generalize List.foldl push (fresh p) _ = s at ih ⊢
      have hopen : (s.push '"').inText = true ∧ (s.push '"').escaped = false := by simp [push, ih]
      have hstill := flags_interior hopen.1 hopen.2 hb
      rw [List.foldl_cons, List.foldl_nil, push]
      simp [hstill]

/-- **The flag says whether a literal is open.** -/
theorem inText_eq_false_iff {p : Position} {u : List Char} :
    (u.foldl push (fresh p)).inText = false ↔ Text.Closed u := by
  refine ⟨fun h => ?_, fun h => (flags_of_closed p h).1⟩
  have hflags : Flags u (u.foldl push (fresh p)).inText (u.foldl push (fresh p)).escaped :=
    Flags.pushAll (s := fresh p) (.outside .nil) u
  rw [h] at hflags
  generalize (u.foldl push (fresh p)).escaped = escaped at hflags
  cases hflags with
  | outside h => exact h

/-! ### From lexeme to lexeme -/

/-- **A lexeme is collected up to the place where it is made a token**, and up to there nothing
depends on what comes after it. -/
theorem exists_collected (s : Scan) (cs : List Char) :
    ∃ u r, cs = u ++ r ∧ (∀ c ∈ u, !isParen c) ∧
      (∀ rest, s.run (u ++ rest) = (u.foldl push s).run rest) ∧
      ∀ c ∈ r.head?, isParen c ∨ (Text.isBlank c ∧ (u.foldl push s).inText = false) := by
  induction cs generalizing s with
  | nil => exact ⟨[], [], rfl, by simp, fun _ => rfl, by simp⟩
  | cons c cs ih =>
      by_cases hsplit : isParen c ∨ (Text.isBlank c ∧ s.inText = false)
      · refine ⟨[], c :: cs, rfl, by simp, fun _ => rfl, fun d hd => ?_⟩
        obtain rfl : c = d := by simpa using hd
        exact hsplit
      · obtain ⟨u, r, rfl, hparen, hrun, hends⟩ := ih (s.push c)
        have hc : !isParen c := by simpa using (not_or.mp hsplit).1
        refine ⟨c :: u, r, rfl, List.forall_mem_cons.mpr ⟨hc, hparen⟩, fun rest => ?_, hends⟩
        rw [List.cons_append, run_push hsplit, hrun, List.foldl_cons]

/-- The fault of a lexeme that has no class. -/
theorem At.of_flush_error {s : Scan} {before w : List Char} {f : Fault} (h : s.At before w)
    (hf : s.flush = .error f) :
    Token.classify? w = none ∧ f = .unreadable (String.ofList w) (.past before) := by
  rw [flush, h.buffer, List.reverse_reverse, h.start, Token.ofLexeme] at hf
  split at hf
  · cases hf
  · split at hf
    · cases hf
    · rename_i hclass
      cases hf
      exact ⟨hclass, rfl⟩

/-- Where the machine makes a token. -/
theorem run_split {s : Scan} {c : Char} (h : isParen c ∨ (Text.isBlank c ∧ s.inText = false))
    {ts : List Token} (hf : s.flush = .ok ts) (cs : List Char) :
    s.run (c :: cs) = ⟨ts ++ (s.parenthesis? c).toList ++ ((fresh (s.position.next c)).run cs).tokens,
      ((fresh (s.position.next c)).run cs).fault?⟩ := by
  rw [run, if_pos ((splits_iff s c).mpr h), hf]

/-- Where the lexeme has no class, that is the end. -/
theorem run_of_flush_error {s : Scan} {f : Fault} (hf : s.flush = .error f) {r : List Char}
    (hr : ∀ c ∈ r.head?, isParen c ∨ (Text.isBlank c ∧ s.inText = false)) :
    s.run r = ⟨[], some f⟩ := by
  cases r with
  | nil => rw [run, hf]
  | cons c r => rw [run, if_pos ((splits_iff s c).mpr (hr c rfl)), hf]

end Scan

/-- What has no class has a double quote, and is no literal. -/
theorem Token.of_classify?_eq_none {l : List Char} (h : classify? l = none) :
    '"' ∈ l ∧ Text.unquote? l = none := by
  simp only [classify?] at h
  split at h
  · cases h
  · split at h
    · cases h
    · split at h
      · cases h
      · rename_i hliteral
        split at h
        · cases h
        · split at h
          · rename_i hquote
            exact ⟨by simpa using hquote, hliteral⟩
          · cases h

/-- **A fault is that of a lexeme**, and what is in front of the lexeme is lexed without it. -/
theorem Scan.exists_of_fault (before cs : List Char) {ts : List Token} {f : Fault}
    (h : (fresh (.past before)).run cs = ⟨ts, some f⟩) :
    ∃ a u r, cs = a ++ u ++ r ∧ (fresh (.past before)).run a = ⟨ts, none⟩ ∧
      f = .unreadable (String.ofList u) (.past (before ++ a)) ∧ (∀ c ∈ u, !isParen c) ∧
      Token.classify? u = none ∧ ∀ c ∈ r.head?, isParen c ∨ (Text.isBlank c ∧ Text.Closed u) := by
  -- On the length, since a whole lexeme goes at once and the machine starts afresh behind it.
  induction hlength : cs.length using Nat.strong_induction_on generalizing before cs ts with
  | _ n ih =>
      obtain ⟨u, r, rfl, hparen, hrun, hends⟩ := (fresh (.past before)).exists_collected cs
      have hat : (u.foldl push (fresh (.past before))).At before u := by
        simpa using (at_fresh before).pushAll u
      rw [hrun] at h
      cases hflush : (u.foldl push (fresh (.past before))).flush with
      | error g =>
          -- The lexeme is the one, and nothing is in front of it.
          rw [run_of_flush_error hflush hends] at h
          cases h
          obtain ⟨hclass, rfl⟩ := hat.of_flush_error hflush
          refine ⟨[], u, r, rfl, rfl, by simp, hparen, hclass, fun c hc => ?_⟩
          exact (hends c hc).imp_right fun hb => ⟨hb.1, inText_eq_false_iff.mp hb.2⟩
      | ok tokens =>
          cases r with
          | nil =>
              rw [run, hflush] at h
              cases h
          | cons c r =>
              -- The lexeme is a token, and the one is further on, behind `c`.
              have hsplit := hends c rfl
              have hnext : (u.foldl push (fresh (.past before))).position.next c =
                  .past (before ++ u ++ [c]) := by rw [Position.past_append, hat.position]
              rw [run_split hsplit hflush, hnext] at h
              obtain ⟨hts, hfault⟩ := Lexed.mk.inj h
              have hrest : (fresh (.past (before ++ u ++ [c]))).run r =
                  ⟨((fresh (.past (before ++ u ++ [c]))).run r).tokens, some f⟩ := by rw [← hfault]
              obtain ⟨a, v, r', rfl, ha, hf, hv, hclass, hends'⟩ :=
                ih r.length (by simp [← hlength]; omega) _ r hrest rfl
              refine ⟨u ++ c :: a, v, r', by simp, ?_, by simpa using hf, hv, hclass, hends'⟩
              rw [hrun, run_split hsplit hflush, hnext, ha, ← hts]

/-- **Lexical faults are located exactly.**  If lexing a text stops with a fault, the text is `a`,
then `u`, then `r`, where

* lexing `a` succeeds, and its tokens are those that were found before the fault;
* the fault shows `u` and the row and column of the first character of `u`;
* `u` has a double quote and no parenthesis, and is no text literal;
* `r` is empty, or begins with a parenthesis, or begins with a blank while no text literal is open
  in `u`. -/
theorem unreadable_located {source : String} {f : Fault} (h : (lex source).fault? = some f) :
    ∃ a u r : String, source = a ++ u ++ r ∧
      lex a = ⟨(lex source).tokens, none⟩ ∧
      f = .unreadable u (.past a.toList) ∧
      f.message = "Cannot tokenize '" ++ u ++ "' at " ++ (Position.past a.toList).text ∧
      '"' ∈ u.toList ∧ (∀ c ∈ u.toList, !isParen c) ∧ Text.unquote? u.toList = none ∧
      (r = "" ∨ ∃ c rest, r.toList = c :: rest ∧
        (isParen c ∨ (Text.isBlank c ∧ Text.Closed u.toList))) := by
  have hrun : (Scan.fresh (.past [])).run source.toList = ⟨(lex source).tokens, some f⟩ := by
    rw [← h]
    rfl
  obtain ⟨a, u, r, hsource, ha, rfl, hparen, hclass, hends⟩ := Scan.exists_of_fault [] _ hrun
  obtain ⟨hquote, hliteral⟩ := Token.of_classify?_eq_none hclass
  refine ⟨.ofList a, .ofList u, .ofList r, ?_, ?_, ?_⟩
  · rw [← String.toList_inj, hsource]
    simp
  · rw [lex, String.toList_ofList]
    exact ha
  · simp only [String.toList_ofList]
    refine ⟨rfl, rfl, hquote, hparen, hliteral, ?_⟩
    cases r with
    | nil => exact .inl rfl
    | cons c rest => exact .inr ⟨c, rest, rfl, hends c rfl⟩

/-- In the second row a literal runs on into a letter behind its closing quote; a line feed and a
blank inside it have not ended it. -/
theorem unreadable_located_runOn :
    (lex "(f\n \"a\n b\"c d").fault? = some (.unreadable "\"a\n b\"c" ⟨2, 2⟩) ∧
    ∃ a r : String, "(f\n \"a\n b\"c d" = a ++ "\"a\n b\"c" ++ r ∧
      lex a = ⟨[⟨.opening, .text "(", ⟨1, 1⟩⟩, ⟨.identifier, .text "f", ⟨1, 2⟩⟩], none⟩ ∧
      Position.past a.toList = ⟨2, 2⟩ ∧
      (r = "" ∨ ∃ c rest, r.toList = c :: rest ∧
        (isParen c ∨ (Text.isBlank c ∧ Text.Closed "\"a\n b\"c".toList))) := by
  have hfault : (lex "(f\n \"a\n b\"c d").fault? =
      some (.unreadable "\"a\n b\"c" ⟨2, 2⟩) := rfl
  obtain ⟨a, u, r, hsource, ha, hf, -, -, -, -, hr⟩ := unreadable_located hfault
  obtain ⟨rfl, hposition⟩ := Fault.unreadable.inj hf
  exact ⟨hfault, a, r, hsource, ha, hposition.symm, hr⟩

end Curried
