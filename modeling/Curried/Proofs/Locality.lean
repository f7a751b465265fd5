import Curried.Proofs.Reading
import Curried.Token.Stream

/-!
# Proofs — reading looks at nothing else

Reading an expression from a stream takes the tokens from the cursor on, one after the other, up to
the one that completes the expression, and looks at no other: neither at what stands before the
cursor, nor at what comes after the tokens that it takes.

* `Reading.Local read ts`: what `read` yields from `ts`, it yields from some tokens in front, whatever
  comes after them.
* `Group.local_read`: reading on inside open groups is local, by induction on the tokens.  A token is
  the last one that is taken, or reading goes on without it.
* `Tree.local_readOne`: so reading an expression is local.
* `Stream.ahead_cases`: what is ahead of a cursor are the tokens with the numbers from the cursor on.
  So what is taken of them is the part of the stream from there to the new cursor
  (`Stream.between`).
-/

namespace Curried

/-! ### Token lists -/

namespace Reading

variable {α : Type} {read : List Token → Reading α} {ts : List Token}

/-- What `read` yields from `ts`, it yields from some tokens in front, whatever comes after them. -/
def Local (read : List Token → Reading α) (ts : List Token) : Prop :=
  ∀ a rest, read ts = ⟨.ok a, rest⟩ → ∃ taken, taken ≠ [] ∧ ts = taken ++ rest ∧
    ∀ more, read (taken ++ more) = ⟨.ok a, more⟩

/-- Nothing is yielded. -/
theorem local_of_error (h : ∀ a, (read ts).result ≠ .ok a) : Local read ts :=
  fun a _ hread => absurd (congrArg Reading.result hread) (h a)

/-- One token is all that is taken. -/
theorem local_of_ok {t : Token} {a : α} (h : ∀ us, read (t :: us) = ⟨.ok a, us⟩) :
    Local read (t :: ts) := by
  intro b rest hread
  rw [h] at hread
  cases hread
  exact ⟨[t], by simp, rfl, h⟩

/-- Reading goes on without the first token. -/
theorem Local.cons {next : List Token → Reading α} (hnext : Local next ts) {t : Token}
    (h : ∀ us, read (t :: us) = next us) : Local read (t :: ts) := by
  intro a rest hread
  rw [h] at hread
  obtain ⟨taken, -, rfl, hmore⟩ := hnext a rest hread
  exact ⟨t :: taken, by simp, rfl, fun more => (h _).trans (hmore more)⟩

/-- The same with another value. -/
theorem Local.map {β : Type} (h : Local read ts) (f : α → β) :
    Local (fun ts => (read ts).map f) ts := by
  intro b rest hread
  obtain ⟨result, rest', hr⟩ : ∃ result rest', read ts = ⟨result, rest'⟩ := ⟨_, _, rfl⟩
  simp only [hr] at hread
  cases result with
  | error f => cases hread
  | ok a =>
      cases hread
      obtain ⟨taken, hne, hts, hmore⟩ := h a _ hr
      exact ⟨taken, hne, hts, fun more => congrArg (Reading.map f) (hmore more)⟩

end Reading

/-- **Reading on inside open groups is local.** -/
theorem Group.local_read (g : Group) (around : List Group) (ts : List Token) :
    Reading.Local (g.read around) ts := by
  induction ts generalizing g around with
  | nil => exact Reading.local_of_error nofun
  | cons t ts ih =>
      cases hk : t.kind with
      | keyword => exact (ih (g.add t.value) around).cons fun us => by simp [Group.read, hk]
      | literal => exact (ih (g.addLiteral t.value) around).cons fun us => by simp [Group.read, hk]
      | identifier =>
          cases ht : t.atom with
          | ok tree => exact (ih (g.add tree) around).cons fun us => by simp [Group.read, hk, ht]
          | error f => exact Reading.local_of_error (by simp [Group.read, hk, ht])
      | opening => exact (ih (start t) (g :: around)).cons fun us => by simp [Group.read, hk]
      | closing =>
          cases ho : g.operator? with
          | none => exact Reading.local_of_error (by simp [Group.read, hk, ho])
          | some operator =>
              cases around with
              | nil => exact Reading.local_of_ok (a := g) fun us => by simp [Group.read, hk, ho]
              | cons outer around =>
                  exact (ih (outer.add (g.close operator)) around).cons fun us => by
                    simp [Group.read, hk, ho]
      | other name => exact Reading.local_of_error (by simp [Group.read, hk])

/-- **Reading an expression is local.** -/
theorem Tree.local_readOne (ts : List Token) : Reading.Local readOne ts := by
  cases ts with
  | nil => exact Reading.local_of_error nofun
  | cons t ts =>
      have hatom : (∀ us, readOne (t :: us) = ⟨t.atom, us⟩) → Reading.Local readOne (t :: ts) := by
        intro hread
        cases ht : t.atom with
        | ok tree => exact Reading.local_of_ok fun us => by rw [hread, ht]
        | error f => exact Reading.local_of_error (by simp [hread, ht])
      cases hk : t.kind with
      | keyword => exact hatom fun us => by simp [readOne, hk]
      | literal => exact hatom fun us => by simp [readOne, hk]
      | identifier => exact hatom fun us => by simp [readOne, hk]
      | opening =>
          exact ((Group.local_read (.start t) [] ts).map Group.tree).cons fun us => by
            simp [readOne, readGroup, hk]
      | closing => exact Reading.local_of_error (by simp [readOne, hk])
      | other name => exact Reading.local_of_error (by simp [readOne, hk])

/-! ### Streams -/

namespace Stream

/-- The tokens with the numbers from `i` up to `j`, a negative number counting back from the end. -/
def between (s : Stream) (i j : Int) : List Token :=
  (List.range (j - i).toNat).filterMap fun k : Nat => s.token? (i + k)

theorem token?_of_nonneg (s : Stream) {i : Int} (h : 0 ≤ i) : s.token? i = s.tokens[i.toNat]? := by
  simp [token?, Int.not_lt.mpr h, h]

theorem token?_of_neg (s : Stream) {i : Int} (h : i < 0) (hback : 0 ≤ i + s.tokens.length) :
    s.token? i = s.tokens[(i + s.tokens.length).toNat]? := by
  simp [token?, h, hback]

/-- **What is ahead of a cursor** that is not past the end: the tokens with the numbers from the cursor
on, unless it counts back too far. -/
theorem ahead_cases (s : Stream) (h : s.cursor ≤ s.tokens.length) :
    (∃ f, s.ahead = .error f) ∨ ∃ ts, s.ahead = .ok ts ∧
      (ts.length : Int) = s.tokens.length - s.cursor ∧
      ∀ k : Nat, ts[k]? = s.token? (s.cursor + k) := by
  unfold ahead
  split
  · rename_i hpos
    refine .inr ⟨_, rfl, by rw [List.length_drop]; omega, fun k => ?_⟩
    have hplace : (s.cursor + k).toNat = s.cursor.toNat + k := by omega
    rw [List.getElem?_drop, s.token?_of_nonneg (by omega), hplace]
  · split
    · rename_i hneg hback
      refine .inr ⟨_, rfl, by rw [List.length_append, List.length_drop]; omega, fun k => ?_⟩
      by_cases hk : s.cursor + k < 0
      · have hplace : (s.cursor + k + s.tokens.length).toNat =
            s.tokens.length - (-s.cursor).toNat + k := by omega
        rw [List.getElem?_append_left (by rw [List.length_drop]; omega), List.getElem?_drop,
          s.token?_of_neg hk (by omega), hplace]
      · -- From number 0 on, the tokens follow once more.
        have hplace : (s.cursor + k).toNat =
            k - (s.tokens.length - (s.tokens.length - (-s.cursor).toNat)) := by omega
        rw [List.getElem?_append_right (by rw [List.length_drop]; omega), List.length_drop,
          s.token?_of_nonneg (by omega), hplace]
    · exact .inl ⟨_, rfl⟩

/-- The tokens that are taken of what is ahead are those up to the new cursor. -/
theorem between_of_ahead {s : Stream} {taken rest : List Token}
    (h : ∀ k : Nat, (taken ++ rest)[k]? = s.token? (s.cursor + k)) :
    s.between s.cursor (s.cursor + taken.length) = taken := by
  have hfirst : ∀ n : Nat,
      (List.range n).filterMap (fun k : Nat => s.token? (s.cursor + k)) = (taken ++ rest).take n := by
    intro n
    induction n with
    | zero => rfl
    | succ n ih =>
        rw [List.range_succ, List.filterMap_append, ih, List.take_add_one, h]
        cases hn : s.token? (s.cursor + n) <;> simp [hn]
  have hlength : (s.cursor + taken.length - s.cursor).toNat = taken.length := by omega
  rw [between, hlength, hfirst, List.take_left']
  rfl

/-- Reading where there are tokens ahead. -/
theorem read_of_ahead {α : Type} {s : Stream} {ts rest : List Token} {read : List Token → Reading α}
    {result : Except Fault α} (h : s.ahead = .ok ts) (hread : read ts = ⟨result, rest⟩) :
    s.read read = (result, s.skip ts rest) := by
  simp only [Stream.read, h, hread]

/-- What is taken is read in the same way wherever it stands. -/
theorem read_elsewhere {α : Type} {read : List Token → Reading α} {taken : List Token} {a : α}
    (h : ∀ more, read (taken ++ more) = ⟨.ok a, more⟩) (before behind : List Token) :
    Stream.read ⟨before ++ taken ++ behind, before.length⟩ read =
      (.ok a, ⟨before ++ taken ++ behind, before.length + taken.length⟩) := by
  have hahead : ahead ⟨before ++ taken ++ behind, before.length⟩ = .ok (taken ++ behind) := by
    simp [ahead]
  rw [read_of_ahead hahead (h behind)]
  simp [skip, seek]

end Stream

/-- **Reading advances, and looks at nothing else.**  Let the cursor of a stream not be past the end.
Reading an expression from there always comes to a result.

* The tokens stay as they are, and the new cursor is between the old one and the end, whether there is
  a tree or a fault.
* If there is a tree, the cursor has moved on, and the tree depends only on the tokens from the old
  cursor to the new one: with any other tokens before and behind them, reading from the first of them
  gives the same tree and moves the cursor on by as much. -/
theorem reading_advances (s : Stream) (h : s.cursor ≤ s.tokens.length) :
    ∃ result after, s.read Tree.readOne = (result, after) ∧ after.tokens = s.tokens ∧
      s.cursor ≤ after.cursor ∧ after.cursor ≤ s.tokens.length ∧
      ∀ tree, result = .ok tree → s.cursor < after.cursor ∧
        ∀ before behind : List Token,
          let part := s.between s.cursor after.cursor
          Stream.read ⟨before ++ part ++ behind, before.length⟩ Tree.readOne =
            (.ok tree, ⟨before ++ part ++ behind, before.length + (after.cursor - s.cursor)⟩) := by
  rcases s.ahead_cases h with ⟨f, hf⟩ | ⟨ts, hts, hlength, hnumbers⟩
  · have hread : s.read Tree.readOne = (.error f, s) := by simp only [Stream.read, hf]
    exact ⟨.error f, s, hread, rfl, Int.le_refl _, h, nofun⟩
  · obtain ⟨result, rest, hone⟩ : ∃ result rest, Tree.readOne ts = ⟨result, rest⟩ := ⟨_, _, rfl⟩
    have hrest : rest.length ≤ ts.length := by
      simpa only [hone] using (Tree.rest_readOne_suffix ts).length_le
    have hcursor : (s.skip ts rest).cursor = s.cursor + (ts.length - rest.length) := rfl
    refine ⟨result, s.skip ts rest, Stream.read_of_ahead hts hone, rfl, by omega, by omega, ?_⟩
    rintro tree rfl
    obtain ⟨taken, hne, rfl, hmore⟩ := Tree.local_readOne ts tree rest hone
    have hpos : 0 < taken.length := List.length_pos_of_ne_nil hne
    have hmoved : (s.skip (taken ++ rest) rest).cursor = s.cursor + taken.length := by
      rw [hcursor, List.length_append]
      omega
    have hby : s.cursor + taken.length - s.cursor = taken.length := by omega
    simp only [hmoved, hby, Stream.between_of_ahead hnumbers]
    exact ⟨by omega, Stream.read_elsewhere hmore⟩

/-- The tokens of `) (ι nil) (`, with the cursor at the first parenthesis that opens. -/
def Stream.amid : Stream :=
  ⟨[⟨.closing, .text ")", ⟨1, 1⟩⟩, ⟨.opening, .text "(", ⟨1, 3⟩⟩, ⟨.keyword, .form .iota, ⟨1, 4⟩⟩,
    ⟨.literal, .nil, ⟨1, 6⟩⟩, ⟨.closing, .text ")", ⟨1, 9⟩⟩, ⟨.opening, .text "(", ⟨1, 11⟩⟩], 1⟩

/-- Neither the parenthesis before the expression nor the one behind it matters. -/
theorem reading_advances_amid :
    Stream.amid.cursor ≤ Stream.amid.tokens.length ∧
      Stream.amid.read Tree.readOne = (.ok (.app (.form .iota) [.nil]), Stream.amid.seek 5) ∧
      ∀ before behind : List Token,
        let part := Stream.amid.between 1 5
        Stream.read ⟨before ++ part ++ behind, before.length⟩ Tree.readOne =
          (.ok (.app (.form .iota) [.nil]), ⟨before ++ part ++ behind, before.length + 4⟩) := by
  have hcursor : Stream.amid.cursor ≤ Stream.amid.tokens.length := by decide
  have hread : Stream.amid.read Tree.readOne =
      (.ok (.app (.form .iota) [.nil]), Stream.amid.seek 5) := rfl
  obtain ⟨result, after, hafter, -, -, -, htree⟩ := reading_advances Stream.amid hcursor
  obtain ⟨rfl, rfl⟩ := Prod.mk.inj (hread.symm.trans hafter)
  exact ⟨hcursor, hread, (htree _ rfl).2⟩

end Curried
