import Curried.Proofs.Acceptance
import Curried.Proofs.Calculus
import Curried.Proofs.Faults
import Curried.Proofs.History
import Curried.Proofs.Values

/-!
# Proofs — one text after another

A text `p` that can be read, then a line feed, then a text `q`, are evaluated as one after the other
(`source_concatenation`).  A text moved down by some rows means the same, and only its positions
change: `Position.below`, and with it tokens, faults and outcomes (`Fault.message_below`).

* `Scan.run_below`, `Tree.readAll_below`: lexing and reading do not look at positions, and pass them
  on moved.
* `Scan.run_cut`, `Tree.readAll_append`: a text that can be lexed leaves no lexeme open, and tokens
  that can be read leave no group open, so what follows starts afresh.
* `Session.evalAll_append`: expressions are evaluated in order, each on the stack of the first.
* `Fault.below_of_tells`: no fault of evaluation has a position.
-/

namespace Curried

/-! ### Rows -/

/-- A position moved down by some rows. -/
def Position.below (rows : Nat) (p : Position) : Position := ⟨p.row + rows, p.col⟩

/-- A token moved down. -/
def Token.below (rows : Nat) (t : Token) : Token := { t with position := t.position.below rows }

/-- A fault in a text that is moved down. -/
def Fault.below (rows : Nat) : Fault → Fault
  | unreadable lexeme position => unreadable lexeme (position.below rows)
  | unexpected token => unexpected (token.below rows)
  | trailing token => trailing (token.below rows)
  | noOperator token => noOperator (token.below rows)
  | endAfter opening => endAfter (opening.below rows)
  | unclosed opening => unclosed (opening.below rows)
  | f => f

/-- **A fault further down has the same message**, except for the row of the position that it may
have. -/
theorem Fault.message_below (rows : Nat) (f : Fault) :
    f.below rows = f ∨ ∃ (before after : String) (p : Position),
      f.message = before ++ p.text ++ after ∧
        (f.below rows).message = before ++ (p.below rows).text ++ after := by
  -- The messages are opened by computation: the text of a token does not depend on its position.
  have hend : ∀ {s : String}, s = s ++ "" := String.append_empty.symm
  cases f with
  | unreadable lexeme p =>
      exact .inr ⟨"Cannot tokenize '" ++ lexeme ++ "' at ", "", p, hend, hend⟩
  | unexpected t =>
      have hlocated := append_located "Unexpected token "
      exact .inr ⟨"Unexpected token " ++ "'" ++ t.text ++ "' at ", "", t.position,
        (hlocated t).trans hend, (hlocated (t.below rows)).trans hend⟩
  | trailing t =>
      have hlocated := fun t : Token =>
        congrArg (· ++ " after the end of the expression") (append_located "Unexpected token " t)
      exact .inr ⟨"Unexpected token " ++ "'" ++ t.text ++ "' at ",
        " after the end of the expression", t.position, hlocated t, hlocated (t.below rows)⟩
  | noOperator t =>
      have hlocated := append_located "Cannot parse an operator from "
      exact .inr ⟨"Cannot parse an operator from " ++ "'" ++ t.text ++ "' at ", "", t.position,
        (hlocated t).trans hend, (hlocated (t.below rows)).trans hend⟩
  | endAfter p => exact .inr ⟨"Unexpected end of input after '(' at ", "", p, hend, hend⟩
  | unclosed p => exact .inr ⟨"Unexpected end of input: '(' at ", " is never closed", p, rfl, rfl⟩
  | _ => exact .inl rfl

/-- The outcome of a text that is moved down. -/
def Outcome.below (rows : Nat) : Outcome → Outcome
  | .fault f => .fault (f.below rows)
  | o => o

/-- What lexing yields for a text that is moved down. -/
def Lexed.below (rows : Nat) (l : Lexed) : Lexed :=
  ⟨l.tokens.map (Token.below rows), l.fault?.map (Fault.below rows)⟩

theorem Position.next_below (rows : Nat) (p : Position) (c : Char) :
    (p.below rows).next c = (p.next c).below rows := by
  by_cases h : c = '\n'
  · simp [next, below, h, Int.add_right_comm]
  · simp [next, below, h]

/-- After a text and a line feed, positions are those of the first row moved down. -/
theorem Position.past_newline (before : List Char) :
    past (before ++ ['\n']) = first.below (1 + before.count '\n') := by
  simp [past, first, below]
  omega

/-! ### Lexing -/

namespace Scan

/-- The lexer further down. -/
def below (rows : Nat) (s : Scan) : Scan :=
  { s with start := s.start.below rows, position := s.position.below rows }

theorem push_below (rows : Nat) (s : Scan) (c : Char) :
    (s.below rows).push c = (s.push c).below rows := by
  by_cases h : s.buffer = [] <;> simp [push, below, h, Position.next_below]

theorem parenthesis?_below (rows : Nat) (s : Scan) (c : Char) :
    (s.below rows).parenthesis? c = (s.parenthesis? c).map (Token.below rows) := by
  rw [parenthesis?, parenthesis?]
  split
  · rfl
  · split <;> rfl

theorem flush_below (rows : Nat) (s : Scan) :
    (s.below rows).flush =
      (s.flush.map (List.map (Token.below rows))).mapError (Fault.below rows) := by
  show (Token.ofLexeme s.buffer.reverse (s.start.below rows)).map Option.toList = _
  rw [flush, Token.ofLexeme, Token.ofLexeme]
  split
  · rfl
  · split <;> rfl

/-- **Lexing further down** yields the same tokens there, and the same fault. -/
theorem run_below (rows : Nat) (s : Scan) (cs : List Char) :
    (s.below rows).run cs = (s.run cs).below rows := by
  induction cs generalizing s with
  | nil =>
      rw [run, run, flush_below]
      cases s.flush <;> rfl
  | cons c cs ih =>
      have hfresh : fresh ((s.below rows).position.next c) =
          (fresh (s.position.next c)).below rows := by
        simp [fresh, below, Position.next_below]
      have hinText : (s.below rows).inText = s.inText := rfl
      rw [run, run, parenthesis?_below, Option.isSome_map, hinText, flush_below, hfresh, ih,
        push_below, ih]
      by_cases hsplit : ((s.parenthesis? c).isSome || (Text.isBlank c && !s.inText)) = true
      · rw [if_pos hsplit, if_pos hsplit]
        cases s.flush with
        | error f => rfl
        | ok ts => cases s.parenthesis? c <;> simp [Except.map, Except.mapError, Lexed.below]
      · rw [if_neg hsplit, if_neg hsplit]

end Scan

/-- **Lexing a text after another.**  After a text that can be lexed and a line feed, a text is lexed
as by itself, further down. -/
theorem lex_append_newline {p : String} {ts : List Token} (h : (lex p).result = .ok ts)
    (q : String) :
    lex (p ++ "\n" ++ q) =
      ⟨ts ++ ((lex q).below (1 + p.toList.count '\n')).tokens,
        ((lex q).below (1 + p.toList.count '\n')).fault?⟩ := by
  obtain ⟨c, hc, htext, hspells⟩ := lex_eq_ok_iff.mp h
  have hnewline : IsGap ['\n'] := by simp [IsGap]; decide
  obtain ⟨ts', hspells', hrun⟩ := Scan.run_cut [] hc ('\n' :: q.toList) (.inl (by decide))
  have hafter : (Scan.fresh (.past ([] ++ c.text))).run ('\n' :: q.toList) =
      (lex q).below (1 + p.toList.count '\n') := by
    rw [← List.singleton_append, Scan.run_gap _ hnewline, List.nil_append, htext,
      Position.past_newline]
    exact Scan.run_below _ (Scan.fresh .first) q.toList
  rw [hafter, hspells'.unique hspells, htext] at hrun
  rw [lex, String.toList_append, String.toList_append, List.append_assoc]
  exact hrun

/-! ### Reading -/

theorem Token.atom_below (rows : Nat) (t : Token) :
    (t.below rows).atom = t.atom.mapError (Fault.below rows) := by
  show t.atom = _
  rw [atom]
  split <;> rfl

theorem Fault.below_about (rows : Nat) (t : Token) (f : Fault) :
    (f.about t).below rows = (f.below rows).about (t.below rows) := by
  have htextless : (t.below rows).textless? = t.textless? := rfl
  rw [about, about, htextless]
  cases t.textless? <;> rfl

/-- What reading yields further down, where `move` says what becomes of the result. -/
def Reading.below {α : Type} (rows : Nat) (move : α → α) (r : Reading α) : Reading α :=
  ⟨(r.result.map move).mapError (Fault.below rows), r.rest.map (Token.below rows)⟩

theorem Reading.below_error {α : Type} (rows : Nat) (move : α → α) (f : Fault) (rest : List Token) :
    below rows move ⟨.error f, rest⟩ = ⟨.error (f.below rows), rest.map (Token.below rows)⟩ := rfl

namespace Group

/-- A group that was opened further down. -/
def below (rows : Nat) (g : Group) : Group := { g with opening := g.opening.below rows }

theorem add_below (rows : Nat) (g : Group) (t : Tree) :
    (g.below rows).add t = (g.add t).below rows := by
  obtain ⟨opening, _ | o, operands⟩ := g <;> rfl

theorem addLiteral_below (rows : Nat) (g : Group) (t : Tree) :
    (g.below rows).addLiteral t = (g.addLiteral t).below rows := by
  obtain ⟨opening, _ | o, operands⟩ := g <;> rfl

theorem endFault_below (rows : Nat) (g : Group) :
    (g.below rows).endFault = g.endFault.below rows := by
  obtain ⟨opening, _ | o, operands⟩ := g <;> rfl

/-- **Reading on further down** yields the same group there, or the same fault. -/
theorem read_below (rows : Nat) (g : Group) (around : List Group) (ts : List Token) :
    (g.below rows).read (around.map (below rows)) (ts.map (Token.below rows)) =
      (g.read around ts).below rows (below rows) := by
  induction ts generalizing g around with
  | nil =>
      rw [List.map_nil, read, read, endFault_below]
      rfl
  | cons t ts ih =>
      have hkind : (t.below rows).kind = t.kind := rfl
      have hvalue : (t.below rows).value = t.value := rfl
      have hoperator : (g.below rows).operator? = g.operator? := rfl
      rw [List.map_cons, read, read]
      simp only [hkind, hvalue, hoperator, Token.atom_below]
      split
      · rw [add_below, ih]
      · rw [addLiteral_below, ih]
      · cases t.atom with
        | error f => rfl
        | ok tree =>
            show ((g.below rows).add tree).read _ _ = _
            rw [add_below, ih]
      · exact ih (start t) (g :: around)
      · split
        · rw [Reading.below_error, Fault.below_about]
          rfl
        · rename_i operator _
          cases around with
          | nil => rfl
          | cons outer around =>
              show ((outer.below rows).add (g.close operator)).read _ _ = _
              rw [add_below, ih]
      · rw [Reading.below_error, Fault.below_about]
        rfl

end Group

namespace Tree

theorem readOne_below (rows : Nat) (ts : List Token) :
    readOne (ts.map (Token.below rows)) = (readOne ts).below rows id := by
  cases ts with
  | nil => rfl
  | cons t ts =>
      have hkind : (t.below rows).kind = t.kind := rfl
      rw [List.map_cons, readOne, readOne]
      simp only [hkind, Token.atom_below]
      split
      · cases t.atom <;> rfl
      · cases t.atom <;> rfl
      · cases t.atom <;> rfl
      · have hread : (Group.start (t.below rows)).read [] (ts.map (Token.below rows)) =
            ((Group.start t).read [] ts).below rows (Group.below rows) :=
          Group.read_below rows (Group.start t) [] ts
        rw [readGroup, hread, readGroup]
        obtain ⟨result, rest⟩ := (Group.start t).read [] ts
        cases result <;> rfl
      · rw [Reading.below_error, Fault.below_about]
        rfl
      · rw [Reading.below_error, Fault.below_about]
        rfl

/-- **Reading further down** yields the same trees, and the same fault there. -/
theorem readAll_below (rows : Nat) (ts : List Token) :
    readAll (ts.map (Token.below rows)) = ⟨(readAll ts).trees,
      (readAll ts).fault?.map (Fault.below rows), (readAll ts).rest.map (Token.below rows)⟩ := by
  fun_induction readAll ts with
  | case1 => exact readAll_nil
  | case2 ts hne f hf =>
      have hone : readOne (ts.map (Token.below rows)) =
          ⟨.error (f.below rows), (readOne ts).rest.map (Token.below rows)⟩ := by
        rw [readOne_below, Reading.below, hf]
        rfl
      rw [readAll_of_error (by simpa using hne) hone]
      rfl
  | case3 ts _ tree hr _ others ih =>
      have hone : readOne (ts.map (Token.below rows)) =
          ⟨.ok tree, (readOne ts).rest.map (Token.below rows)⟩ := by
        rw [readOne_below, Reading.below, hr]
        rfl
      rw [readAll_of_ok hone, ih]

/-- **Reading after complete expressions** starts afresh. -/
theorem readAll_append {ts : List Token} (hts : ∀ t ∈ ts, t.Proper)
    (h : (readAll ts).fault? = none) (us : List Token) :
    readAll (ts ++ us) =
      { readAll us with trees := (readAll ts).trees ++ (readAll us).trees } := by
  obtain ⟨ws, hws, rfl⟩ := (fault?_readAll_eq_none_iff hts).mp h
  obtain ⟨trees, -, hall⟩ := readAll_flatten (reads_of_expressions hws hts)
  have htrees : (readAll ws.flatten).trees = trees := by
    have hnone := hall []
    rw [List.append_nil, readAll_nil] at hnone
    simp [hnone]
  rw [hall us, htrees]

end Tree

/-! ### Evaluation -/

theorem Outcome.below_andThen (rows : Nat) (o : Outcome) (next : Tree → Outcome) :
    (o.andThen next).below rows = (o.below rows).andThen fun v => (next v).below rows := by
  cases o <;> rfl

/-- **No fault of evaluation has a position.** -/
theorem Fault.below_of_tells {G : Stack → Tree → Prop} {f : Fault} (h : f.Tells G) (rows : Nat) :
    f.below rows = f := by
  cases f with
  | unreadable | unexpected | trailing | noOperator | endAfter | unclosed => exact False.elim h
  | _ => rfl

theorem Run.Good.below_outcome {G : Stack → Tree → Prop} {V : Tree → Prop} {r : Run}
    (h : r.Good G V) (rows : Nat) : r.outcome.below rows = r.outcome := by
  obtain ⟨outcome, stack, log⟩ := r
  cases outcome with
  | fault f => exact congrArg Outcome.fault (Fault.below_of_tells h rows)
  | value | tooDeep => rfl

/-- How a text ends where reading ends, after the value `v` of the last expression that could be
read. -/
def Outcome.atEnd (fault? : Option Fault) (v : Tree) : Outcome :=
  match fault? with
  | some f => .fault f
  | none => .value v

theorem Outcome.below_atEnd (rows : Nat) (fault? : Option Fault) (v : Tree) :
    (atEnd fault? v).below rows = atEnd (fault?.map (Fault.below rows)) v := by
  cases fault? <;> rfl

namespace Session

theorem outcome_eval {source : String} {tokens : List Token}
    (h : (lex source).result = .ok tokens) (limit : Nat) (stack : Stack) :
    (eval limit stack source).outcome =
      (evalAll limit stack .nil (Tree.readAll tokens).trees).outcome.andThen
        (.atEnd (Tree.readAll tokens).fault?) := by
  simp only [eval, h]
  rw [Run.outcome_andThen]
  congr 1
  funext v
  cases (Tree.readAll tokens).fault? <;> rfl

/-- **Expressions are evaluated in order**, the later ones after the earlier ones and on the same
stack. -/
theorem evalAll_append (limit : Nat) (stack : Stack) (last : Tree) (ts us : List Tree) :
    (evalAll limit stack last (ts ++ us)).outcome =
      (evalAll limit stack last ts).outcome.andThen fun v => (evalAll limit stack v us).outcome := by
  induction ts generalizing last with
  | nil => rfl
  | cons t ts ih =>
      have hstack : ((evalTree limit stack t).noting (.parsed t)).stack = stack := by
        rw [Run.stack_noting, stack_evalTree]
      rw [List.cons_append, evalAll, evalAll, Run.outcome_andThen, Run.outcome_andThen,
        Outcome.andThen_assoc, hstack]
      simp only [ih]

/-- The value before the first expression does not matter if there is one. -/
theorem evalAll_of_ne_nil (limit : Nat) (stack : Stack) (last last' : Tree) {ts : List Tree}
    (h : ts ≠ []) : evalAll limit stack last ts = evalAll limit stack last' ts := by
  cases ts with
  | nil => exact absurd rfl h
  | cons t ts => rfl

/-- **Tokens further down end like the tokens by themselves**, whatever value came before, if there
are any. -/
theorem outcome_below (rows limit : Nat) (stack : Stack) {us : List Token} (hus : us ≠ [])
    (v : Tree) :
    (evalAll limit stack v (Tree.readAll us).trees).outcome.andThen
        (.atEnd ((Tree.readAll us).fault?.map (Fault.below rows))) =
      ((evalAll limit stack .nil (Tree.readAll us).trees).outcome.andThen
        (.atEnd (Tree.readAll us).fault?)).below rows := by
  have hgood : (evalAll limit stack .nil (Tree.readAll us).trees).Good _ _ :=
    good_evalAll invariant_isValue .nil fun _ _ => trivial
  rw [Outcome.below_andThen, hgood.below_outcome]
  simp only [Outcome.below_atEnd]
  rcases hone : Tree.readOne us with ⟨f | t, rest⟩
  · -- Nothing is evaluated, and the fault comes at once.
    rw [Tree.readAll_of_error hus hone]
    rfl
  · rw [evalAll_of_ne_nil limit stack v .nil]
    simp [Tree.readAll_of_ok hone]

end Session

/-- **One text after another.**  Let `p` be a text that can be lexed and read, and `q` one that can be
lexed.  The tokens of `p`, a line feed and `q` are those of `p` and then those of `q`, moved down by
the rows of `p`.  Such a text ends as `p` does if that is with a fault or too deep, whatever comes
after it, also if `q` cannot be read.  Otherwise it ends with the value of `p` if `q` has no tokens,
and else as `q` does by itself on the same stack, except that a fault is moved down too: the row of
the position in its message, if there is one, is that of the whole text, and nothing else changes. -/
theorem source_concatenation {p q : String} {ts us : List Token}
    (hp : (lex p).result = .ok ts) (hread : (Tree.readAll ts).fault? = none)
    (hq : (lex q).result = .ok us) :
    (lex (p ++ "\n" ++ q)).result =
      .ok (ts ++ us.map (Token.below (1 + p.toList.count '\n'))) ∧
    (∀ limit stack, (Session.eval limit stack (p ++ "\n" ++ q)).outcome =
      (Session.eval limit stack p).outcome.andThen fun v =>
        if us = [] then .value v
        else (Session.eval limit stack q).outcome.below (1 + p.toList.count '\n')) ∧
    ∀ (rows : Nat) (f : Fault), f.below rows = f ∨ ∃ (before after : String) (p : Position),
      f.message = before ++ p.text ++ after ∧
        (f.below rows).message = before ++ (p.below rows).text ++ after := by
  have hlex : (lex (p ++ "\n" ++ q)).result =
      .ok (ts ++ us.map (Token.below (1 + p.toList.count '\n'))) := by
    rw [lex_append_newline hp, Lexed.result_eq_ok_iff.mp hq]
    rfl
  refine ⟨hlex, fun limit stack => ?_, Fault.message_below⟩
  have hends : Outcome.atEnd none = .value := rfl
  have htrees := Tree.readAll_append (proper_of_lex hp) hread
    (us.map (Token.below (1 + p.toList.count '\n')))
  rw [Session.outcome_eval hlex, Session.outcome_eval hp, Session.outcome_eval hq, hread, hends,
    Outcome.andThen_value, htrees, Tree.readAll_below, Session.evalAll_append,
    Outcome.andThen_assoc]
  congr 1
  funext v
  split
  · rename_i hempty
    subst hempty
    rw [Tree.readAll_nil]
    rfl
  · rename_i hne
    exact Session.outcome_below _ limit stack hne v

/-- The tokens of `(ι` and ` nil)` in two rows. -/
def Token.twoRows : List Token :=
  [⟨.opening, .text "(", ⟨1, 1⟩⟩, ⟨.keyword, .form .iota, ⟨1, 2⟩⟩, ⟨.literal, .nil, ⟨2, 2⟩⟩,
    ⟨.closing, .text ")", ⟨2, 5⟩⟩]

/-- In the rows after them come `nil` and a parenthesis that closes nothing: the second text can be
lexed but not read, and its fault is found in row 4. -/
theorem source_concatenation_unexpected :
    (lex "(ι\n nil)").result = .ok Token.twoRows ∧ (Tree.readAll Token.twoRows).fault? = none ∧
      (Session.eval 9 [] "nil\n)").outcome =
        .fault (.unexpected ⟨.closing, .text ")", ⟨2, 1⟩⟩) ∧
      (Session.eval 9 [] ("(ι\n nil)" ++ "\n" ++ "nil\n)")).outcome =
        .fault (.unexpected ⟨.closing, .text ")", ⟨4, 1⟩⟩) := by
  have hp : (lex "(ι\n nil)").result = .ok Token.twoRows := rfl
  have hq : (lex "nil\n)").result =
      .ok [⟨.literal, .nil, ⟨1, 1⟩⟩, ⟨.closing, .text ")", ⟨2, 1⟩⟩] := rfl
  have hread : Tree.readAll Token.twoRows = ⟨[.app (.form .iota) [.nil]], none, []⟩ :=
    Tree.readAll_single rfl
  have hnone : (Tree.readAll Token.twoRows).fault? = none := by rw [hread]
  have hfirst : (Session.eval 9 [] "(ι\n nil)").outcome = .value .nil := by
    rw [Session.outcome_eval hp, hread]
    rfl
  have hsecond : (Session.eval 9 [] "nil\n)").outcome =
      .fault (.unexpected ⟨.closing, .text ")", ⟨2, 1⟩⟩) := by
    rw [Session.outcome_eval hq, Tree.readAll_of_ok rfl, Tree.readAll_of_error (by simp) rfl]
    rfl
  refine ⟨hp, hnone, hsecond, ?_⟩
  rw [(source_concatenation hp hnone hq).2.1, hfirst, hsecond]
  rfl

end Curried
