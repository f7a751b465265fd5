import Curried.Proofs.Reading
import Mathlib.Data.List.Forall2
import Mathlib.Data.List.Induction

/-!
# Proofs — what the parser accepts

The parser accepts the token lists that are balanced in parentheses and have no empty pair, and it
refuses any other list at one place, which can be found by counting.

* A closing parenthesis is *misplaced* if as many closing as opening ones come before it, or an
  opening one directly before it (`Token.Misplaced`).  The first misplaced token is where reading
  stops.
* Without a misplaced token, an opening parenthesis may be left *unclosed* (`Token.Unclosed`).  The
  last of these is what the fault at the end of the tokens is about.
* Whatever stops it, reading first yields the expressions that are complete by then
  (`Token.Yields`).

The parser keeps the groups that are open.  `Expression.reads` says that a complete expression
leaves no open group behind, and `Opened.reads` that an unfinished one leaves those of its unclosed
parentheses, the last of them innermost.  `Token.shape` cuts the tokens before the place
accordingly, and the result is put together in `reading_exact`.
-/

namespace Curried

namespace Token

/-- A token that has a place in the grammar: it is of one of the five kinds, a name has a text, and
a closing parenthesis can be shown. -/
structure Proper (t : Token) : Prop where
  kind : ∀ name, t.kind ≠ .other name
  name : t.kind = .identifier → ∃ x, t.value = .text x
  closing : t.kind = .closing → t.textless? = none

/-- No parenthesis. -/
def IsAtom (t : Token) : Prop := t.kind ≠ .opening ∧ t.kind ≠ .closing

/-- The number of opening parentheses. -/
def openings (ts : List Token) : Nat := ts.countP fun t => t.kind = .opening

/-- The number of closing parentheses. -/
def closings (ts : List Token) : Nat := ts.countP fun t => t.kind = .closing

/-- A closing parenthesis after these tokens that closes nothing, or an empty pair. -/
def Misplaced (before : List Token) (t : Token) : Prop :=
  t.kind = .closing ∧
    (closings before = openings before ∨ ∃ o ∈ before.getLast?, o.kind = .opening)

/-- No closing parenthesis is misplaced. -/
def Regular (ts : List Token) : Prop :=
  ∀ before t after, ts = before ++ t :: after → ¬ Misplaced before t

/-- An opening parenthesis that none of the tokens after it closes. -/
def Unclosed (o : Token) (after : List Token) : Prop :=
  o.kind = .opening ∧ ∀ p, p <+: after → closings p ≤ openings p

/-- No opening parenthesis is left unclosed. -/
def AllClosed (ts : List Token) : Prop :=
  ∀ before o after, ts = before ++ o :: after → ¬ Unclosed o after

end Token

open Token

/-- The tokens of one expression: an atom, or expressions between parentheses, at least one. -/
inductive Expression : List Token → Prop where
  | atom {t : Token} (h : t.IsAtom) : Expression [t]
  | group {o c : Token} {ws : List (List Token)} (ho : o.kind = .opening) (hc : c.kind = .closing)
      (hne : ws ≠ []) (hws : ∀ w ∈ ws, Expression w) : Expression (o :: (ws.flatten ++ [c]))

/-- The trees of the expressions that are complete in these tokens, each as it is read alone. -/
def Token.Yields (ts : List Token) (trees : List Tree) : Prop :=
  ∃ (done : List (List Token)) (rest : List Token), ts = done.flatten ++ rest ∧
    (∀ w ∈ done, Expression w) ∧ (∀ p, p <+: rest → ¬ Expression p) ∧
    List.Forall₂ (fun w tree => Tree.readSingle w = .ok tree) done trees

/-! ### The tokens of a text -/

/-- A closing parenthesis is the only lexeme of its kind. -/
theorem Lexeme.closing_of_reads? {l : List Char} {value : Tree}
    (h : Lexeme.reads? l = some (.closing, value)) : value = .text ")" := by
  grind [Lexeme.reads?, Token.classify?]

/-- Every token of a text has a place in the grammar. -/
theorem proper_of_lex {source : String} {tokens : List Token}
    (h : (lex source).result = .ok tokens) : ∀ t ∈ tokens, t.Proper := by
  intro t ht
  obtain ⟨l, -, hl⟩ := lex_tokens h t ht
  refine ⟨fun name hk => ?_, fun hk => ?_, fun hk => ?_⟩
  · rcases Lexeme.reads?_cases hl with (he | he) | ⟨he, -⟩ | ⟨he, -⟩ | ⟨he, -⟩ <;>
      cases hk.symm.trans he
  · rcases Lexeme.reads?_cases hl with (he | he) | ⟨he, -⟩ | ⟨he, -⟩ | ⟨-, hv, -⟩
    · cases hk.symm.trans he
    · cases hk.symm.trans he
    · cases hk.symm.trans he
    · cases hk.symm.trans he
    · exact ⟨_, hv⟩
  · rw [hk] at hl
    simp [Token.textless?, hk, Lexeme.closing_of_reads? hl, Tree.plainless?, Tree.sourceless?]

/-! ### Counting -/

/-- A start of two lists joined is one of the first, or the first and then one of the second. -/
theorem prefix_append_cases {α : Type} {p ts us : List α} (h : p <+: ts ++ us) :
    p <+: ts ∨ ∃ q, p = ts ++ q ∧ q <+: us := by
  rcases List.prefix_or_prefix_of_prefix h (List.prefix_append ts us) with hp | ⟨q, rfl⟩
  · exact .inl hp
  · exact .inr ⟨q, rfl, (List.prefix_append_right_inj ts).mp h⟩

namespace Token

@[simp] theorem openings_nil : openings [] = 0 := rfl

@[simp] theorem closings_nil : closings [] = 0 := rfl

@[simp] theorem openings_cons (t : Token) (ts : List Token) :
    openings (t :: ts) = openings ts + if t.kind = .opening then 1 else 0 := by
  simp [openings, List.countP_cons]

@[simp] theorem closings_cons (t : Token) (ts : List Token) :
    closings (t :: ts) = closings ts + if t.kind = .closing then 1 else 0 := by
  simp [closings, List.countP_cons]

@[simp] theorem openings_append (ts us : List Token) :
    openings (ts ++ us) = openings ts + openings us := List.countP_append ..

@[simp] theorem closings_append (ts us : List Token) :
    closings (ts ++ us) = closings ts + closings us := List.countP_append ..

/-- As many closing as opening parentheses, never more of them on the way, and no opening one at the
end. -/
structure Balanced (ts : List Token) : Prop where
  total : closings ts = openings ts
  start : ∀ p, p <+: ts → closings p ≤ openings p
  last : ∀ t ∈ ts.getLast?, t.kind ≠ .opening

theorem Balanced.append {ts us : List Token} (ht : Balanced ts) (hu : Balanced us) :
    Balanced (ts ++ us) := by
  refine ⟨by simp [ht.total, hu.total], fun p hp => ?_, fun t h => ?_⟩
  · rcases prefix_append_cases hp with hp | ⟨q, rfl, hq⟩
    · exact ht.start p hp
    · simp [ht.total, hu.start q hq]
  · rw [List.getLast?_append] at h
    cases hlast : us.getLast? with
    | none => exact ht.last t (by simpa [hlast] using h)
    | some u => exact hu.last t (by simpa [hlast] using h)

theorem balanced_flatten {ws : List (List Token)} (h : ∀ w ∈ ws, Balanced w) :
    Balanced ws.flatten := by
  induction ws with
  | nil => exact ⟨rfl, by simp, by simp⟩
  | cons w ws ih =>
      rw [List.forall_mem_cons] at h
      exact h.1.append (ih h.2)

theorem Balanced.allClosed {ts : List Token} (h : Balanced ts) : AllClosed ts := by
  rintro before o after rfl ⟨ho, hafter⟩
  have htotal := h.total
  have hbefore : closings before ≤ openings before := h.start before (List.prefix_append _ _)
  have hrest : closings after ≤ openings after := hafter after List.prefix_rfl
  simp [ho] at htotal
  omega

end Token

theorem Expression.balanced {w : List Token} (h : Expression w) : Balanced w := by
  induction h with
  | @atom t h =>
      refine ⟨by simp [h.1, h.2], fun p hp => ?_, by simpa using h.1⟩
      rcases List.prefix_cons_iff.mp hp with rfl | ⟨q, rfl, hq⟩
      · simp
      · simp [List.prefix_nil.mp hq, h.2]
  | @group o c ws ho hc _ _ ih =>
      have hws : Balanced ws.flatten := balanced_flatten ih
      refine ⟨by simp [ho, hc, hws.total], fun p hp => ?_, ?_⟩
      · rcases List.prefix_cons_iff.mp hp with rfl | ⟨q, rfl, hq⟩
        · simp
        · rcases List.prefix_concat_iff.mp hq with rfl | hq
          · simp [ho, hc, hws.total]
          · have := hws.start q hq
            simp [ho]
            omega
      · simp [List.getLast?_cons, hc]

theorem balanced_of_expressions {ws : List (List Token)} (h : ∀ w ∈ ws, Expression w) :
    Balanced ws.flatten := balanced_flatten fun w hw => (h w hw).balanced

/-! ### Reading expressions -/

namespace Group

/-- The group is still the one that was opened there, and has an operator now. -/
def Grown (g g' : Group) : Prop := g'.opening = g.opening ∧ g'.operator? ≠ none

theorem grown_add (g : Group) (t : Tree) : g.Grown (g.add t) := by
  unfold add
  split
  · exact ⟨rfl, by simp⟩
  · rename_i hop
    exact ⟨rfl, by simp [hop]⟩

theorem grown_addLiteral (g : Group) (t : Tree) : g.Grown (g.addLiteral t) := by
  unfold addLiteral
  split
  · exact ⟨rfl, by simp⟩
  · rename_i hop
    exact ⟨rfl, by simp [hop]⟩

end Group

/-- These tokens are read as one tree, whatever follows; and inside a group, as one item of it. -/
structure Reads (w : List Token) : Prop where
  alone : ∃ tree, ∀ more, Tree.readOne (w ++ more) = ⟨.ok tree, more⟩
  inside : ∀ g : Group, ∃ g', g.Grown g' ∧
    ∀ around more, g.read around (w ++ more) = g'.read around more

/-- A name with a text is a tree. -/
theorem Token.Proper.atom_eq {t : Token} (h : t.Proper) : ∃ tree, t.atom = .ok tree := by
  unfold Token.atom
  split
  · exact ⟨_, rfl⟩
  · rename_i hk hne
    obtain ⟨x, hx⟩ := h.name hk
    exact absurd hx (hne x)
  · exact ⟨_, rfl⟩

theorem reads_atom {t : Token} (ht : t.Proper) (h : t.IsAtom) : Reads [t] := by
  obtain ⟨tree, htree⟩ := ht.atom_eq
  cases hk : t.kind with
  | opening => exact absurd hk h.1
  | closing => exact absurd hk h.2
  | other name => exact absurd hk (ht.kind name)
  | keyword =>
      exact ⟨⟨tree, fun more => by simp [Tree.readOne, hk, htree]⟩,
        fun g => ⟨g.add t.value, g.grown_add _, fun around more => by simp [Group.read, hk]⟩⟩
  | literal =>
      exact ⟨⟨tree, fun more => by simp [Tree.readOne, hk, htree]⟩,
        fun g => ⟨g.addLiteral t.value, g.grown_addLiteral _,
          fun around more => by simp [Group.read, hk]⟩⟩
  | identifier =>
      exact ⟨⟨tree, fun more => by simp [Tree.readOne, hk, htree]⟩,
        fun g => ⟨g.add tree, g.grown_add _, fun around more => by simp [Group.read, hk, htree]⟩⟩

/-- Several expressions inside a group are items of it. -/
theorem reads_flatten {ws : List (List Token)} (h : ∀ w ∈ ws, Reads w) (g : Group) :
    ∃ g' : Group, g'.opening = g.opening ∧ (g'.operator? = none ↔ g.operator? = none ∧ ws = []) ∧
      ∀ around more, g.read around (ws.flatten ++ more) = g'.read around more := by
  induction ws generalizing g with
  | nil => exact ⟨g, rfl, by simp, fun _ _ => rfl⟩
  | cons w ws ih =>
      rw [List.forall_mem_cons] at h
      obtain ⟨g₁, ⟨hopening₁, hoperator₁⟩, hread₁⟩ := h.1.inside g
      obtain ⟨g₂, hopening₂, hoperator₂, hread₂⟩ := ih h.2 g₁
      refine ⟨g₂, hopening₂.trans hopening₁, ?_, fun around more => ?_⟩
      · simp [hoperator₂, hoperator₁]
      · rw [List.flatten_cons, List.append_assoc, hread₁, hread₂]

/-- **A complete expression leaves no open group behind.** -/
theorem Expression.reads {w : List Token} (h : Expression w) (hw : ∀ t ∈ w, t.Proper) :
    Reads w := by
  induction h with
  | atom h => exact reads_atom (hw _ (by simp)) h
  | @group o c ws ho hc hne _ ih =>
      have hws : ∀ w ∈ ws, Reads w := fun w hmem => ih w hmem fun t ht =>
        hw t (List.mem_cons_of_mem o (List.mem_append_left _ (List.mem_flatten_of_mem hmem ht)))
      obtain ⟨g, -, hnone, hread⟩ := reads_flatten hws (Group.start o)
      -- The first item made the operator, so the group can be closed.
      obtain ⟨op, hop⟩ : ∃ op, g.operator? = some op :=
        Option.ne_none_iff_exists'.mp fun e => hne (hnone.mp e).2
      have hmore : ∀ more, o :: (ws.flatten ++ [c]) ++ more = o :: (ws.flatten ++ c :: more) := by
        simp
      refine ⟨⟨g.tree, fun more => ?_⟩,
        fun outer => ⟨outer.add (g.close op), outer.grown_add _, ?_⟩⟩
      · rw [hmore, Tree.readOne]
        simp only [ho, Tree.readGroup, hread]
        simp [Group.read, hc, hop, Reading.map, Except.map]
      · intro around more
        rw [hmore, Group.read]
        simp only [ho, hread]
        rw [Group.read]
        simp only [hc, hop]

theorem reads_of_expressions {ws : List (List Token)} (hws : ∀ w ∈ ws, Expression w)
    (hts : ∀ t ∈ ws.flatten, t.Proper) : ∀ w ∈ ws, Reads w :=
  fun w hw => (hws w hw).reads fun t ht => hts t (List.mem_flatten_of_mem hw ht)

/-! ### Reading what is unfinished -/

/-- An unfinished expression `u`: the last parenthesis that it leaves unclosed is `o`, and the
expressions `ws` come after that. -/
inductive Opened : List Token → Token → List (List Token) → Prop where
  | outer {o : Token} {ws : List (List Token)} (ho : o.kind = .opening)
      (hws : ∀ w ∈ ws, Expression w) : Opened (o :: ws.flatten) o ws
  | inner {u : List Token} {o' o : Token} {ws' ws : List (List Token)} (h : Opened u o' ws')
      (ho : o.kind = .opening) (hws : ∀ w ∈ ws, Expression w) : Opened (u ++ o :: ws.flatten) o ws

namespace Opened

variable {u : List Token} {o : Token} {ws : List (List Token)}

theorem opening (h : Opened u o ws) : o.kind = .opening := by
  cases h with
  | outer ho => exact ho
  | inner _ ho => exact ho

theorem expressions (h : Opened u o ws) : ∀ w ∈ ws, Expression w := by
  cases h with
  | outer _ hws => exact hws
  | inner _ _ hws => exact hws

theorem exists_eq (h : Opened u o ws) : ∃ before, u = before ++ o :: ws.flatten := by
  cases h with
  | outer => exact ⟨[], rfl⟩
  | @inner u' => exact ⟨u', rfl⟩

/-- One more expression inside. -/
theorem snoc {w : List Token} (h : Opened u o ws) (hw : Expression w) :
    Opened (u ++ w) o (ws ++ [w]) := by
  have hmem : ∀ v ∈ ws ++ [w], Expression v :=
    List.forall_mem_append.mpr ⟨h.expressions, List.forall_mem_singleton.mpr hw⟩
  cases h with
  | outer ho => simpa using Opened.outer ho hmem
  | inner h ho => simpa using Opened.inner h ho hmem

/-- A closing parenthesis finishes the expression, or the innermost part of it. -/
theorem close {c : Token} (h : Opened u o ws) (hne : ws ≠ []) (hc : c.kind = .closing) :
    Expression (u ++ [c]) ∨ ∃ o' ws', Opened (u ++ [c]) o' ws' := by
  have hgroup : Expression (o :: (ws.flatten ++ [c])) := .group h.opening hc hne h.expressions
  cases h with
  | outer ho hws => exact .inl hgroup
  | @inner _ o' _ ws' _ h ho hws =>
      exact .inr ⟨o', ws' ++ [o :: (ws.flatten ++ [c])], by simpa using h.snoc hgroup⟩

/-- Counted from the start, an unfinished expression always has a parenthesis open. -/
theorem closings_lt (h : Opened u o ws) : ∀ p, p <+: u → p ≠ [] → closings p < openings p := by
  induction h with
  | @outer o ws ho hws =>
      intro p hp hne
      obtain ⟨q, rfl, hq⟩ := (List.prefix_cons_iff.mp hp).resolve_left hne
      have := (balanced_of_expressions hws).start q hq
      simp [ho]
      omega
  | @inner u o' o ws' ws h ho hws ih =>
      intro p hp hne
      rcases prefix_append_cases hp with hp | ⟨q, rfl, hq⟩
      · exact ih p hp hne
      · have hu : closings u < openings u := by
          refine ih u List.prefix_rfl ?_
          obtain ⟨before, rfl⟩ := h.exists_eq
          simp
        rcases List.prefix_cons_iff.mp hq with rfl | ⟨r, rfl, hr⟩
        · simpa using hu
        · have := (balanced_of_expressions hws).start r hr
          simp [ho]
          omega

theorem ne_nil (h : Opened u o ws) : u ≠ [] := by
  obtain ⟨before, rfl⟩ := h.exists_eq
  simp

/-- Nothing at its start is complete. -/
theorem not_expression (h : Opened u o ws) : ∀ p, p <+: u → ¬ Expression p := by
  intro p hp hexp
  have htotal := hexp.balanced.total
  have hne : p ≠ [] := by
    rintro rfl
    cases hexp
  have := h.closings_lt p hp hne
  omega

/-- **An unfinished expression leaves groups open**, and the innermost of them is that of its last
unclosed parenthesis. -/
theorem reads (h : Opened u o ws) (hu : ∀ t ∈ u, t.Proper) :
    ∃ (g : Group) (around : List Group), g.opening = o.position ∧ (g.operator? = none ↔ ws = []) ∧
      ∀ more, Tree.readOne (u ++ more) = (g.read around more).map Group.tree := by
  induction h with
  | @outer o ws ho hws =>
      have hreads : ∀ w ∈ ws, Reads w :=
        reads_of_expressions hws fun t ht => hu t (List.mem_cons_of_mem o ht)
      obtain ⟨g, hopening, hnone, hread⟩ := reads_flatten hreads (Group.start o)
      refine ⟨g, [], hopening, by simpa [Group.start] using hnone, fun more => ?_⟩
      rw [List.cons_append, Tree.readOne]
      simp only [ho, Tree.readGroup, hread]
  | @inner u o' o ws' ws h ho hws ih =>
      -- What was innermost so far is the first of the groups around the new one.
      obtain ⟨outer, around, -, -, hread'⟩ := ih fun t ht => hu t (List.mem_append_left _ ht)
      have hreads : ∀ w ∈ ws, Reads w :=
        reads_of_expressions hws fun t ht => hu t (List.mem_append_right u (.tail o ht))
      obtain ⟨g, hopening, hnone, hread⟩ := reads_flatten hreads (Group.start o)
      refine ⟨g, outer :: around, hopening, by simpa [Group.start] using hnone, fun more => ?_⟩
      rw [List.append_assoc, hread', List.cons_append, Group.read]
      simp only [ho, hread]

end Opened

/-! ### Cutting the tokens -/

theorem Expression.ne_nil {w : List Token} (h : Expression w) : w ≠ [] := by
  rintro rfl
  cases h

theorem flatten_expressions_eq_nil_iff {ws : List (List Token)} (h : ∀ w ∈ ws, Expression w) :
    ws.flatten = [] ↔ ws = [] := by
  refine ⟨fun hflat => ?_, by rintro rfl; rfl⟩
  by_contra hne
  obtain ⟨w, hw⟩ := List.exists_mem_of_ne_nil ws hne
  exact (h w hw).ne_nil (List.flatten_eq_nil_iff.mp hflat w hw)

namespace Token

theorem Regular.init {ts : List Token} {t : Token} (h : Regular (ts ++ [t])) :
    Regular ts ∧ ¬ Misplaced ts t := by
  refine ⟨fun before u after e => h before u (after ++ [t]) ?_, h ts t [] rfl⟩
  rw [e]
  simp

/-- **The shape of regular tokens**: complete expressions, and then perhaps an unfinished one. -/
theorem shape {ts : List Token} (hreg : Regular ts) :
    ∃ (done : List (List Token)) (rest : List Token), ts = done.flatten ++ rest ∧
      (∀ w ∈ done, Expression w) ∧ (rest = [] ∨ ∃ o ws, Opened rest o ws) := by
  -- The induction is on the tokens from the end: what a token does depends on what is open by then.
  induction ts using List.reverseRecOn with
  | nil => exact ⟨[], [], rfl, by simp, .inl rfl⟩
  | append_singleton ts t ih =>
      obtain ⟨hinit, hplaced⟩ := hreg.init
      obtain ⟨done, rest, rfl, hdone, hrest⟩ := ih hinit
      -- A complete expression at the end of the tokens joins those before it.
      have complete : ∀ {w : List Token}, Expression w → ∀ v ∈ done ++ [w], Expression v :=
        fun hw => List.forall_mem_append.mpr ⟨hdone, List.forall_mem_singleton.mpr hw⟩
      by_cases hopening : t.kind = .opening
      · have hnone : ∀ w ∈ ([] : List (List Token)), Expression w := by simp
        refine ⟨done, rest ++ [t], by simp, hdone, .inr ⟨t, [], ?_⟩⟩
        rcases hrest with rfl | ⟨o, ws, h⟩
        · exact .outer hopening hnone
        · exact .inner h hopening hnone
      by_cases hclosing : t.kind = .closing
      · rcases hrest with rfl | ⟨o, ws, h⟩
        · refine absurd ⟨hclosing, .inl ?_⟩ hplaced
          simpa using (balanced_of_expressions hdone).total
        · have hne : ws ≠ [] := by
            rintro rfl
            obtain ⟨before, rfl⟩ := h.exists_eq
            exact hplaced ⟨hclosing, .inr ⟨o, by simp [List.getLast?_append], h.opening⟩⟩
          rcases h.close hne hclosing with hexp | hopened
          · exact ⟨done ++ [rest ++ [t]], [], by simp, complete hexp, .inl rfl⟩
          · exact ⟨done, rest ++ [t], by simp, hdone, .inr hopened⟩
      · have hexp : Expression [t] := .atom ⟨hopening, hclosing⟩
        rcases hrest with rfl | ⟨o, ws, h⟩
        · exact ⟨done ++ [[t]], [], by simp, complete hexp, .inl rfl⟩
        · exact ⟨done, rest ++ [t], by simp, hdone, .inr ⟨o, ws ++ [[t]], h.snoc hexp⟩⟩

/-- Where a closing parenthesis is misplaced, one is so first. -/
theorem exists_first_misplaced {ts : List Token} (h : ¬ Regular ts) :
    ∃ before t after, ts = before ++ t :: after ∧ Regular before ∧ Misplaced before t := by
  induction ts using List.reverseRecOn with
  | nil => exact absurd (fun before t after e => by simp at e) h
  | append_singleton ts t ih =>
      by_cases hreg : Regular ts
      · refine ⟨ts, t, [], rfl, hreg, ?_⟩
        by_contra hplaced
        refine h fun before u after e => ?_
        -- The token is the last one, or one of the regular tokens before it.
        rcases List.eq_nil_or_concat after with rfl | ⟨after, v, rfl⟩
        · obtain ⟨rfl, hu⟩ := List.append_inj' e rfl
          obtain rfl := List.singleton_inj.mp hu
          exact hplaced
        · rw [List.concat_eq_append, ← List.cons_append, ← List.append_assoc] at e
          obtain ⟨e, -⟩ := List.append_inj' e rfl
          exact hreg before u after e
      · obtain ⟨before, u, after, rfl, hbefore, hplaced⟩ := ih hreg
        exact ⟨before, u, after ++ [t], by simp, hbefore, hplaced⟩

/-- The last unclosed parenthesis is the same, wherever it is looked for. -/
theorem last_unclosed_unique {before before' after after' : List Token} {o o' : Token}
    (e : before ++ o :: after = before' ++ o' :: after') (ho : Unclosed o after)
    (ho' : Unclosed o' after') (hlast : AllClosed after) (hlast' : AllClosed after') :
    o = o' ∧ after = after' := by
  -- Otherwise one of the two stands after the other, where all are closed.
  rcases List.append_eq_append_iff.mp e with ⟨c, -, e⟩ | ⟨c, -, e⟩
  · cases c with
    | nil => simpa using e
    | cons u c =>
        obtain ⟨-, e⟩ := List.cons_eq_cons.mp e
        exact absurd ho' (hlast c o' after' e)
  · cases c with
    | nil => simpa [eq_comm] using e
    | cons u c =>
        obtain ⟨-, e⟩ := List.cons_eq_cons.mp e
        exact absurd ho (hlast' c o after e)

end Token

/-! ### Reading to the end -/

theorem Fault.about_of_textless? {t : Token} {f : Fault} (h : t.textless? = none) :
    f.about t = f := by
  simp [about, h]

theorem Fault.append_located (words : String) (t : Token) :
    words ++ located t = words ++ "'" ++ t.text ++ "' at " ++ t.position.text := by
  simp only [located, String.append_assoc]

theorem Reads.readSingle {w : List Token} (h : Reads w) :
    ∃ tree, Tree.readSingle w = .ok tree ∧ ∀ more, Tree.readOne (w ++ more) = ⟨.ok tree, more⟩ := by
  obtain ⟨tree, htree⟩ := h.alone
  exact ⟨tree, Tree.readSingle_eq_ok_iff.mpr (.inl (by simpa using htree [])), htree⟩

/-- Complete expressions are read one after the other, and then what follows. -/
theorem readAll_flatten {done : List (List Token)} (h : ∀ w ∈ done, Reads w) :
    ∃ trees, List.Forall₂ (fun w tree => Tree.readSingle w = .ok tree) done trees ∧
      ∀ more, Tree.readAll (done.flatten ++ more) =
        { Tree.readAll more with trees := trees ++ (Tree.readAll more).trees } := by
  induction done with
  | nil => exact ⟨[], .nil, fun more => rfl⟩
  | cons w done ih =>
      rw [List.forall_mem_cons] at h
      obtain ⟨tree, hsingle, hone⟩ := h.1.readSingle
      obtain ⟨trees, htrees, hall⟩ := ih h.2
      refine ⟨tree :: trees, .cons hsingle htrees, fun more => ?_⟩
      rw [List.flatten_cons, List.append_assoc, Tree.readAll_of_ok (hone _), hall]
      rfl

/-- Reading that stops in an unfinished expression has yielded the complete ones before it. -/
theorem readAll_stopped {done : List (List Token)} {rest after left : List Token} {f : Fault}
    (hdone : ∀ w ∈ done, Expression w) (hproper : ∀ t ∈ done.flatten, t.Proper)
    (hrest : ∀ p, p <+: rest → ¬ Expression p) (hne : rest ++ after ≠ [])
    (hread : Tree.readOne (rest ++ after) = ⟨.error f, left⟩) :
    Yields (done.flatten ++ rest) (Tree.readAll (done.flatten ++ rest ++ after)).trees ∧
      (Tree.readAll (done.flatten ++ rest ++ after)).fault? = some f := by
  obtain ⟨trees, htrees, hall⟩ := readAll_flatten (reads_of_expressions hdone hproper)
  rw [List.append_assoc, hall, Tree.readAll_of_error hne hread]
  exact ⟨⟨done, rest, rfl, hdone, hrest, by simpa using htrees⟩, rfl⟩

/-- An unfinished expression that ends with an opening parenthesis has nothing after it. -/
theorem Opened.eq_nil_of_last {u : List Token} {o : Token} {ws : List (List Token)}
    (h : Opened u o ws) (hlast : ∃ t ∈ u.getLast?, t.kind = .opening) : ws = [] := by
  obtain ⟨t, hmem, ht⟩ := hlast
  obtain ⟨before, rfl⟩ := h.exists_eq
  cases hws : ws.flatten.getLast? with
  | none =>
      exact (flatten_expressions_eq_nil_iff h.expressions).mp (List.getLast?_eq_none_iff.mp hws)
  | some v =>
      have hv : v = t := by simpa [List.getLast?_append, List.getLast?_cons, hws] using hmem
      exact absurd ht ((balanced_of_expressions h.expressions).last t (by simp [hws, hv]))

/-- **The first misplaced parenthesis stops reading.** -/
theorem readAll_misplaced {before after : List Token} {t : Token}
    (hts : ∀ u ∈ before ++ t :: after, u.Proper) (hreg : Regular before)
    (hplaced : Misplaced before t) :
    Yields before (Tree.readAll (before ++ t :: after)).trees ∧
      (closings before = openings before →
        (Tree.readAll (before ++ t :: after)).fault? = some (.unexpected t)) ∧
      ((∃ o ∈ before.getLast?, o.kind = .opening) →
        (Tree.readAll (before ++ t :: after)).fault? = some (.noOperator t)) := by
  obtain ⟨done, rest, rfl, hdone, hrest⟩ := shape hreg
  obtain ⟨hclosing, hcause⟩ := hplaced
  have htext : t.textless? = none := (hts t (by simp)).closing hclosing
  have hproper : ∀ u ∈ done.flatten, u.Proper := fun u hu => hts u (by simp [hu])
  have hdones : Balanced done.flatten := balanced_of_expressions hdone
  rcases hrest with rfl | ⟨o, ws, hopened⟩
  · -- No parenthesis is open.
    have hread : Tree.readOne ([] ++ t :: after) = ⟨.error (.unexpected t), t :: after⟩ := by
      simp [Tree.readOne, hclosing, Fault.about_of_textless? htext]
    have hempty : ∀ p, p <+: ([] : List Token) → ¬ Expression p := fun p hp hexp =>
      hexp.ne_nil (List.prefix_nil.mp hp)
    obtain ⟨hyields, hfault⟩ := readAll_stopped hdone hproper hempty (by simp) hread
    refine ⟨hyields, fun _ => hfault, ?_⟩
    rintro ⟨o, hmem, ho⟩
    exact absurd ho (hdones.last o (by simpa using hmem))
  · -- One is open, so the pair is empty.
    have hlt : closings rest < openings rest :=
      hopened.closings_lt rest List.prefix_rfl hopened.ne_nil
    have hcount : closings (done.flatten ++ rest) ≠ openings (done.flatten ++ rest) := by
      simp only [closings_append, openings_append, hdones.total]
      omega
    have hlast : ∃ v ∈ rest.getLast?, v.kind = .opening := by
      obtain ⟨v, hv, hkind⟩ := hcause.resolve_left hcount
      rw [List.getLast?_append_of_ne_nil _ hopened.ne_nil] at hv
      exact ⟨v, hv, hkind⟩
    obtain rfl : ws = [] := hopened.eq_nil_of_last hlast
    obtain ⟨g, around, -, hnone, hg⟩ := hopened.reads fun u hu => hts u (by simp [hu])
    have hread : Tree.readOne (rest ++ t :: after) = ⟨.error (.noOperator t), after⟩ := by
      rw [hg, Group.read]
      simp [hclosing, hnone.mpr rfl, Fault.about_of_textless? htext, Reading.map, Except.map]
    obtain ⟨hyields, hfault⟩ :=
      readAll_stopped hdone hproper hopened.not_expression (by simp) hread
    exact ⟨hyields, fun h => absurd h hcount, fun _ => hfault⟩

/-- The parenthesis that an unfinished expression leaves open is unclosed, and the last to be so. -/
theorem Opened.unclosed {u : List Token} {o : Token} {ws : List (List Token)} (h : Opened u o ws) :
    Unclosed o ws.flatten ∧ AllClosed ws.flatten := by
  have hws : Balanced ws.flatten := balanced_of_expressions h.expressions
  exact ⟨⟨h.opening, hws.start⟩, hws.allClosed⟩

/-- **The last unclosed parenthesis is the fault at the end**, if none is misplaced. -/
theorem readAll_unclosed {before after : List Token} {o : Token}
    (hts : ∀ u ∈ before ++ o :: after, u.Proper) (hreg : Regular (before ++ o :: after))
    (ho : Unclosed o after) (hlast : AllClosed after) :
    Yields (before ++ o :: after) (Tree.readAll (before ++ o :: after)).trees ∧
      (Tree.readAll (before ++ o :: after)).fault? =
        some (if after = [] then .endAfter o.position else .unclosed o.position) := by
  obtain ⟨done, rest, e, hdone, hrest⟩ := shape hreg
  rw [e] at hts ⊢
  rcases hrest with rfl | ⟨o', ws, hopened⟩
  · rw [List.append_nil] at e
    exact absurd ho ((balanced_of_expressions hdone).allClosed before o after e.symm)
  · obtain ⟨start, hstart⟩ := hopened.exists_eq
    obtain ⟨ho', hlast'⟩ := hopened.unclosed
    have hcut : before ++ o :: after = (done.flatten ++ start) ++ o' :: ws.flatten := by
      rw [e, hstart, List.append_assoc]
    -- Both cuts are at the last unclosed parenthesis.
    obtain ⟨rfl, rfl⟩ := last_unclosed_unique hcut ho ho' hlast hlast'
    obtain ⟨g, around, hopening, hnone, hg⟩ := hopened.reads fun u hu => hts u (by simp [hu])
    have hread : Tree.readOne (rest ++ []) = ⟨.error g.endFault, []⟩ := by
      rw [hg, Group.read]
      rfl
    obtain ⟨hyields, hfault⟩ := readAll_stopped hdone (fun u hu => hts u (by simp [hu]))
      hopened.not_expression (by simp [hopened.ne_nil]) hread
    rw [List.append_nil] at hyields hfault
    have hempty : ws.flatten = [] ↔ ws = [] := flatten_expressions_eq_nil_iff hopened.expressions
    refine ⟨hyields, hfault.trans (congrArg some ?_)⟩
    rw [Group.endFault, hopening]
    cases hop : g.operator? with
    | none => rw [if_pos (hempty.mpr (hnone.mp hop))]
    | some op =>
        have hne : ws.flatten ≠ [] := fun h => by simp [hnone.mpr (hempty.mp h)] at hop
        rw [if_neg hne]

/-- **Expressions that are all complete are read without a fault.** -/
theorem readAll_complete {ws : List (List Token)} (hws : ∀ w ∈ ws, Expression w)
    (hts : ∀ t ∈ ws.flatten, t.Proper) :
    Yields ws.flatten (Tree.readAll ws.flatten).trees ∧
      (Tree.readAll ws.flatten).fault? = none := by
  obtain ⟨trees, htrees, hall⟩ := readAll_flatten (reads_of_expressions hws hts)
  have h := hall []
  rw [List.append_nil, Tree.readAll_nil] at h
  rw [h]
  refine ⟨⟨ws, [], by simp, hws, fun p hp hexp => ?_, by simpa using htrees⟩, rfl⟩
  exact hexp.ne_nil (List.prefix_nil.mp hp)

/-- Reading has no fault exactly if the tokens are complete expressions. -/
theorem fault?_readAll_eq_none_iff {ts : List Token} (hts : ∀ t ∈ ts, t.Proper) :
    (Tree.readAll ts).fault? = none ↔
      ∃ ws : List (List Token), (∀ w ∈ ws, Expression w) ∧ ts = ws.flatten := by
  refine ⟨fun h => ?_, ?_⟩
  · have hreg : Regular ts := by
      by_contra hirregular
      obtain ⟨before, t, after, rfl, hbefore, hplaced⟩ := exists_first_misplaced hirregular
      obtain ⟨-, hunexpected, hempty⟩ := readAll_misplaced hts hbefore hplaced
      rcases hplaced.2 with hcount | hlast
      · cases h.symm.trans (hunexpected hcount)
      · cases h.symm.trans (hempty hlast)
    obtain ⟨done, rest, rfl, hdone, rfl | ⟨o, ws, hopened⟩⟩ := shape hreg
    · exact ⟨done, hdone, by simp⟩
    · obtain ⟨start, rfl⟩ := hopened.exists_eq
      obtain ⟨ho, hlast⟩ := hopened.unclosed
      rw [← List.append_assoc] at hts hreg h
      cases h.symm.trans (readAll_unclosed hts hreg ho hlast).2
  · rintro ⟨ws, hws, rfl⟩
    exact (readAll_complete hws hts).2

/-- **What the parser accepts, and where it refuses.**  Reading stops at the first misplaced
parenthesis, and the fault says which of the two things is wrong with it.  If there is none, the
fault at the end names the last parenthesis left unclosed.  If there is none of these either, there
is no fault.  In each case the expressions complete by then have been read, and so the tokens that
are accepted are those made of complete expressions.  A single expression is accepted if it is all
there is, and no tokens are nil.  The messages of these faults give the token and its position, or
the position of the parenthesis that is not closed. -/
theorem reading_exact {ts : List Token} (hts : ∀ t ∈ ts, t.Proper) :
    (∀ before t after, ts = before ++ t :: after → Regular before → Misplaced before t →
      Yields before (Tree.readAll ts).trees ∧
      (closings before = openings before → (Tree.readAll ts).fault? = some (.unexpected t)) ∧
      ((∃ o ∈ before.getLast?, o.kind = .opening) →
        (Tree.readAll ts).fault? = some (.noOperator t))) ∧
    (∀ before o after, ts = before ++ o :: after → Regular ts → Unclosed o after →
      AllClosed after → Yields ts (Tree.readAll ts).trees ∧
        (Tree.readAll ts).fault? =
          some (if after = [] then .endAfter o.position else .unclosed o.position)) ∧
    (Regular ts → AllClosed ts →
      Yields ts (Tree.readAll ts).trees ∧ (Tree.readAll ts).fault? = none) ∧
    ((Tree.readAll ts).fault? = none ↔
      ∃ ws : List (List Token), (∀ w ∈ ws, Expression w) ∧ ts = ws.flatten) ∧
    (∀ tree, Tree.readSingle ts = .ok tree ↔
      ((Tree.readAll ts).trees = [tree] ∧ (Tree.readAll ts).fault? = none) ∨
        (ts = [] ∧ tree = .nil)) ∧
    (∀ t, (Fault.unexpected t).message =
        "Unexpected token '" ++ t.text ++ "' at " ++ t.position.text ∧
      (Fault.noOperator t).message =
        "Cannot parse an operator from '" ++ t.text ++ "' at " ++ t.position.text) ∧
    ∀ p, (Fault.endAfter p).message = "Unexpected end of input after '(' at " ++ p.text ∧
      (Fault.unclosed p).message =
        "Unexpected end of input: '(' at " ++ p.text ++ " is never closed" := by
  refine ⟨?_, ?_, fun hreg hclosed => ?_, fault?_readAll_eq_none_iff hts, fun tree => ?_, ?_,
    fun _ => ⟨rfl, rfl⟩⟩
  · rintro before t after rfl hreg hplaced
    exact readAll_misplaced hts hreg hplaced
  · rintro before o after rfl hreg ho hlast
    exact readAll_unclosed hts hreg ho hlast
  · obtain ⟨done, rest, rfl, hdone, rfl | ⟨o, ws, hopened⟩⟩ := shape hreg
    · rw [List.append_nil] at hts ⊢
      exact readAll_complete hdone hts
    · obtain ⟨start, rfl⟩ := hopened.exists_eq
      exact absurd hopened.unclosed.1 (hclosed (done.flatten ++ start) o ws.flatten (by simp))
  · rw [Tree.readSingle_eq_ok_iff, Tree.readAll_single_iff]
  · intro t
    exact ⟨Fault.append_located "Unexpected token " t,
      Fault.append_located "Cannot parse an operator from " t⟩

/-- The tokens of `x (f ())` up to its empty pair. -/
def Token.beforeEmptyPair : List Token :=
  [⟨.identifier, .text "x", ⟨1, 1⟩⟩, ⟨.opening, .text "(", ⟨1, 3⟩⟩,
    ⟨.identifier, .text "f", ⟨1, 4⟩⟩, ⟨.opening, .text "(", ⟨1, 6⟩⟩]

/-- The inner pair of `x (f ())` is empty: reading yields `x` and stops there. -/
theorem reading_exact_emptyPair :
    ∃ t ts, (lex "x (f ())").result = .ok (beforeEmptyPair ++ t :: ts) ∧
      Regular beforeEmptyPair ∧ Misplaced beforeEmptyPair t ∧ t.position = ⟨1, 7⟩ ∧
      Yields beforeEmptyPair (Tree.readAll (beforeEmptyPair ++ t :: ts)).trees ∧
      (Tree.readAll (beforeEmptyPair ++ t :: ts)).fault? = some (.noOperator t) := by
  have hlex : (lex "x (f ())").result = .ok (beforeEmptyPair ++
      ⟨.closing, .text ")", ⟨1, 7⟩⟩ :: [⟨.closing, .text ")", ⟨1, 8⟩⟩]) := rfl
  have hreg : Regular beforeEmptyPair := by
    rintro before t after e ⟨hclosing, -⟩
    have hmem : t ∈ beforeEmptyPair := by simp [e]
    have hnone : ∀ t ∈ beforeEmptyPair, t.kind ≠ .closing := by simp [beforeEmptyPair]
    exact hnone t hmem hclosing
  have hlast : ∃ o ∈ beforeEmptyPair.getLast?, o.kind = .opening := ⟨_, rfl, rfl⟩
  have hplaced : Misplaced beforeEmptyPair ⟨.closing, .text ")", ⟨1, 7⟩⟩ := ⟨rfl, .inr hlast⟩
  obtain ⟨hyields, -, hfault⟩ := (reading_exact (proper_of_lex hlex)).1 _ _ _ rfl hreg hplaced
  exact ⟨_, _, hlex, hreg, hplaced, rfl, hyields, hfault hlast⟩

end Curried
