import Curried.Proofs.Numeral
import Curried.Proofs.Reading

/-!
# Proofs — what is printed can be read

The source text of a tree parses, provided that the leaves can be read (`Tree.Readable`): the name
of a name is one name token, a text has no parenthesis and is a literal between quotes, and no leaf
is a value of the host.  What it parses to is the normal form of the tree (`Tree.normal`).

Printing and reading are joined token by token.  `Tree.Denotes ts t` says that the tokens `ts` are
read as the tree `t` wherever an expression may stand, and `Tree.Prints cs t` that the text `cs`,
wherever it stands, is lexed into such tokens.  Then leaves print (`Tree.prints_leaf`), applications
of what prints print (`Tree.prints_app`), and the rest is induction.
-/

namespace Curried

namespace Tree

/-! ### Leaves that can be read -/

/-- What printing asks of a leaf. -/
def Readable : Tree → Prop
  | .sym name => ∃ position, (lex name).result = .ok [⟨.identifier, .text name, position⟩]
  | .text s => (∀ c ∈ s.toList, !isParen c) ∧
      Text.unquote? ('"' :: (s.toList ++ ['"'])) = some s.toList
  | .host _ => False
  | _ => True

/-! ### Normal forms -/

/-- An application as the parser builds it: a literal in operator position gets `ι` in front, and
an application there gives its own operator and operands. -/
def regroup : Tree → List Tree → Tree
  | .app h as, bs => .app h (as ++ bs)
  | .sym x, bs => .app (.sym x) bs
  | .form f, bs => .app (.form f) bs
  | literal, bs => .app (.form .iota) (literal :: bs)

mutual

/-- A tree as it is after printing and reading. -/
def normal : Tree → Tree
  | .num n => .num n.unsigned
  | .app f as => regroup f.normal (normals as)
  | t => t

/-- Several trees as they are after printing and reading. -/
def normals : List Tree → List Tree
  | [] => []
  | t :: ts => t.normal :: normals ts

end

theorem normals_eq_map (ts : List Tree) : normals ts = ts.map normal := by
  induction ts with
  | nil => rfl
  | cons t ts ih => simp [normals, ih]

theorem flat_regroup {f : Tree} {as : List Tree} (hf : Flat f) (has : ∀ a ∈ as, Flat a) :
    Flat (regroup f as) := by
  unfold regroup
  split
  · obtain ⟨hh, hleaf, hbs⟩ := nodes_app.mp hf
    exact nodes_app.mpr ⟨hh, hleaf, fun a ha => (List.mem_append.mp ha).elim (hbs a) (has a)⟩
  · exact nodes_app.mpr ⟨.inl ⟨_, rfl⟩, hf, has⟩
  · exact nodes_app.mpr ⟨.inr ⟨_, rfl⟩, hf, has⟩
  · exact nodes_app.mpr ⟨.inr ⟨_, rfl⟩, nodes_leaf (by simp), List.forall_mem_cons.mpr ⟨hf, has⟩⟩

/-- A normal form is flat. -/
theorem flat_normal (t : Tree) : Flat t.normal := by
  induction t using byApp with
  | leaf t h =>
      refine nodes_leaf fun f as e => ?_
      cases t with
      | app f as => exact h f as rfl
      | num | text | nil | sym | form | host => simp [normal] at e
  | app f as ihf ihas =>
      rw [normal, normals_eq_map]
      refine flat_regroup ihf fun a ha => ?_
      obtain ⟨b, hb, rfl⟩ := List.mem_map.mp ha
      exact ihas b hb

end Tree

/-! ### Reading -/

namespace Group

/-- Adds an item that has been read, a literal in its own way. -/
def receive (g : Group) (t : Tree) : Group := if t.isOperator then g.add t else g.addLiteral t

/-- After the operator, items are operands. -/
theorem foldl_receive {g : Group} {o : Tree} (hg : g.operator? = some o) (as : List Tree) :
    as.foldl receive g = { g with operands := as.reverse ++ g.operands } := by
  induction as generalizing g with
  | nil => rfl
  | cons a as ih =>
      have hreceive : g.receive a = { g with operands := a :: g.operands } := by
        unfold receive add addLiteral
        rw [hg]
        simp
      rw [List.foldl_cons, hreceive, ih (g := { g with operands := a :: g.operands }) hg]
      simp

/-- **A group closes to the regrouped application** of its first item to the others. -/
theorem close_receive (t : Token) {f : Tree} (hf : f.Flat) (as : List Tree) :
    ∃ o, (as.foldl receive ((start t).receive f)).operator? = some o ∧
      (as.foldl receive ((start t).receive f)).close o = f.regroup as := by
  by_cases ho : f.isOperator
  · have hstart : (start t).receive f = ⟨t.position, some f, []⟩ := by simp [receive, ho, start, add]
    rw [hstart, foldl_receive rfl]
    refine ⟨f, rfl, ?_⟩
    show f.apply _ = _
    rw [List.append_nil, List.reverse_reverse]
    cases f with
    | sym x => rfl
    | form g => rfl
    | app h bs =>
        -- The operator of a flat application is a leaf, so splicing ends there.
        obtain ⟨⟨x, rfl⟩ | ⟨g, rfl⟩, -⟩ := Tree.nodes_app.mp hf <;> rfl
    | num | text | nil | host => cases ho
  · have hstart : (start t).receive f = ⟨t.position, some (.form .iota), [f]⟩ := by
      simp [receive, ho, start, addLiteral]
    rw [hstart, foldl_receive rfl]
    refine ⟨.form .iota, rfl, ?_⟩
    show Tree.apply _ _ = _
    cases f with
    | num | text | nil | host => simp [Tree.apply, Tree.regroup]
    | sym | form | app => exact absurd rfl ho

end Group

namespace Tree

/-- The tokens `ts` are read as `t`, by itself and inside a group. -/
structure Denotes (ts : List Token) (t : Tree) : Prop where
  alone : ∀ more, readOne (ts ++ more) = ⟨.ok t, more⟩
  inside : ∀ (g : Group) around more, g.read around (ts ++ more) = (g.receive t).read around more

theorem denotes_keyword (f : Form) (p : Position) : Denotes [⟨.keyword, .form f, p⟩] (.form f) :=
  ⟨fun _ => rfl, fun _ _ _ => rfl⟩

theorem denotes_name (x : String) (p : Position) : Denotes [⟨.identifier, .text x, p⟩] (.sym x) :=
  ⟨fun _ => rfl, fun _ _ _ => rfl⟩

theorem denotes_literal {t : Tree} (ht : ¬ t.isOperator) (p : Position) :
    Denotes [⟨.literal, t, p⟩] t where
  alone _ := rfl
  inside g around more := by
    show (g.addLiteral t).read around more = _
    rw [Group.receive, if_neg ht]

theorem isOperator_regroup (f : Tree) (as : List Tree) : (regroup f as).isOperator := by
  unfold regroup
  split <;> rfl

/-- Tokens between parentheses, which a fresh group takes in as the items `f`, `a` … -/
theorem denotes_group {ts : List Token} {f : Tree} {as : List Tree} (hf : f.Flat)
    (hts : ∀ (g : Group) around more,
      g.read around (ts ++ more) = (as.foldl Group.receive (g.receive f)).read around more)
    (v w : Tree) (p q : Position) :
    Denotes (⟨.opening, v, p⟩ :: (ts ++ [⟨.closing, w, q⟩])) (f.regroup as) := by
  obtain ⟨o, ho, hclose⟩ := Group.close_receive ⟨.opening, v, p⟩ hf as
  constructor
  · intro more
    have hread : (Group.start ⟨.opening, v, p⟩).read [] (ts ++ ⟨.closing, w, q⟩ :: more) =
        ⟨.ok (as.foldl Group.receive ((Group.start ⟨.opening, v, p⟩).receive f)), more⟩ := by
      rw [hts, Group.read]
      simp only [ho]
    rw [List.cons_append, List.append_assoc, List.singleton_append, readOne]
    simp only [readGroup, hread, Reading.map, Except.map, Group.tree, ho, Option.getD_some, hclose]
  · intro g around more
    rw [List.cons_append, List.append_assoc, List.singleton_append, Group.read]
    simp only [hts]
    rw [Group.read]
    simp only [ho, hclose]
    rw [Group.receive, if_pos (isOperator_regroup f as)]

end Tree

/-! ### Printing -/

/-- Tokens in front of what lexing yields. -/
def Lexed.after (l : Lexed) (ts : List Token) : Lexed := ⟨ts ++ l.tokens, l.fault?⟩

theorem Lexed.after_after (l : Lexed) (ts us : List Token) :
    (l.after us).after ts = l.after (ts ++ us) := by
  simp [after]

namespace Tree

/-- The text `cs` is lexed, wherever it stands, into tokens that are read as `t`. -/
def Prints (cs : List Char) (t : Tree) : Prop :=
  ∀ before rest, Stops rest → ∃ ts, Denotes ts t ∧
    (Scan.fresh (.past before)).run (cs ++ rest) =
      ((Scan.fresh (.past (before ++ cs))).run rest).after ts

/-- A lexeme prints what its token denotes. -/
theorem prints_lexeme {l : List Char} {kind : Kind} {value t : Tree} (hl : Lexeme l)
    (hp : ¬ IsParen l) (hc : Token.classify? l = some (kind, value))
    (ht : ∀ p, Denotes [⟨kind, value, p⟩] t) : Prints l t := by
  intro before rest hrest
  obtain ⟨kind', value', hc', hrun⟩ := Scan.run_lexeme before hl hp hrest
  rw [hc] at hc'
  cases hc'
  exact ⟨_, ht (.past before), hrun⟩

/-- The source texts of operands, with a blank in front of each. -/
def spaced (as : List Tree) : List Char := as.flatMap fun a => ' ' :: a.source.toList

/-- Operands do not run into what is in front of them. -/
theorem stops_spaced (as : List Tree) {rest : List Char} (hrest : Stops rest) :
    Stops (spaced as ++ rest) := by
  cases as with
  | nil => exact hrest
  | cons a as => exact .inl (by decide)

/-- Operands are lexed into tokens that a group receives one after the other. -/
theorem prints_spaced {as : List Tree} (has : ∀ a ∈ as, Prints a.source.toList a.normal)
    (before rest : List Char) (hrest : Stops rest) :
    ∃ ts, (∀ (g : Group) around more, g.read around (ts ++ more) =
        ((as.map normal).foldl Group.receive g).read around more) ∧
      (Scan.fresh (.past before)).run (spaced as ++ rest) =
        ((Scan.fresh (.past (before ++ spaced as))).run rest).after ts := by
  induction as generalizing before with
  | nil => exact ⟨[], fun _ _ _ => rfl, by simp [Lexed.after, spaced]⟩
  | cons a as ih =>
      rw [List.forall_mem_cons] at has
      have hgap : IsGap [' '] := by simp [IsGap]; decide
      obtain ⟨ts, hts, hrun⟩ := has.1 (before ++ [' ']) _ (stops_spaced as hrest)
      obtain ⟨us, hus, hrun'⟩ := ih has.2 (before ++ [' '] ++ a.source.toList)
      refine ⟨ts ++ us, ?_, ?_⟩
      · intro g around more
        rw [List.append_assoc, hts.inside, hus, List.map_cons, List.foldl_cons]
      · have hspaced : spaced (a :: as) = [' '] ++ (a.source.toList ++ spaced as) := by simp [spaced]
        rw [hspaced, List.append_assoc, List.append_assoc, Scan.run_gap before hgap, hrun, hrun',
          Lexed.after_after]
        simp

theorem toList_intercalate (f : Tree) (as : List Tree) :
    (" ".intercalate (f.source :: sources as)).toList = f.source.toList ++ spaced as := by
  induction as generalizing f with
  | nil => simp [sources, spaced]
  | cons a as ih =>
      rw [sources, String.intercalate_cons_cons, String.toList_append, String.toList_append, ih]
      simp [spaced]

theorem source_app (f : Tree) (as : List Tree) :
    (Tree.app f as).source.toList = '(' :: (f.source.toList ++ spaced as ++ [')']) := by
  rw [source, String.toList_append, String.toList_append, toList_intercalate]
  rfl

/-- **An application prints** if its operator and its operands do. -/
theorem prints_app {f : Tree} {as : List Tree} (hf : Prints f.source.toList f.normal)
    (has : ∀ a ∈ as, Prints a.source.toList a.normal) :
    Prints (Tree.app f as).source.toList (Tree.app f as).normal := by
  intro before rest _
  have hclose : Stops (')' :: rest) := .inr (by decide)
  obtain ⟨ts, hts, hrun⟩ := hf (before ++ ['(']) _ (stops_spaced as hclose)
  obtain ⟨us, hus, hrun'⟩ := prints_spaced has (before ++ ['('] ++ f.source.toList) _ hclose
  -- A parenthesis is lexed whatever stands around it, so the four parts are lexed one by one.
  obtain ⟨k₁, v, hk₁, hopen⟩ := Scan.run_paren before (c := '(') (by decide)
    (f.source.toList ++ (spaced as ++ ')' :: rest))
  obtain ⟨k₂, w, hk₂, hshut⟩ := Scan.run_paren (before ++ ['('] ++ f.source.toList ++ spaced as)
    (c := ')') (by decide) rest
  cases hk₁
  cases hk₂
  have hitems : ∀ (g : Group) around more, g.read around (ts ++ us ++ more) =
      ((as.map normal).foldl Group.receive (g.receive f.normal)).read around more := by
    intro g around more
    rw [List.append_assoc, hts.inside, hus]
  have htext : '(' :: (f.source.toList ++ spaced as ++ [')']) ++ rest =
      '(' :: (f.source.toList ++ (spaced as ++ ')' :: rest)) := by simp
  rw [source_app, normal, normals_eq_map]
  refine ⟨_, denotes_group (flat_normal f) hitems (.text "(") (.text ")") (.past before)
    (.past (before ++ ['('] ++ f.source.toList ++ spaced as)), ?_⟩
  rw [htext, hopen, hrun, hrun', hshut]
  simp [Lexed.after]

/-! ### Leaves -/

theorem isWordChar_of_isNumeralChar {c : Char} (h : isNumeralChar c) : isWordChar c := by
  simp only [isNumeralChar, Bool.or_eq_true, beq_iff_eq, or_assoc] at h
  rcases h with h | rfl | rfl | rfl | rfl
  · have hlow : 48 ≤ c.toNat ∧ c.toNat ≤ 57 := by
      simp only [Char.isDigit, Bool.and_eq_true, decide_eq_true_eq] at h
      exact ⟨UInt32.le_iff_toNat_le.mp h.1, UInt32.le_iff_toNat_le.mp h.2⟩
    have hblank : Text.isBlank c = false := by
      simp [Text.isBlank, Text.blanks]
      omega
    have h₁ : c ≠ '(' := by rintro rfl; exact absurd h (by decide)
    have h₂ : c ≠ ')' := by rintro rfl; exact absurd h (by decide)
    have h₃ : c ≠ '"' := by rintro rfl; exact absurd h (by decide)
    simp [isWordChar, isParen, hblank, h₁, h₂, h₃]
  · decide
  · decide
  · decide
  · decide

/-- The text of a number is a word. -/
theorem isWordChar_text (n : Number) : ∀ c ∈ n.text.toList, isWordChar c := by
  cases n with
  | nan => exact List.all_eq_true.mp rfl
  | infinite negative => cases negative <;> exact List.all_eq_true.mp rfl
  | finite negative r =>
      obtain ⟨cs, x, hshows, -, htext⟩ := Number.exists_shows negative r
      rw [htext]
      intro c hc
      refine isWordChar_of_isNumeralChar ?_
      unfold Number.signed at hc
      split at hc
      · rcases List.mem_cons.mp hc with rfl | hc
        · decide
        · exact hshows.chars c hc
      · exact hshows.chars c hc

theorem lexeme_text (n : Number) : Lexeme n.text.toList := by
  refine .word (fun e => ?_) (isWordChar_text n)
  have hread := n.read?_text
  rw [e] at hread
  cases hread

/-- No form is spelled like a number. -/
theorem read?_of_ofSpelling? {l : List Char} {f : Form}
    (h : Form.ofSpelling? (String.ofList l) = some f) : Number.read? l = none := by
  have hf := List.find?_some h
  simp only [Bool.or_eq_true, beq_iff_eq] at hf
  have hread : ∀ s : String, s = String.ofList l → Number.read? s.toList = none →
      Number.read? l = none := by
    rintro s rfl hs
    rwa [String.toList_ofList] at hs
  rcases hf with e | e
  · exact hread _ e (by cases f <;> decide)
  · cases f <;> simp only [Form.alias?, Option.some.injEq, reduceCtorEq] at e
    all_goals exact hread _ e (by decide)

theorem classify?_number {l : List Char} {n : Number} (h : Number.read? l = some n) :
    Token.classify? l = some (.literal, .num n) := by
  unfold Token.classify?
  dsimp only
  split
  · rename_i f hf
    rw [read?_of_ofSpelling? hf] at h
    cases h
  · rw [h]

theorem classify?_text {l body : List Char} (h : Text.unquote? l = some body) :
    Token.classify? l = some (.literal, .text (String.ofList body)) := by
  have hq : '"' ∈ l := by
    obtain ⟨rfl, -⟩ := Text.unquote?_eq_some_iff.mp h
    simp
  unfold Token.classify?
  dsimp only
  split
  · rename_i f hf
    exact absurd hq (Form.quote_not_mem_of_ofSpelling? hf)
  · split
    · rename_i n hn
      exact absurd hq (Number.quote_not_mem_of_read? hn)
    · rw [h]

/-- A readable name is a lexeme that is classified as a name. -/
theorem readable_sym_iff {name : String} : Readable (.sym name) ↔
    Lexeme name.toList ∧ ¬ IsParen name.toList ∧
      Token.classify? name.toList = some (.identifier, .text name) := by
  constructor
  · rintro ⟨position, h⟩
    obtain ⟨⟨_ | ⟨p, ps⟩, last⟩, hc, -, hsp⟩ := lex_eq_ok_iff.mp h
    · cases hsp
    · obtain ⟨kind, value, rest, hts, hreads, -⟩ := hsp
      cases hts
      have hp := Lexeme.not_isParen_of_reads? hreads
      rcases Lexeme.reads?_cases hreads with (hk | hk) | ⟨hk, -⟩ | ⟨hk, -⟩ | ⟨-, hname, hclass⟩
      · cases hk
      · cases hk
      · cases hk
      · cases hk
      · cases hname
        rw [String.toList_ofList]
        exact ⟨hc.lexemes p (by simp), hp, hclass⟩
  · rintro ⟨hl, hp, hclass⟩
    exact ⟨.first, lex_of_lexeme hl (by rw [Lexeme.reads?_eq_classify? hp, hclass])⟩

/-- **A leaf that can be read prints.** -/
theorem prints_leaf {t : Tree} (hleaf : ∀ f as, t ≠ .app f as) (ht : Readable t) :
    Prints t.source.toList t.normal := by
  cases t with
  | app f as => exact absurd rfl (hleaf f as)
  | host h => exact absurd ht id
  | num n =>
      rw [source, normal]
      refine prints_lexeme (lexeme_text n) (not_isParen_of_forall fun c hc => ?_)
        (classify?_number n.read?_text) (denotes_literal (by simp [isOperator]))
      have := isWordChar_text n c hc
      simp only [isWordChar, Bool.and_eq_true] at this
      exact this.1.2
  | text s =>
      obtain ⟨hparen, hquote⟩ := ht
      have htext : (Tree.text s).source.toList = '"' :: (s.toList ++ ['"']) := by
        simp [source]
      have hparen' : ∀ c ∈ '"' :: (s.toList ++ ['"']), !isParen c := by
        rw [List.forall_mem_cons, List.forall_mem_append]
        exact ⟨rfl, hparen, List.all_eq_true.mp rfl⟩
      have hclass := classify?_text hquote
      rw [String.ofList_toList] at hclass
      rw [htext, normal]
      · exact prints_lexeme (.quoted hquote hparen') (not_isParen_of_forall hparen') hclass
          (denotes_literal (by simp [isOperator]))
      · simp
      · simp
  | nil =>
      exact prints_lexeme (l := ['Φ']) (.word (by simp) (List.all_eq_true.mp rfl))
        (not_isParen_of_forall (List.all_eq_true.mp rfl)) rfl (denotes_literal (by decide))
  | form f =>
      cases f <;> exact prints_lexeme (.word (by decide) (List.all_eq_true.mp rfl))
        (not_isParen_of_forall (List.all_eq_true.mp rfl)) rfl (denotes_keyword _)
  | sym name =>
      obtain ⟨hl, hp, hclass⟩ := readable_sym_iff.mp ht
      exact prints_lexeme hl hp hclass (denotes_name name)

/-- **Every tree whose leaves can be read prints its normal form.** -/
theorem prints_source {t : Tree} (ht : Leaves Readable t) : Prints t.source.toList t.normal := by
  induction t using byApp with
  | leaf t h => exact prints_leaf h ((leaves_leaf h).mp ht)
  | app f as ihf ihas =>
      obtain ⟨hf, has⟩ := leaves_app.mp ht
      exact prints_app (ihf hf) fun a ha => ihas a ha (has a ha)

/-- **What is printed parses to the normal form.** -/
theorem parse_source {t : Tree} (ht : Leaves Readable t) : parse t.source = .ok t.normal := by
  obtain ⟨ts, hts, hrun⟩ := prints_source ht [] [] trivial
  have hlex : lex t.source = ⟨ts, none⟩ := by
    rw [List.append_nil] at hrun
    have : lex t.source = (Scan.fresh (.past [])).run t.source.toList := rfl
    rw [this, hrun]
    simp [Scan.run, Scan.fresh, Scan.flush, Token.ofLexeme, Except.map, Lexed.after]
  have hread : readOne ts = ⟨.ok t.normal, []⟩ := by simpa using hts.alone []
  have hne : ts ≠ [] := by
    rintro rfl
    cases hread
  unfold parse
  rw [Lexed.result_eq_ok_iff.mpr hlex]
  show readSingle ts = _
  unfold readSingle
  rw [if_neg hne, hread]

end Tree

end Curried
