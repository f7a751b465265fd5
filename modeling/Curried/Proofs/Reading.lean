import Curried.Proofs.Lexing
import Curried.Proofs.Shape
import Curried.Tree.Parser

/-!
# Proofs — what reading can produce

The parser builds a tree from the trees of tokens in one way only: it applies an operator to
operands, with splicing.  `Grammar O G` says that the trees `G`, with the operators `O` among them,
are closed under that.  Then tokens that fit (`Token.Fits`) are read into `G` trees only:
`Tree.readOne`, `Tree.readAll` and `Tree.readSingle` each have their lemma here.

Two instances: every application that is read has a name or a form for its operator
(`Tree.Flat`), and the leaves of what is read are the trees of tokens (`Tree.Leaves`).
-/

namespace Curried

/-- The trees `G` and the operators `O` among them are closed under application. -/
structure Grammar (O G : Tree → Prop) : Prop where
  tree : ∀ {t}, O t → G t
  iota : O (.form .iota)
  applied : ∀ {f as}, O f → (∀ a ∈ as, G a) → O (f.apply as)

/-- The tree of a token is a `G`, and an `O` where it can be an operator. -/
def Token.Fits (O G : Tree → Prop) (t : Token) : Prop :=
  match t.kind with
  | .keyword => O t.value
  | .literal => G t.value
  | .identifier => ∀ name, t.value = .text name → O (.sym name)
  | .opening | .closing | .other _ => True

/-- What has been read of a group is made of `G` trees. -/
structure Group.Fits (O G : Tree → Prop) (g : Group) : Prop where
  operator : ∀ o, g.operator? = some o → O o
  operands : ∀ a ∈ g.operands, G a

section

variable {O G : Tree → Prop} (gr : Grammar O G)

theorem Group.fits_start (t : Token) : (Group.start t).Fits O G := ⟨by simp [start], by simp [start]⟩

theorem Token.atom_fits {t : Token} (ht : t.Fits O G) (hk : t.kind = .identifier) {tree : Tree}
    (h : t.atom = .ok tree) : O tree := by
  unfold Token.Fits at ht
  unfold Token.atom at h
  rw [hk] at ht
  split at h
  · rename_i name _ hv
    cases h
    exact ht name hv
  · cases h
  · rename_i hni _
    exact absurd hk hni

include gr

namespace Group

theorem Fits.add {g : Group} (hg : g.Fits O G) {t : Tree} (ht : O t) : (g.add t).Fits O G := by
  unfold Group.add
  split
  · exact ⟨fun o ho => by cases ho; exact ht, hg.operands⟩
  · exact ⟨hg.operator, List.forall_mem_cons.mpr ⟨gr.tree ht, hg.operands⟩⟩

theorem Fits.addLiteral {g : Group} (hg : g.Fits O G) {t : Tree} (ht : G t) :
    (g.addLiteral t).Fits O G := by
  unfold Group.addLiteral
  split
  · exact ⟨fun o ho => by cases ho; exact gr.iota, by simpa using ht⟩
  · exact ⟨hg.operator, List.forall_mem_cons.mpr ⟨ht, hg.operands⟩⟩

theorem Fits.close {g : Group} (hg : g.Fits O G) {o : Tree} (ho : O o) : O (g.close o) :=
  gr.applied ho fun a ha => hg.operands a (List.mem_reverse.mp ha)

/-- **Reading inside groups** keeps them made of `G` trees, and the group it yields has an
operator. -/
theorem Fits.read {g : Group} {around : List Group} {ts : List Token} {g' : Group}
    (hg : g.Fits O G) (ha : ∀ h ∈ around, h.Fits O G) (ht : ∀ t ∈ ts, t.Fits O G)
    (h : (g.read around ts).result = .ok g') : g'.Fits O G ∧ ∃ o, g'.operator? = some o := by
  induction ts generalizing g around with
  | nil => cases h
  | cons t ts ih =>
      rw [List.forall_mem_cons] at ht
      have hfit := ht.1
      unfold Token.Fits at hfit
      unfold Group.read at h
      split at h
      · rename_i hk
        rw [hk] at hfit
        exact ih (hg.add gr hfit) ha ht.2 h
      · rename_i hk
        rw [hk] at hfit
        exact ih (hg.addLiteral gr hfit) ha ht.2 h
      · rename_i hk
        split at h
        · rename_i tree hatom
          exact ih (hg.add gr (Token.atom_fits ht.1 hk hatom)) ha ht.2 h
        · cases h
      · exact ih (fits_start t) (List.forall_mem_cons.mpr ⟨hg, ha⟩) ht.2 h
      · split at h
        · cases h
        · rename_i o ho
          -- A closed group is the result, or an operand of the group around it.
          split at h
          · cases h
            exact ⟨hg, o, ho⟩
          · rw [List.forall_mem_cons] at ha
            exact ih (ha.1.add gr (hg.close gr (hg.operator o ho))) ha.2 ht.2 h
      · cases h

end Group

end

/-! ### What is left of the tokens -/

theorem Group.rest_read_suffix (g : Group) (around : List Group) (ts : List Token) :
    (g.read around ts).rest <:+ ts := by
  induction ts generalizing g around with
  | nil => simp [Group.read]
  | cons t ts ih =>
      have step : ∀ g around, (Group.read g around ts).rest <:+ t :: ts :=
        fun g around => (ih g around).trans (List.suffix_cons t ts)
      have tail : ts <:+ t :: ts := List.suffix_cons t ts
      unfold Group.read
      split
      · exact step _ _
      · exact step _ _
      · split
        · exact step _ _
        · exact tail
      · exact step _ _
      · split
        · exact tail
        · split
          · exact tail
          · exact step _ _
      · exact List.suffix_rfl

namespace Tree

theorem rest_readOne_suffix (ts : List Token) : (readOne ts).rest <:+ ts := by
  cases ts with
  | nil => simp [readOne]
  | cons t ts =>
      have tail : ts <:+ t :: ts := List.suffix_cons t ts
      rw [readOne]
      split
      · exact tail
      · exact tail
      · exact tail
      · exact (Group.rest_read_suffix _ _ _).trans tail
      · exact List.suffix_rfl
      · exact List.suffix_rfl

theorem readAll_nil : readAll [] = ⟨[], none, []⟩ := by rw [readAll, if_pos rfl]

/-- An expression that can be read, and then what the rest holds. -/
theorem readAll_of_ok {ts rest : List Token} {t : Tree} (h : readOne ts = ⟨.ok t, rest⟩) :
    readAll ts = { readAll rest with trees := t :: (readAll rest).trees } := by
  have hne : ts ≠ [] := by
    rintro rfl
    cases h
  have hrest : (readOne ts).rest = rest := by rw [h]
  rw [readAll, if_neg hne]
  split
  · rename_i f hf
    rw [h] at hf
    cases hf
  · rename_i tree hf
    rw [h] at hf
    cases hf
    dsimp only
    rw [hrest]

/-- An expression that cannot be read stops reading. -/
theorem readAll_of_error {ts rest : List Token} {f : Fault} (hne : ts ≠ [])
    (h : readOne ts = ⟨.error f, rest⟩) : readAll ts = ⟨[], some f, rest⟩ := by
  have hrest : (readOne ts).rest = rest := by rw [h]
  rw [readAll, if_neg hne]
  split
  · rename_i f' hf
    rw [h] at hf
    cases hf
    rw [hrest]
  · rename_i tree hf
    rw [h] at hf
    cases hf

/-- One expression, and nothing after it. -/
theorem readAll_single {ts : List Token} {t : Tree} (h : readOne ts = ⟨.ok t, []⟩) :
    readAll ts = ⟨[t], none, []⟩ := by
  rw [readAll_of_ok h, readAll_nil]

theorem readAll_single_iff {ts : List Token} {t : Tree} :
    (readAll ts).trees = [t] ∧ (readAll ts).fault? = none ↔ readOne ts = ⟨.ok t, []⟩ := by
  refine ⟨fun h => ?_, fun h => by simp [readAll_single h]⟩
  obtain rfl | hne := eq_or_ne ts []
  · simp [readAll_nil] at h
  rcases hone : readOne ts with ⟨f | t', rest⟩
  · simp [readAll_of_error hne hone] at h
  · rw [readAll_of_ok hone] at h
    obtain rfl | hrest := eq_or_ne rest []
    · simpa [readAll_nil] using h
    · -- What is left holds another expression, or a fault.
      rcases hmore : readOne rest with ⟨f | u, more⟩
      · simp [readAll_of_error hrest hmore] at h
      · simp [readAll_of_ok hmore] at h

/-- A single expression is all that is read, or there are no tokens. -/
theorem readSingle_eq_ok_iff {ts : List Token} {t : Tree} :
    readSingle ts = .ok t ↔ readOne ts = ⟨.ok t, []⟩ ∨ (ts = [] ∧ t = .nil) := by
  by_cases hne : ts = []
  · subst hne
    simp [readSingle, readOne, eq_comm]
  · rw [readSingle, if_neg hne]
    rcases hone : readOne ts with ⟨result, rest⟩
    cases result with
    | error f => simp [hne]
    | ok tree =>
        cases rest with
        | nil => simp [hne]
        | cons u us => simp [hne]

variable {O G : Tree → Prop} (gr : Grammar O G)
include gr

theorem fits_readOne {ts : List Token} (ht : ∀ t ∈ ts, t.Fits O G) {tree : Tree}
    (h : (readOne ts).result = .ok tree) : G tree := by
  cases ts with
  | nil => cases h
  | cons t ts =>
      rw [List.forall_mem_cons] at ht
      have hfit := ht.1
      unfold Token.Fits at hfit
      rw [readOne] at h
      split at h
      · rename_i hk
        rw [hk] at hfit
        simp only [Token.atom, hk, Except.ok.injEq] at h
        exact h ▸ gr.tree hfit
      · rename_i hk
        rw [hk] at hfit
        simp only [Token.atom, hk, Except.ok.injEq] at h
        exact h ▸ hfit
      · rename_i hk
        exact gr.tree (Token.atom_fits ht.1 hk h)
      · simp only [readGroup, Reading.map] at h
        cases hr : (Group.read (Group.start t) [] ts).result with
        | error f => rw [hr] at h; cases h
        | ok g =>
            rw [hr] at h
            cases h
            obtain ⟨hg, o, ho⟩ := (Group.fits_start t).read gr (by simp) ht.2 hr
            rw [Group.tree, ho]
            exact gr.tree (hg.close gr (hg.operator o ho))
      · cases h
      · cases h

theorem fits_readSingle {ts : List Token} (ht : ∀ t ∈ ts, t.Fits O G) (hnil : G .nil) {tree : Tree}
    (h : readSingle ts = .ok tree) : G tree := by
  unfold readSingle at h
  split at h
  · cases h; exact hnil
  · split at h
    · cases h
    · rename_i hr
      cases h
      exact fits_readOne gr ht (by rw [hr])
    · cases h

theorem fits_readAll {ts : List Token} (ht : ∀ t ∈ ts, t.Fits O G) :
    ∀ tree ∈ (readAll ts).trees, G tree := by
  fun_induction readAll ts with
  | case1 => simp
  | case2 ts _ f hf => simp
  | case3 ts _ tree hr hlt others ih =>
      refine List.forall_mem_cons.mpr ⟨fits_readOne gr ht hr, ih fun t h => ?_⟩
      exact ht t ((rest_readOne_suffix ts).subset h)

end Tree

/-! ### The tokens of a text -/

/-- The kinds and values of lexemes. -/
theorem Lexeme.reads?_cases {l : List Char} {kind : Kind} {value : Tree}
    (h : Lexeme.reads? l = some (kind, value)) :
    (kind = .opening ∨ kind = .closing) ∨ (kind = .keyword ∧ ∃ f, value = .form f) ∨
      (kind = .literal ∧ ((∃ n, value = .num n) ∨ value = .nil ∨
        ∃ body, Text.unquote? l = some body ∧ value = .text (String.ofList body))) ∨
      (kind = .identifier ∧ value = .text (String.ofList l) ∧
        Token.classify? l = some (kind, value)) := by
  unfold Lexeme.reads? at h
  split at h
  · cases h; exact .inl (.inl rfl)
  · split at h
    · cases h; exact .inl (.inr rfl)
    · right
      have hc := h
      simp only [Token.classify?] at h
      split at h
      · cases h; exact .inl ⟨rfl, _, rfl⟩
      · right
        split at h
        · cases h; exact .inl ⟨rfl, .inl ⟨_, rfl⟩⟩
        · split at h
          · rename_i body hbody
            cases h; exact .inl ⟨rfl, .inr (.inr ⟨body, hbody, rfl⟩)⟩
          · split at h
            · cases h; exact .inl ⟨rfl, .inr (.inl rfl)⟩
            · split at h
              · cases h
              · cases h; exact .inr ⟨rfl, rfl, hc⟩

theorem Spells.exists_lexeme {before : List Char} {ps : List Piece} {ts : List Token}
    (h : Spells before ps ts) (hps : ∀ p ∈ ps, Lexeme p.lexeme) :
    ∀ t ∈ ts, ∃ l, Lexeme l ∧ Lexeme.reads? l = some (t.kind, t.value) := by
  induction ps generalizing before ts with
  | nil => rw [h]; simp
  | cons p ps ih =>
      rw [List.forall_mem_cons] at hps
      obtain ⟨kind, value, rest, rfl, hr, hs⟩ := h
      exact List.forall_mem_cons.mpr ⟨⟨p.lexeme, hps.1, hr⟩, ih hs hps.2⟩

/-- Every token of a text is that of a lexeme. -/
theorem lex_tokens {source : String} {tokens : List Token} (h : (lex source).result = .ok tokens) :
    ∀ t ∈ tokens, ∃ l, Lexeme l ∧ Lexeme.reads? l = some (t.kind, t.value) := by
  obtain ⟨c, hc, -, hsp⟩ := lex_eq_ok_iff.mp h
  exact hsp.exists_lexeme hc.lexemes

namespace Tree

/-- Every application has a name or a form for its operator. -/
def Flat : Tree → Prop := Nodes fun f _ => (∃ x, f = .sym x) ∨ ∃ g, f = .form g

/-- A tree that stands in operator position: a name, a form or an application. -/
def isOperator : Tree → Bool
  | .sym _ | .form _ | .app _ _ => true
  | _ => false

theorem flat_apply {f : Tree} {as : List Tree} (hf : Flat f) (ho : f.isOperator)
    (has : ∀ a ∈ as, Flat a) : Flat (f.apply as) ∧ (f.apply as).isOperator := by
  have single : ∀ {g : Tree} {bs : List Tree}, ((∃ x, g = .sym x) ∨ ∃ h, g = .form h) →
      (∀ b ∈ bs, Flat b) → Flat (g.apply bs) ∧ (g.apply bs).isOperator := by
    rintro g bs (⟨x, rfl⟩ | ⟨h, rfl⟩) hbs
    · exact ⟨nodes_app.mpr ⟨.inl ⟨x, rfl⟩, nodes_leaf (by simp), hbs⟩, rfl⟩
    · exact ⟨nodes_app.mpr ⟨.inr ⟨h, rfl⟩, nodes_leaf (by simp), hbs⟩, rfl⟩
  cases f with
  | sym x => exact single (.inl ⟨x, rfl⟩) has
  | form g => exact single (.inr ⟨g, rfl⟩) has
  | app g bs =>
      obtain ⟨hg, -, hbs⟩ := nodes_app.mp hf
      rw [apply]
      exact single hg fun a ha => (List.mem_append.mp ha).elim (hbs a) (has a)
  | num | text | nil | host => cases ho

theorem grammar_flat : Grammar (fun t => Flat t ∧ t.isOperator) Flat where
  tree h := h.1
  iota := ⟨nodes_leaf (by simp), rfl⟩
  applied hf has := flat_apply hf.1 hf.2 has

theorem fits_flat {source : String} {tokens : List Token} (h : (lex source).result = .ok tokens) :
    ∀ t ∈ tokens, t.Fits (fun t => Flat t ∧ t.isOperator) Flat := by
  intro t ht
  obtain ⟨l, -, hl⟩ := lex_tokens h t ht
  unfold Token.Fits
  rcases Lexeme.reads?_cases hl with (hk | hk) | ⟨hk, f, hf⟩ | ⟨hk, hv⟩ | ⟨hk, -⟩
  · rw [hk]; trivial
  · rw [hk]; trivial
  · rw [hk, hf]; exact ⟨nodes_leaf (by simp), rfl⟩
  · rw [hk]
    rcases hv with ⟨n, hv⟩ | hv | ⟨body, -, hv⟩ <;> rw [hv] <;> exact nodes_leaf (by simp)
  · rw [hk]
    exact fun name _ => ⟨nodes_leaf (by simp), rfl⟩

/-- The two steps of parsing. -/
theorem parse_eq_ok {source : String} {t : Tree} (h : parse source = .ok t) :
    ∃ tokens, (lex source).result = .ok tokens ∧ readSingle tokens = .ok t := by
  unfold parse at h
  cases hl : (lex source).result with
  | error f => rw [hl] at h; cases h
  | ok tokens => rw [hl] at h; exact ⟨tokens, rfl, h⟩

/-- **What is parsed is flat**: no operator is a literal or an application. -/
theorem flat_of_parse {source : String} {t : Tree} (h : parse source = .ok t) : Flat t := by
  obtain ⟨tokens, hl, hr⟩ := parse_eq_ok h
  exact fits_readSingle grammar_flat (fits_flat hl) (nodes_leaf (by simp)) hr

end Tree

end Curried
