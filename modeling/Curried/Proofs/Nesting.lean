import Curried.Proofs.Acceptance
import Curried.Proofs.Printing
import Mathlib.Data.Set.List

/-!
# Proofs — the trees that are read

The tokens that the parser accepts are those of bracket trees (`Nesting`): atoms, and groups of a
first item and further items between parentheses.  The tokens determine the bracket trees
(`Nesting.flatMap_tokens_injective`), and the tree that is read follows them (`Nesting.tree`):

* an atom is its name, its literal or its form;
* a group applies its first item to the others, where a literal comes behind `ι`, and a group gives
  its own operator and operands (`Tree.regroup`).

So every application that is read has a name or a form for its operator (`Nesting.flat_tree`), and
it does not matter how operands are grouped to the left: `((f a) b)` is `(f a b)`, at any depth
(`Layer.readSingle_nest`).  Both are part of `reading_nested`.
-/

namespace Curried

/-! ### The tokens of a text -/

/-- A token as lexing makes it: a keyword is a form, a literal is a literal, and a name has a
text. -/
structure Token.Lexical (t : Token) : Prop extends t.Proper where
  keyword : t.kind = .keyword → ∃ f, t.value = .form f
  literal : t.kind = .literal → t.value.isLiteral

/-- Every token of a text is one that lexing makes. -/
theorem lexical_of_lex {source : String} {tokens : List Token}
    (h : (lex source).result = .ok tokens) : ∀ t ∈ tokens, t.Lexical := by
  intro t ht
  obtain ⟨l, -, hl⟩ := lex_tokens h t ht
  refine ⟨proper_of_lex h t ht, fun hk => ?_, fun hk => ?_⟩
  · rcases Lexeme.reads?_cases hl with (he | he) | ⟨-, hv⟩ | ⟨he, -⟩ | ⟨he, -⟩
    · cases hk.symm.trans he
    · cases hk.symm.trans he
    · exact hv
    · cases hk.symm.trans he
    · cases hk.symm.trans he
  · rcases Lexeme.reads?_cases hl with (he | he) | ⟨he, -⟩ | ⟨-, hv⟩ | ⟨he, -⟩
    · cases hk.symm.trans he
    · cases hk.symm.trans he
    · cases hk.symm.trans he
    · rcases hv with ⟨n, hv⟩ | hv | ⟨body, -, hv⟩ <;> rw [hv] <;> rfl
    · cases hk.symm.trans he

/-- The name, the literal or the form of an atom. -/
def Token.leaf (t : Token) : Tree :=
  match t.kind, t.value with
  | .identifier, .text name => .sym name
  | _, value => value

/-- The atoms that lexing makes. -/
theorem Token.Lexical.atom_cases {t : Token} (ht : t.Lexical) (h : t.IsAtom) :
    (∃ f p, t = ⟨.keyword, .form f, p⟩) ∨ (∃ x p, t = ⟨.identifier, .text x, p⟩) ∨
      ∃ v p, t = ⟨.literal, v, p⟩ ∧ v.isLiteral := by
  obtain ⟨kind, value, p⟩ := t
  cases kind with
  | keyword =>
      obtain ⟨f, rfl⟩ := ht.keyword rfl
      exact .inl ⟨f, p, rfl⟩
  | identifier =>
      obtain ⟨x, rfl⟩ := ht.name rfl
      exact .inr (.inl ⟨x, p, rfl⟩)
  | literal => exact .inr (.inr ⟨value, p, rfl, ht.literal rfl⟩)
  | opening => exact absurd rfl h.1
  | closing => exact absurd rfl h.2
  | other name => exact absurd rfl (ht.kind name)

/-- No literal can stand in operator position. -/
theorem Tree.not_isOperator_of_isLiteral {t : Tree} (h : t.isLiteral) : ¬ t.isOperator := by
  cases t with
  | num | text | nil | host => simp [isOperator]
  | sym | form | app => cases h

/-! ### Bracket trees -/

/-- An atom, or a group of at least one item between parentheses. -/
inductive Nesting where
  | atom (t : Token) (h : t.IsAtom)
  | group (o : Token) (head : Nesting) (items : List Nesting) (c : Token)
      (ho : o.kind = .opening) (hc : c.kind = .closing)

namespace Nesting

/-- Induction over atoms and groups. -/
@[elab_as_elim]
theorem byItems {P : Nesting → Prop} (atom : ∀ t h, P (.atom t h))
    (group : ∀ o head items c ho hc, P head → (∀ n ∈ items, P n) →
      P (.group o head items c ho hc)) : ∀ n, P n := by
  intro n
  refine @Nesting.rec P (fun ns => ∀ n ∈ ns, P n) atom ?_ ?_ ?_ n
  · exact fun o head items c ho hc hhead hitems => group o head items c ho hc hhead hitems
  · simp
  · exact fun n ns hn hns => List.forall_mem_cons.mpr ⟨hn, hns⟩

mutual

/-- The tokens of a bracket tree, from left to right. -/
def tokens : Nesting → List Token
  | .atom t _ => [t]
  | .group o head items c _ _ => o :: (head.tokens ++ tokensAll items ++ [c])

/-- The tokens of several bracket trees. -/
def tokensAll : List Nesting → List Token
  | [] => []
  | n :: ns => n.tokens ++ tokensAll ns

end

mutual

/-- The tree of a bracket tree. -/
def tree : Nesting → Tree
  | .atom t _ => t.leaf
  | .group _ head items _ _ _ => head.tree.regroup (trees items)

/-- The trees of several bracket trees. -/
def trees : List Nesting → List Tree
  | [] => []
  | n :: ns => n.tree :: trees ns

end

theorem tokensAll_eq_flatMap (ns : List Nesting) : tokensAll ns = ns.flatMap tokens := by
  induction ns with
  | nil => rfl
  | cons n ns ih => simp [tokensAll, ih]

theorem trees_eq_map (ns : List Nesting) : trees ns = ns.map tree := by
  induction ns with
  | nil => rfl
  | cons n ns ih => simp [trees, ih]

theorem tokens_group {o c : Token} {head : Nesting} {items : List Nesting} {ho : o.kind = .opening}
    {hc : c.kind = .closing} :
    (group o head items c ho hc).tokens = o :: ((head :: items).flatMap tokens ++ [c]) := by
  rw [tokens, tokensAll_eq_flatMap, List.flatMap_cons]

theorem tree_group {o c : Token} {head : Nesting} {items : List Nesting} {ho : o.kind = .opening}
    {hc : c.kind = .closing} :
    (group o head items c ho hc).tree = head.tree.regroup (items.map tree) := by
  rw [tree, trees_eq_map]

/-! ### Tokens determine the bracket trees -/

/-- The first token of a bracket tree is not a closing parenthesis. -/
theorem exists_cons (n : Nesting) : ∃ t ts, n.tokens = t :: ts ∧ t.kind ≠ .closing := by
  cases n with
  | atom t h => exact ⟨t, [], by rw [tokens], h.2⟩
  | group o head items c ho hc => exact ⟨o, _, tokens_group, by rw [ho]; simp⟩

/-- A bracket tree that can be told from what follows it. -/
def Delimits (n : Nesting) : Prop :=
  ∀ m us vs, n.tokens ++ us = m.tokens ++ vs → n = m ∧ us = vs

/-- Bracket trees one after the other, up to a closing parenthesis or the end. -/
theorem eq_of_flatMap_tokens {ns : List Nesting} (hns : ∀ n ∈ ns, n.Delimits) :
    ∀ {ms : List Nesting} {us vs : List Token}, (∀ t ∈ us.head?, t.kind = .closing) →
      (∀ t ∈ vs.head?, t.kind = .closing) → ns.flatMap tokens ++ us = ms.flatMap tokens ++ vs →
        ns = ms ∧ us = vs := by
  -- A list that ends earlier would have a closing parenthesis where the other has an item.
  have stops : ∀ (n : Nesting) (us vs : List Token), (∀ t ∈ us.head?, t.kind = .closing) →
      us ≠ n.tokens ++ vs := by
    rintro n us vs hus rfl
    obtain ⟨t, ts, ht, hk⟩ := n.exists_cons
    exact hk (hus t (by simp [ht]))
  induction ns with
  | nil =>
      intro ms us vs hus hvs e
      cases ms with
      | nil => exact ⟨rfl, e⟩
      | cons m ms =>
          rw [List.flatMap_cons, List.append_assoc] at e
          exact absurd e (stops m us _ hus)
  | cons n ns ih =>
      rw [List.forall_mem_cons] at hns
      intro ms us vs hus hvs e
      cases ms with
      | nil =>
          rw [List.flatMap_cons, List.append_assoc] at e
          exact absurd e.symm (stops n vs _ hvs)
      | cons m ms =>
          rw [List.flatMap_cons, List.flatMap_cons, List.append_assoc, List.append_assoc] at e
          obtain ⟨rfl, hrest⟩ := hns.1 m _ _ e
          obtain ⟨rfl, rfl⟩ := ih hns.2 hus hvs hrest
          exact ⟨rfl, rfl⟩

theorem delimits (n : Nesting) : n.Delimits := by
  induction n using byItems with
  | atom t h =>
      intro m us vs e
      cases m with
      | atom t' h' => simpa [tokens] using e
      | group o head items c ho hc =>
          simp only [tokens, List.cons_append, List.nil_append, List.cons.injEq] at e
          exact absurd ho (e.1 ▸ h.1)
  | group o head items c ho hc hhead hitems =>
      intro m us vs e
      cases m with
      | atom t h =>
          simp only [tokens, List.cons_append, List.nil_append, List.cons.injEq] at e
          exact absurd ho (e.1 ▸ h.1)
      | group o' head' items' c' ho' hc' =>
          simp only [tokens_group, List.cons_append, List.append_assoc, List.nil_append,
            List.cons.injEq] at e
          obtain ⟨rfl, e⟩ := e
          have hall : ∀ n ∈ head :: items, n.Delimits := List.forall_mem_cons.mpr ⟨hhead, hitems⟩
          obtain ⟨hns, hus⟩ := eq_of_flatMap_tokens hall (by simpa using hc) (by simpa using hc') e
          cases hns
          cases hus
          exact ⟨rfl, rfl⟩

/-- **Tokens determine their bracket trees.** -/
theorem flatMap_tokens_injective : Function.Injective (List.flatMap tokens) := by
  intro ns ms e
  have hends : ns.flatMap tokens ++ [] = ms.flatMap tokens ++ [] := by simpa using e
  exact (eq_of_flatMap_tokens (fun n _ => n.delimits) (by simp) (by simp) hends).1

/-! ### Reading bracket trees -/

/-- The tokens of the items of a group are tokens of the group. -/
theorem mem_tokens_group {o c t : Token} {head n : Nesting} {items : List Nesting}
    {ho : o.kind = .opening} {hc : c.kind = .closing} (hn : n ∈ head :: items) (ht : t ∈ n.tokens) :
    t ∈ (group o head items c ho hc).tokens := by
  rw [tokens_group]
  exact List.mem_cons_of_mem o (List.mem_append_left _ (List.mem_flatMap.mpr ⟨n, hn, ht⟩))

/-- **Every tree that is read is flat.** -/
theorem flat_tree {n : Nesting} (hn : ∀ t ∈ n.tokens, t.Lexical) : n.tree.Flat := by
  induction n using byItems with
  | atom t h =>
      have ht : t.Lexical := hn t (by simp [tokens])
      rw [tree]
      rcases ht.atom_cases h with ⟨f, p, rfl⟩ | ⟨x, p, rfl⟩ | ⟨v, p, rfl, hv⟩
      · exact Tree.nodes_leaf (by simp [Token.leaf])
      · exact Tree.nodes_leaf (by simp [Token.leaf])
      · refine Tree.nodes_leaf fun f as e => ?_
        rw [show v = .app f as from e] at hv
        cases hv
  | group o head items c ho hc hhead hitems =>
      have hmem : ∀ n ∈ head :: items, ∀ t ∈ n.tokens, t.Lexical := fun n hmem t ht =>
        hn t (mem_tokens_group hmem ht)
      rw [tree_group]
      refine Tree.flat_regroup (hhead (hmem head (by simp))) fun a ha => ?_
      obtain ⟨n, hmem', rfl⟩ := List.mem_map.mp ha
      exact hitems n hmem' (hmem n (List.mem_cons_of_mem _ hmem'))

/-- Items that denote trees are received one after the other. -/
theorem read_items {ns : List Nesting} (hns : ∀ n ∈ ns, Tree.Denotes n.tokens n.tree) (g : Group)
    (around : List Group) (more : List Token) :
    g.read around (ns.flatMap tokens ++ more) =
      ((ns.map tree).foldl Group.receive g).read around more := by
  induction ns generalizing g with
  | nil => rfl
  | cons n ns ih =>
      rw [List.forall_mem_cons] at hns
      rw [List.flatMap_cons, List.append_assoc, hns.1.inside, ih hns.2, List.map_cons,
        List.foldl_cons]

/-- **The tokens of a bracket tree are read as its tree**, wherever an expression may stand. -/
theorem denotes {n : Nesting} (hn : ∀ t ∈ n.tokens, t.Lexical) : Tree.Denotes n.tokens n.tree := by
  induction n using byItems with
  | atom t h =>
      have ht : t.Lexical := hn t (by simp [tokens])
      rw [tokens, tree]
      rcases ht.atom_cases h with ⟨f, p, rfl⟩ | ⟨x, p, rfl⟩ | ⟨v, p, rfl, hv⟩
      · exact Tree.denotes_keyword f p
      · exact Tree.denotes_name x p
      · exact Tree.denotes_literal (Tree.not_isOperator_of_isLiteral hv) p
  | group o head items c ho hc hhead hitems =>
      have hmem : ∀ n ∈ head :: items, ∀ t ∈ n.tokens, t.Lexical := fun n hmem t ht =>
        hn t (mem_tokens_group hmem ht)
      have hall : ∀ n ∈ head :: items, Tree.Denotes n.tokens n.tree :=
        List.forall_mem_cons.mpr ⟨hhead (hmem head (by simp)), fun n hn =>
          hitems n hn (hmem n (List.mem_cons_of_mem _ hn))⟩
      rw [tokens_group, tree_group]
      clear hn
      obtain ⟨_, v, p⟩ := o
      obtain ⟨_, w, q⟩ := c
      cases ho
      cases hc
      exact Tree.denotes_group (flat_tree (hmem head (by simp)))
        (fun g around more => read_items hall g around more) v w p q

/-- Bracket trees are read one after the other, and then what follows. -/
theorem readAll_append {ns : List Nesting} (hns : ∀ t ∈ ns.flatMap tokens, t.Lexical)
    (more : List Token) : Tree.readAll (ns.flatMap tokens ++ more) =
      { Tree.readAll more with trees := ns.map tree ++ (Tree.readAll more).trees } := by
  induction ns with
  | nil => rfl
  | cons n ns ih =>
      rw [List.flatMap_cons, List.forall_mem_append] at hns
      rw [List.flatMap_cons, List.append_assoc, Tree.readAll_of_ok ((denotes hns.1).alone _),
        ih hns.2]
      rfl

/-- **Bracket trees are read as their trees.** -/
theorem readAll_flatMap {ns : List Nesting} (hns : ∀ t ∈ ns.flatMap tokens, t.Lexical) :
    Tree.readAll (ns.flatMap tokens) = ⟨ns.map tree, none, []⟩ := by
  have h := readAll_append hns []
  rwa [List.append_nil, Tree.readAll_nil, List.append_nil] at h

theorem readSingle_tokens {n : Nesting} (hn : ∀ t ∈ n.tokens, t.Lexical) :
    Tree.readSingle n.tokens = .ok n.tree :=
  Tree.readSingle_eq_ok_iff.mpr (.inl (by simpa using (denotes hn).alone []))

/-! ### Bracket trees of what is accepted -/

/-- Pieces that are tokens of bracket trees. -/
theorem exists_map_tokens {ws : List (List Token)} (h : ∀ w ∈ ws, ∃ n : Nesting, n.tokens = w) :
    ∃ ns : List Nesting, ns.map tokens = ws := by
  have hmem : ws ∈ Set.range (List.map tokens) := by
    rw [Set.range_list_map]
    exact h
  exact hmem

/-- The tokens of an expression are those of a bracket tree. -/
theorem exists_of_expression {w : List Token} (h : Expression w) : ∃ n : Nesting, n.tokens = w := by
  induction h with
  | @atom t h => exact ⟨.atom t h, by rw [tokens]⟩
  | @group o c ws ho hc hne _ ih =>
      obtain ⟨ns, rfl⟩ := exists_map_tokens ih
      cases ns with
      | nil => exact absurd rfl hne
      | cons head items => exact ⟨.group o head items c ho hc, by rw [tokens_group, List.flatMap]⟩

/-- **What is accepted is the tokens of bracket trees.** -/
theorem exists_of_accepted {ts : List Token} (hts : ∀ t ∈ ts, t.Lexical)
    (h : (Tree.readAll ts).fault? = none) : ∃ ns : List Nesting, ns.flatMap tokens = ts := by
  obtain ⟨ws, hws, rfl⟩ := (fault?_readAll_eq_none_iff fun t ht => (hts t ht).toProper).mp h
  obtain ⟨ns, rfl⟩ := exists_map_tokens fun w hw => exists_of_expression (hws w hw)
  exact ⟨ns, by rw [List.flatMap]⟩

end Nesting

/-! ### Nesting to the left -/

namespace Tree

/-- What is regrouped is an application. -/
theorem exists_regroup_eq_app (f : Tree) (as : List Tree) : ∃ g bs, f.regroup as = .app g bs := by
  cases f <;> exact ⟨_, _, rfl⟩

/-- More operands come behind the others. -/
theorem regroup_append {f g : Tree} {as bs : List Tree} (h : f.regroup as = .app g bs)
    (cs : List Tree) : f.regroup (as ++ cs) = .app g (bs ++ cs) := by
  cases f <;> cases h <;> simp [regroup]

end Tree

/-- Parentheses, and the items that stand between them behind what is put inside. -/
structure Layer where
  opening : Token
  items : List Token
  closing : Token
  opens : opening.kind = .opening
  closes : closing.kind = .closing
  lexical : ∀ t ∈ opening :: (items ++ [closing]), t.Lexical

namespace Layer

/-- The tokens of `(inner items)`. -/
def around (l : Layer) (inner : List Token) : List Token :=
  l.opening :: (inner ++ l.items ++ [l.closing])

/-- Layers around layers, from the inside out: the tokens of `((… (w₁) …) wₙ)`. -/
def nest (l : Layer) (ls : List Layer) : List Token :=
  ls.foldl (fun inner m => m.around inner) (l.around [])

theorem lexical_around (l : Layer) {inner : List Token} (h : ∀ t ∈ inner, t.Lexical) :
    ∀ t ∈ l.around inner, t.Lexical := by
  have hl := l.lexical
  simp only [around, List.forall_mem_cons, List.forall_mem_append] at hl ⊢
  exact ⟨hl.1, ⟨h, hl.2.1⟩, hl.2.2⟩

theorem lexical_foldl (ls : List Layer) {inner : List Token} (h : ∀ t ∈ inner, t.Lexical) :
    ∀ t ∈ ls.foldl (fun inner m => m.around inner) inner, t.Lexical := by
  induction ls generalizing inner with
  | nil => exact h
  | cons l ls ih => exact ih (l.lexical_around h)

end Layer

namespace Nesting

/-- **Layers around a group** give it more operands. -/
theorem exists_wrapped {ls : List Layer}
    (hls : ∀ l ∈ ls, ∃ ns : List Nesting, ns.flatMap tokens = l.items) {n : Nesting} {g : Tree}
    {bs : List Tree} (hn : n.tree = .app g bs) :
    ∃ (m : Nesting) (ns : List Nesting),
      m.tokens = ls.foldl (fun inner l => l.around inner) n.tokens ∧
      ns.flatMap tokens = ls.flatMap Layer.items ∧ m.tree = .app g (bs ++ ns.map tree) := by
  induction ls generalizing n bs with
  | nil => exact ⟨n, [], rfl, rfl, by simpa using hn⟩
  | cons l ls ih =>
      rw [List.forall_mem_cons] at hls
      obtain ⟨ns, hns⟩ := hls.1
      have htokens : (group l.opening n ns l.closing l.opens l.closes).tokens = l.around n.tokens := by
        rw [tokens_group, List.flatMap_cons, hns, Layer.around]
      have htree : (group l.opening n ns l.closing l.opens l.closes).tree =
          .app g (bs ++ ns.map tree) := by
        rw [tree_group, hn, Tree.regroup]
      obtain ⟨m, ms, hm, hms, hmtree⟩ := ih hls.2 htree
      refine ⟨m, ns ++ ms, by rw [hm, htokens, List.foldl_cons], ?_, ?_⟩
      · rw [List.flatMap_append, hns, hms, List.flatMap_cons]
      · rw [hmtree, List.map_append, List.append_assoc]

/-- What stands between the parentheses of a layer that can be read by itself. -/
theorem exists_of_readSingle {l : Layer} (h : ∃ t, Tree.readSingle (l.around []) = .ok t) :
    ∃ (head : Nesting) (items : List Nesting), (head :: items).flatMap tokens = l.items := by
  have hlex : ∀ t ∈ l.around [], t.Lexical := l.lexical_around (by simp)
  obtain ⟨t, ht⟩ := h
  have hone : Tree.readOne (l.around []) = ⟨.ok t, []⟩ :=
    (Tree.readSingle_eq_ok_iff.mp ht).resolve_right fun e => List.cons_ne_nil _ _ e.1
  have hread := Tree.readAll_single hone
  obtain ⟨ns, hns⟩ := exists_of_accepted hlex (by rw [hread])
  have hlength : (ns.map tree).length = 1 := by
    rw [← hns, readAll_flatMap (hns ▸ hlex)] at hread
    simp [(Readings.mk.inj hread).1]
  obtain ⟨n, rfl⟩ := List.length_eq_one_iff.mp (by simpa using hlength)
  rw [List.flatMap_singleton] at hns
  cases n with
  | atom t h =>
      simp only [tokens, Layer.around, List.cons.injEq] at hns
      exact absurd l.opens (hns.1 ▸ h.1)
  | group o head items c ho hc =>
      rw [tokens_group, Layer.around, List.cons.injEq, List.nil_append] at hns
      exact ⟨head, items, (List.append_inj' hns.2 rfl).1⟩

end Nesting

/-- **Nesting to the left makes no difference**, at any depth. -/
theorem Layer.readSingle_nest {l joined : Layer} {ls : List Layer}
    (hjoined : joined.items = l.items ++ ls.flatMap Layer.items)
    (hl : ∃ t, Tree.readSingle (l.around []) = .ok t)
    (hls : ∀ m ∈ ls, (Tree.readAll m.items).fault? = none) :
    ∃ t, Tree.readSingle (l.nest ls) = .ok t ∧ Tree.readSingle (joined.around []) = .ok t := by
  obtain ⟨head, items, hitems⟩ := Nesting.exists_of_readSingle hl
  have hlayers : ∀ m ∈ ls, ∃ ns : List Nesting, ns.flatMap Nesting.tokens = m.items := by
    intro m hm
    refine Nesting.exists_of_accepted (fun t ht => m.lexical t ?_) (hls m hm)
    simp [ht]
  obtain ⟨g, bs, hg⟩ := Tree.exists_regroup_eq_app head.tree (items.map Nesting.tree)
  -- `(w₁)` is a group that applies `g`, and the layers around it add operands.
  obtain ⟨n, ns, htokens, hns, htree⟩ := Nesting.exists_wrapped hlayers
    (n := .group l.opening head items l.closing l.opens l.closes) (by rw [Nesting.tree_group, hg])
  have hnested : n.tokens = l.nest ls := by
    rw [htokens, Nesting.tokens_group, hitems, Layer.nest, Layer.around, List.nil_append]
  have hmore : (head :: (items ++ ns)).flatMap Nesting.tokens = joined.items := by
    rw [← List.cons_append, List.flatMap_append, hitems, hns, hjoined]
  have hflat : (Nesting.group joined.opening head (items ++ ns) joined.closing joined.opens
      joined.closes).tokens = joined.around [] := by
    rw [Nesting.tokens_group, hmore, Layer.around, List.nil_append]
  refine ⟨n.tree, ?_, ?_⟩
  · rw [← hnested]
    exact Nesting.readSingle_tokens (hnested ▸ Layer.lexical_foldl ls (l.lexical_around (by simp)))
  · rw [← hflat, Nesting.readSingle_tokens (hflat ▸ joined.lexical_around (by simp)),
      Nesting.tree_group, List.map_append, Tree.regroup_append hg, htree]

/-- **What is read follows the brackets.**  Accepted tokens are those of one list of bracket trees,
and their trees are what is read; in these every application has a name or a form for its operator.
Further, parentheses around the first items of a group make no difference, however often they are
nested: if `(w₁)` is an expression and `w₂`, …, `wₙ` are made of expressions, then
`((… ((w₁) w₂) …) wₙ)` is read, and as the same tree as `(w₁ w₂ … wₙ)`. -/
theorem reading_nested :
    (∀ ts : List Token, (∀ t ∈ ts, t.Lexical) → (Tree.readAll ts).fault? = none →
      (∃ ns : List Nesting, ns.flatMap Nesting.tokens = ts ∧
        (∀ ms : List Nesting, ms.flatMap Nesting.tokens = ts → ms = ns) ∧
        (Tree.readAll ts).trees = ns.map Nesting.tree) ∧
      ∀ t ∈ (Tree.readAll ts).trees, t.Flat) ∧
    ∀ (l : Layer) (ls : List Layer) (joined : Layer),
      joined.items = l.items ++ ls.flatMap Layer.items →
      (∃ t, Tree.readSingle (l.around []) = .ok t) →
      (∀ m ∈ ls, (Tree.readAll m.items).fault? = none) →
      ∃ t, Tree.readSingle (l.nest ls) = .ok t ∧ Tree.readSingle (joined.around []) = .ok t := by
  refine ⟨fun ts hts haccepted => ?_, fun l ls joined hjoined hl hls =>
    Layer.readSingle_nest hjoined hl hls⟩
  obtain ⟨ns, rfl⟩ := Nesting.exists_of_accepted hts haccepted
  have htrees : (Tree.readAll (ns.flatMap Nesting.tokens)).trees = ns.map Nesting.tree := by
    rw [Nesting.readAll_flatMap hts]
  refine ⟨⟨ns, rfl, fun ms e => Nesting.flatMap_tokens_injective e, htrees⟩, fun t ht => ?_⟩
  rw [htrees] at ht
  obtain ⟨n, hn, rfl⟩ := List.mem_map.mp ht
  exact Nesting.flat_tree fun t ht => hts t (List.mem_flatMap.mpr ⟨n, hn, ht⟩)

/-- The inner parentheses of `(("a" f) Φ)`, with the literal that gets `ι` in front. -/
def Layer.literal : Layer where
  opening := ⟨.opening, .text "(", ⟨1, 2⟩⟩
  items := [⟨.literal, .text "a", ⟨1, 3⟩⟩, ⟨.identifier, .text "f", ⟨1, 7⟩⟩]
  closing := ⟨.closing, .text ")", ⟨1, 8⟩⟩
  opens := rfl
  closes := rfl
  lexical := @lexical_of_lex " (\"a\" f)" _ rfl

/-- The outer parentheses of `(("a" f) Φ)`. -/
def Layer.outer : Layer where
  opening := ⟨.opening, .text "(", ⟨1, 1⟩⟩
  items := [⟨.literal, .nil, ⟨1, 10⟩⟩]
  closing := ⟨.closing, .text ")", ⟨1, 11⟩⟩
  opens := rfl
  closes := rfl
  lexical := @lexical_of_lex "(        Φ)" _ rfl

/-- The parentheses of `("a" f Φ)`. -/
def Layer.joined : Layer where
  opening := ⟨.opening, .text "(", ⟨1, 1⟩⟩
  items := literal.items ++ outer.items
  closing := ⟨.closing, .text ")", ⟨1, 11⟩⟩
  opens := rfl
  closes := rfl
  lexical := @lexical_of_lex "( \"a\" f  Φ)" _ rfl

/-- `(("a" f) Φ)` and `("a" f Φ)` are both `(ι "a" f Φ)`. -/
theorem reading_nested_literal :
    (lex "((\"a\" f) Φ)").result = .ok (Layer.literal.nest [.outer]) ∧
      (∃ ns : List Nesting, ns.flatMap Nesting.tokens = Layer.literal.nest [.outer] ∧
        ns.map Nesting.tree = [.app (.form .iota) [.text "a", .sym "f", .nil]]) ∧
      ∃ t, Tree.readSingle (Layer.literal.nest [.outer]) = .ok t ∧
        Tree.readSingle (Layer.joined.around []) = .ok t := by
  have hlex : (lex "((\"a\" f) Φ)").result = .ok (Layer.literal.nest [.outer]) := rfl
  have hread : Tree.readAll (Layer.literal.nest [.outer]) =
      ⟨[.app (.form .iota) [.text "a", .sym "f", .nil]], none, []⟩ := Tree.readAll_single rfl
  have houter : Tree.readAll Layer.outer.items = ⟨[.nil], none, []⟩ := Tree.readAll_single rfl
  obtain ⟨hbrackets, hnested⟩ := reading_nested
  obtain ⟨⟨ns, htokens, -, htrees⟩, -⟩ := hbrackets _ (lexical_of_lex hlex) (by rw [hread])
  refine ⟨hlex, ⟨ns, htokens, ?_⟩, ?_⟩
  · rw [← htrees, hread]
  · exact hnested .literal [.outer] .joined rfl ⟨_, rfl⟩ (by simp [houter])

end Curried
