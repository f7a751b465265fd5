import Curried.Proofs.Invariant
import Curried.Proofs.Printing
import Curried.Session

/-!
# Proofs — printing and reading

`printing_then_reading` joins the law of printing with where it applies:

* a tree whose leaves can be read prints to a text that parses to its normal form;
* every tree that is parsed has such leaves, and is its own normal form except that a zero loses
  its sign, so after the first reading neither printing nor reading changes anything else;
* every value of a source text has such leaves.

The leaves of what is read are the trees of tokens (`Tree.readable_of_parse`), and evaluation only
moves leaves around (`Tree.invariant_leaves`).
-/

namespace Curried

namespace Tree

/-! ### Signs of zeros -/

mutual

/-- A tree with no sign on a zero. -/
def unsigned : Tree → Tree
  | .num n => .num n.unsigned
  | .app f as => .app f.unsigned (unsignedAll as)
  | t => t

/-- Several trees with no sign on a zero. -/
def unsignedAll : List Tree → List Tree
  | [] => []
  | t :: ts => t.unsigned :: unsignedAll ts

end

theorem unsignedAll_eq_map (ts : List Tree) : unsignedAll ts = ts.map unsigned := by
  induction ts with
  | nil => rfl
  | cons t ts ih => simp [unsignedAll, ih]

theorem unsigned_eq_normal {t : Tree} (h : ∀ f as, t ≠ .app f as) : t.normal = t.unsigned := by
  cases t with
  | app f as => exact absurd rfl (h f as)
  | num | text | nil | sym | form | host => simp [normal, unsigned]

/-- **The normal form of a flat tree** differs from it in the signs of zeros only. -/
theorem normal_of_flat {t : Tree} (ht : Flat t) : t.normal = t.unsigned := by
  induction t using byApp with
  | leaf t h => exact unsigned_eq_normal h
  | app f as _ ihas =>
      obtain ⟨hf, -, has⟩ := nodes_app.mp ht
      have hmap : normals as = unsignedAll as := by
        rw [normals_eq_map, unsignedAll_eq_map]
        exact List.map_congr_left fun a ha => ihas a ha (has a ha)
      rcases hf with ⟨x, rfl⟩ | ⟨g, rfl⟩ <;> simp [normal, unsigned, regroup, hmap]

/-- The text of a number does not show the sign of a zero. -/
theorem text_unsigned (n : Number) : n.unsigned.text = n.text := by
  cases n with
  | nan => rfl
  | infinite negative => rfl
  | finite negative r =>
      by_cases hr : r.val = 0
      · simp [Number.unsigned, Number.text, hr, Number.units_zero]
      · have hne : (r.val != 0) = true := bne_iff_ne.mpr hr
        rw [Number.unsigned, hne, Bool.and_true]

/-- **A tree prints the same without the signs of its zeros.** -/
theorem source_unsigned (t : Tree) : t.unsigned.source = t.source := by
  induction t using byApp with
  | leaf t h =>
      cases t with
      | app f as => exact absurd rfl (h f as)
      | num n => simp [unsigned, source, text_unsigned]
      | text | nil | sym | form | host => simp [unsigned]
  | app f as ihf ihas =>
      have hmap : (unsignedAll as).map source = as.map source := by
        rw [unsignedAll_eq_map, List.map_map]
        exact List.map_congr_left ihas
      rw [unsigned, source, source, sources_eq_map, sources_eq_map, ihf, hmap]

/-! ### The leaves of what is read -/

variable {L : Tree → Prop}

theorem grammar_leaves (hL : L (.form .iota)) : Grammar (Leaves L) (Leaves L) where
  tree h := h
  iota := (leaves_leaf (by simp)).mpr hL
  applied := leaves_apply

/-- The interior of a literal can be read. -/
theorem readable_text {l body : List Char} (hl : Lexeme l) (h : Text.unquote? l = some body) :
    Readable (.text (String.ofList body)) := by
  obtain ⟨rfl, -⟩ := Text.unquote?_eq_some_iff.mp h
  refine ⟨fun c hc => ?_, by rw [String.toList_ofList]; exact h⟩
  rw [String.toList_ofList] at hc
  generalize hlit : '"' :: (body ++ ['"']) = l at hl
  cases hl with
  | paren hp => cases body <;> simp at hlit
  | word _ hw => exact absurd (hw '"' (by simp [← hlit])) (by decide)
  | quoted _ hp => exact hp c (by simp [← hlit, hc])

/-- The tokens of a text have trees whose leaves can be read. -/
theorem fits_readable {source : String} {tokens : List Token}
    (h : (lex source).result = .ok tokens) :
    ∀ t ∈ tokens, t.Fits (Leaves Readable) (Leaves Readable) := by
  intro t ht
  obtain ⟨l, hlex, hl⟩ := lex_tokens h t ht
  unfold Token.Fits
  rcases Lexeme.reads?_cases hl with (hk | hk) | ⟨hk, f, hf⟩ | ⟨hk, hv⟩ | ⟨hk, hv, hclass⟩
  · rw [hk]; trivial
  · rw [hk]; trivial
  · rw [hk, hf]
    exact (leaves_leaf (by simp)).mpr trivial
  · rw [hk]
    rcases hv with ⟨n, hv⟩ | hv | ⟨body, hbody, hv⟩
    · rw [hv]
      exact (leaves_leaf (by simp)).mpr trivial
    · rw [hv]
      exact (leaves_leaf (by simp)).mpr trivial
    · rw [hv]
      exact (leaves_leaf (by simp)).mpr (readable_text hlex hbody)
  · rw [hk]
    intro name hname
    rw [hv] at hname
    cases hname
    refine (leaves_leaf (by simp)).mpr (readable_sym_iff.mpr ?_)
    rw [String.toList_ofList]
    rw [hk, hv] at hl hclass
    exact ⟨hlex, Lexeme.not_isParen_of_reads? hl, hclass⟩

/-- **The leaves of a parsed tree can be read.** -/
theorem readable_of_parse {source : String} {t : Tree} (h : parse source = .ok t) :
    Leaves Readable t := by
  obtain ⟨tokens, hl, hr⟩ := parse_eq_ok h
  exact fits_readSingle (grammar_leaves trivial) (fits_readable hl)
    ((leaves_leaf (by simp)).mpr trivial) hr

/-! ### The leaves of values -/

/-- **Evaluation only moves leaves around**, apart from nil, `ι` and `_`, which it makes itself. -/
theorem invariant_leaves (hnil : L .nil) (hiota : L (.form .iota)) (hignore : L (.form .ignore)) :
    Invariant (fun s t => s.Keeps (Leaves L) ∧ Leaves L t) (Leaves L) where
  tree hu ht := ⟨hu.1, ht⟩
  bound h hv := ⟨h.1, h.1 _ _ h.2 hv⟩
  leaf h _ _ _ _ := h.2
  nil := (leaves_leaf (by simp)).mpr hnil
  ignore _ := (leaves_leaf (by simp)).mpr hignore
  iota := leaves_app.mpr ⟨(leaves_leaf (by simp)).mpr hiota, by simp⟩
  function h := h.2
  operator h _ := ⟨h.1, (leaves_app.mp h.2).1⟩
  operand h _ _ ha := ⟨h.1, (leaves_app.mp h.2).2 _ ha⟩
  definedName h _ := ⟨h.1, (leaves_app.mp h.2).2 _ (by simp)⟩
  definedValue h := ⟨h.1, (leaves_app.mp h.2).2 _ (by simp)⟩
  definedBody h hw := ⟨h.1.scope _ hw, leaves_substitute hw ((leaves_app.mp h.2).2 _ (by simp))⟩
  definedCall h _ hw := by
    have has := (leaves_app.mp h.2).2
    refine ⟨h.1.merge _ hw, leaves_app.mpr ⟨leaves_substitute hw (has _ (by simp)), fun a ha => ?_⟩⟩
    rw [substituteAll_eq_map] at ha
    obtain ⟨b, hb, rfl⟩ := List.mem_map.mp ha
    exact leaves_substitute hw (has b (by simp [hb]))
  argument h ha := ⟨h.1, (leaves_app.mp h.2).2 _ (by simp [ha])⟩
  parameter h _ := ⟨h.1, (leaves_app.mp h.2).2 _ (by simp)⟩
  boundBody h hw := ⟨h.1.scope _ hw, leaves_substitute hw ((leaves_app.mp h.2).2 _ (by simp))⟩
  plainBody h _ := ⟨h.1, (leaves_app.mp h.2).2 _ (by simp)⟩
  applied hu hv has := ⟨hu.1, leaves_app.mpr ⟨hv, fun a ha => (has a ha).2⟩⟩
  rebuilt := by
    intro s u v as hu hv has
    refine ⟨hu.1, ?_⟩
    unfold Evaluation.rebuild
    split
    · obtain ⟨hf, hbs⟩ := leaves_app.mp hv
      exact leaves_app.mpr ⟨hf, fun a ha => (List.mem_append.mp ha).elim (hbs a)
        fun ha => (has a ha).2⟩
    · exact leaves_app.mpr ⟨hv, fun a ha => (has a ha).2⟩
  spliced h := ⟨h.1, leaves_apply (leaves_app.mp h.2).1 (leaves_app.mp h.2).2⟩

end Tree

/-- Going on to a value takes a value. -/
theorem Run.andThen_eq_value {r : Run} {next : Stack → Tree → Run} {w : Tree}
    (h : (r.andThen next).outcome = .value w) :
    ∃ v, r.outcome = .value v ∧ (next r.stack v).outcome = .value w := by
  obtain ⟨outcome, stack, log⟩ := r
  cases outcome with
  | value v => exact ⟨v, rfl, h⟩
  | fault f => cases h
  | tooDeep => cases h

namespace Session

variable {G : Stack → Tree → Prop} {V : Tree → Prop}

theorem evalTree_value (inv : Invariant G V) {limit : Nat} {stack : Stack} {t v : Tree}
    (ht : G stack t) (h : (evalTree limit stack t).outcome = .value v) : V v := by
  obtain ⟨w, hw, hv⟩ := Run.andThen_eq_value h
  cases hv
  exact inv.value ht hw

theorem stack_evalTree (limit : Nat) (stack : Stack) (t : Tree) :
    (evalTree limit stack t).stack = stack :=
  Run.stack_andThen (restores_evaluate limit stack t) fun _ => rfl

/-- The value of the last expression, or the value there was before. -/
theorem evalAll_value (inv : Invariant G V) {limit : Nat} {stack : Stack} {last v : Tree}
    {trees : List Tree} (hlast : V last) (ht : ∀ t ∈ trees, G stack t)
    (h : (evalAll limit stack last trees).outcome = .value v) : V v := by
  induction trees generalizing last with
  | nil => cases h; exact hlast
  | cons t trees ih =>
      rw [List.forall_mem_cons] at ht
      obtain ⟨w, hw, hv⟩ := Run.andThen_eq_value h
      rw [Run.stack_noting, stack_evalTree] at hv
      exact ih (evalTree_value inv ht.1 hw) ht.2 hv

/-- **The value of a source text** is made of the leaves of the text. -/
theorem readable_of_eval {limit : Nat} {stack : Stack} {source : String} {v : Tree}
    (hs : stack.Keeps (Tree.Leaves Tree.Readable))
    (h : (eval limit stack source).outcome = .value v) : Tree.Leaves Tree.Readable v := by
  unfold eval at h
  split at h
  · cases h
  · rename_i tokens hl
    obtain ⟨w, hw, hv⟩ := Run.andThen_eq_value h
    have inv := Tree.invariant_leaves (L := Tree.Readable) trivial trivial trivial
    have hread := Tree.fits_readAll (Tree.grammar_leaves trivial) (Tree.fits_readable hl)
    have := evalAll_value inv inv.nil (fun t ht => ⟨hs, hread t ht⟩) hw
    split at hv
    · cases hv
    · cases hv
      exact this

/-- A text that parses as one expression is evaluated like the expression. -/
theorem eval_of_parse {limit : Nat} {stack : Stack} {source : String} {t : Tree}
    (h : Tree.parse source = .ok t) :
    (eval (limit + 1) stack source).outcome = (evaluate (limit + 1) stack t).outcome := by
  obtain ⟨tokens, hl, hr⟩ := Tree.parse_eq_ok h
  unfold eval
  rw [hl]
  unfold Tree.readSingle at hr
  split at hr
  · rename_i hempty
    cases hr
    subst hempty
    simp only [Tree.readAll_nil]
    rfl
  · split at hr
    · cases hr
    · rename_i hone
      cases hr
      simp only [Tree.readAll_single hone, evalAll, evalTree, Run.noting, Run.andThen, Run.value]
      cases hv : (evaluate (limit + 1) stack t).outcome <;> simp [hv]
    · cases hr

end Session

/-- **Printing, then reading.**  A tree whose leaves can be read prints to a text that parses to its
normal form.  Every parsed tree has such leaves; its normal form differs from it in the signs of
zeros only, which printing does not show, so printing what was read once more gives the same text.
And every value of a source text has such leaves, on every stack that binds readable values to
readable names, and so on the empty one. -/
theorem printing_then_reading :
    (∀ e, Tree.Leaves Tree.Readable e → Tree.parse e.source = .ok e.normal) ∧
    (∀ source e, Tree.parse source = .ok e →
      Tree.Leaves Tree.Readable e ∧ e.normal = e.unsigned ∧
        Tree.parse e.source = .ok e.unsigned ∧ e.unsigned.source = e.source) ∧
    (∀ limit stack source v, Stack.Keeps (Tree.Leaves Tree.Readable) stack →
      (Session.eval limit stack source).outcome = .value v →
        Tree.Leaves Tree.Readable v ∧ Tree.parse v.source = .ok v.normal) := by
  refine ⟨fun e he => Tree.parse_source he, ?_, ?_⟩
  · intro source e he
    have hleaves := Tree.readable_of_parse he
    have hnormal := Tree.normal_of_flat (Tree.flat_of_parse he)
    refine ⟨hleaves, hnormal, ?_, e.source_unsigned⟩
    rw [Tree.parse_source hleaves, hnormal]
  · intro limit stack source v hs hv
    have hleaves := Session.readable_of_eval hs hv
    exact ⟨hleaves, Tree.parse_source hleaves⟩

/-- `((f -0) "a b" (nan))`, with an application and a number in operator position. -/
def Tree.layered : Tree :=
  .app (.app (.sym "f") [.num (.finite true ⟨0, by decide⟩)]) [.text "a b", .app (.num .nan) []]

theorem Tree.readable_layered : Leaves Readable layered := by
  have hname : Leaves Readable (.sym "f") := (leaves_leaf (by simp)).mpr ⟨⟨1, 1⟩, rfl⟩
  have htext : Leaves Readable (.text "a b") := (leaves_leaf (by simp)).mpr ⟨List.all_eq_true.mp rfl, rfl⟩
  have hnum : ∀ n, Leaves Readable (.num n) := fun n => (leaves_leaf (by simp)).mpr trivial
  simp [layered, leaves_app, hname, htext, hnum]

/-- The operator is spliced, `ι` comes in front of the number, and the zero loses its sign; a parsed
zero loses it too, and a value prints like any other tree. -/
theorem printing_then_reading_layered :
    Tree.Leaves Tree.Readable Tree.layered ∧
    Tree.parse Tree.layered.source = .ok (.app (.sym "f")
      [.num (.finite false ⟨0, by decide⟩), .text "a b", .app (.form .iota) [.num .nan]]) ∧
    Tree.parse (Tree.app (.sym "f") [.num (.finite true ⟨0, by decide⟩)]).source =
      .ok (.app (.sym "f") [.num (.finite false ⟨0, by decide⟩)]) ∧
    Tree.parse (Tree.num .nan).source = .ok (.num .nan) := by
  obtain ⟨law, parsed, evaluated⟩ := printing_then_reading
  refine ⟨Tree.readable_layered, law _ Tree.readable_layered, ?_, ?_⟩
  · exact (parsed "(f -0)" _ rfl).2.2.1
  · have hvalue : (Session.eval 9 [] "((λ x x) nan)").outcome = .value (.num .nan) :=
      (Session.eval_of_parse (t := .app (.form .lambda) [.sym "x", .sym "x", .num .nan]) rfl).trans rfl
    exact (evaluated 9 [] "((λ x x) nan)" _ .empty hvalue).2

end Curried
