import Curried.Proofs.Eventual
import Curried.Proofs.Nesting

/-!
# Proofs — definitions in front of a call

`(δ x v f a …)` binds `x` and applies `f` to `a …`; it is meant to be `(δ x v (f a …))`, with the
application that is read from `(f a …)`.  The two put the value in place of `x` in different ways:
the first in the operator and in each operand, the second in the application as a whole.

* If the application does not bind `x`, the results have the same outcome
  (`eventual_substitute_regroup`).
* If it does, the second substitution stops at it.  The first also leaves the operator as it is
  (`Tree.substitute_of_regroup`) but still goes into the operands: even the bound name itself is
  replaced, if it is one of them.  That there is nothing to replace in them is enough for the same
  outcome (`curried_definition`).  Otherwise the two may differ (`curried_definition_shadowed`) but
  need not: `(δ x v (λ x x) x)` comes to `v` either way.
-/

namespace Curried

namespace Tree

/-- `(δ x …)` or `(λ x …)`. -/
def Rebinds (x : String) (t : Tree) : Prop :=
  ∃ g rest, (g = .delta ∨ g = .lambda) ∧ t = .app (.form g) (.sym x :: rest)

/-- Substitution stops at `δ`, `λ` and `ε`. -/
theorem rebinds_of_shadows {x : String} {f : Tree} {as : List Tree} (h : shadows x f as) :
    Rebinds x (.app f as) ∨ f = .form .epsilon := by
  obtain ⟨g, rest, rfl, hg, rfl⟩ := exists_of_shadows h
  cases g with
  | delta => exact .inl ⟨.delta, rest, .inl rfl, rfl⟩
  | lambda => exact .inl ⟨.lambda, rest, .inr rfl, rfl⟩
  | epsilon => exact .inr rfl
  | arrow | iota | ignore | omega => cases hg

/-- What binds goes by the first operand. -/
theorem shadows_append {x : String} {f a : Tree} {as : List Tree} (bs : List Tree) :
    shadows x f (a :: as ++ bs) = shadows x f (a :: as) := by
  cases f <;> cases a <;> rfl

/-- The operator does not depend on the operands. -/
theorem exists_regroup_of_regroup {f g : Tree} {as bs : List Tree} (h : f.regroup as = .app g bs)
    (cs : List Tree) : ∃ ds, f.regroup cs = .app g ds := by
  cases f <;> cases h <;> exact ⟨_, rfl⟩

/-- **Nothing is replaced in the operator** of an application that binds the name. -/
theorem substitute_of_regroup {x : String} {f g : Tree} {as bs : List Tree}
    (h : f.regroup as = .app g bs) (hs : shadows x g bs) (w : Tree) : substitute x w f = f := by
  obtain ⟨k, -, rfl, -⟩ := exists_of_shadows hs
  cases f with
  | app _ cs =>
      cases h
      cases cs with
      | nil => rfl
      | cons c cs => rw [substitute_app, if_pos (by rwa [shadows_append] at hs)]
  | sym y => cases h
  | num | text | nil | form | host => rfl

end Tree

/-! ### The application that is read -/

/-- **The application that is read from `(f a …)`** is an application of `f` to `a …`. -/
theorem eventual_regroup {f : Tree} (hf : f ≠ .host .absent) {as : List Tree} (has : as ≠ [])
    (s : Stack) : eventual s (f.regroup as) = eventual s (.app f as) := by
  -- A literal is its own value, so `ι` in front of it makes no difference.
  have literal : ∀ {v : Tree}, v.IsValue → v ≠ .form .ignore →
      eventual s (.app (.form .iota) (v :: as)) = eventual s (.app v as) := by
    intro v hv hne
    obtain ⟨a, as, rfl⟩ := List.exists_cons_of_ne_nil has
    rw [eventual_identity, eventual_value hv hne]
    rfl
  cases f with
  | app g bs => exact (eventual_app_app s g bs as).symm
  | sym | form => rfl
  | num n => exact literal (.num n) (by simp)
  | text t => exact literal (.text t) (by simp)
  | nil => exact literal .nil (by simp)
  | host h =>
      cases h with
      | int n => exact literal (.int n) (by simp)
      | bool b => exact literal (.bool b) (by simp)
      | absent => exact absurd rfl hf

/-- **Replacing a name part by part** in an application that does not bind it. -/
theorem eventual_substitute_of_not_shadows {x : String} {w f g : Tree} (hf : f ≠ .host .absent)
    {as bs : List Tree} (has : as ≠ []) (hg : f.regroup as = .app g bs)
    (hs : ¬ Tree.shadows x g bs) (s : Stack) :
    eventual s (.app (Tree.substitute x w f) (as.map (Tree.substitute x w))) =
      eventual s (Tree.substitute x w (f.regroup as)) := by
  rw [hg, Tree.substitute_app, if_neg hs]
  cases f with
  | app k cs =>
      obtain ⟨rfl, rfl⟩ := Tree.app.inj hg
      have hk : ¬ Tree.shadows x k cs := by
        cases cs with
        | nil => cases k <;> simp [Tree.shadows]
        | cons c cs => rwa [Tree.shadows_append] at hs
      rw [Tree.substitute_app, if_neg hk, eventual_app_app, List.map_append]
  | sym | form =>
      cases hg
      rfl
  | num | text | nil | host =>
      cases hg
      exact (eventual_regroup hf (by simpa using has) s).symm

/-- **Replacing a name part by part** gives what replacing it in the whole gives, unless the whole
binds the name and the name would be replaced in an operand. -/
theorem eventual_substitute_regroup {x : String} {w f : Tree} (hf : f ≠ .host .absent)
    {as : List Tree} (has : as ≠ [])
    (h : (f.regroup as).Rebinds x → ∀ a ∈ as, Tree.substitute x w a = a) (s : Stack) :
    eventual s (.app (Tree.substitute x w f) (as.map (Tree.substitute x w))) =
      eventual s (Tree.substitute x w (f.regroup as)) := by
  obtain ⟨g, bs, hg⟩ := Tree.exists_regroup_eq_app f as
  by_cases hs : Tree.shadows x g bs
  · have hwhole : Tree.substitute x w (f.regroup as) = f.regroup as := by
      rw [hg, Tree.substitute_app, if_pos hs]
    rw [hwhole, Tree.substitute_of_regroup hg hs, ← eventual_regroup hf (by simpa using has)]
    rcases Tree.rebinds_of_shadows hs with hr | rfl
    · have hsame : as.map (Tree.substitute x w) = as :=
        (List.map_congr_left (h (hg ▸ hr))).trans (List.map_id as)
      rw [hsame]
    · -- `ε` is at fault whatever its operands are.
      have hfault : ∀ cs, eventual s (.app (.form .epsilon) cs) = .fault .reservedExternal :=
        fun cs => eventual_eq_iff.mpr (.inr ⟨by simp, 1, rfl⟩)
      obtain ⟨ds, hds⟩ := Tree.exists_regroup_of_regroup hg (as.map (Tree.substitute x w))
      rw [hg, hds, hfault, hfault]
  · exact eventual_substitute_of_not_shadows hf has hg hs s

/-- What is read from a text is no host value. -/
theorem Nesting.tree_ne_absent {n : Nesting} (hn : ∀ t ∈ n.tokens, t.Lexical) :
    n.tree ≠ .host .absent := by
  cases n with
  | atom t h =>
      rw [tree]
      rcases (hn t (by simp [tokens])).atom_cases h with ⟨f, p, rfl⟩ | ⟨x, p, rfl⟩ | ⟨v, p, rfl, hv⟩
      · simp [Token.leaf]
      · simp [Token.leaf]
      · rintro e
        rw [show v = .host .absent from e] at hv
        cases hv
  | group o head items c ho hc =>
      obtain ⟨g, bs, hg⟩ := Tree.exists_regroup_eq_app head.tree (items.map tree)
      rw [tree_group, hg]
      simp

/-- **A definition in front of a call is a definition of the call.**  Let `f` and `a …`, at least
one, be expressions.  Then `(f a …)` is read, and `(δ x v f a …)` has the outcome of
`(δ x v (f a …))`, on every stack — provided that, if `(f a …)` is read as `(δ x …)` or `(λ x …)`,
there is no `x` to replace in `a …`. -/
theorem curried_definition (x : String) (v : Tree) (f : Nesting) {as : List Nesting} (has : as ≠ [])
    {o c : Token} (ho : o.kind = .opening) (hc : c.kind = .closing)
    (hlexical : ∀ t ∈ (Nesting.group o f as c ho hc).tokens, t.Lexical)
    (hrebinds : (Nesting.group o f as c ho hc).tree.Rebinds x →
      ∀ a ∈ as, ∀ w, Tree.substitute x w a.tree = a.tree) (s : Stack) :
    Tree.readSingle (Nesting.group o f as c ho hc).tokens =
        .ok (Nesting.group o f as c ho hc).tree ∧
      eventual s (.app (.form .delta) (.sym x :: v :: f.tree :: as.map Nesting.tree)) =
        eventual s (.app (.form .delta) [.sym x, v, (Nesting.group o f as c ho hc).tree]) := by
  refine ⟨Nesting.readSingle_tokens hlexical, ?_⟩
  have hf : f.tree ≠ .host .absent := Nesting.tree_ne_absent fun t ht =>
    hlexical t (Nesting.mem_tokens_group (List.mem_cons_self ..) ht)
  have hbody : ∀ w, eventual (Bracket.scope s x w).1
      (.app (Tree.substitute x w f.tree) ((as.map Nesting.tree).map (Tree.substitute x w))) =
        eventual (Bracket.scope s x w).1
          (Tree.substitute x w (Nesting.group o f as c ho hc).tree) := by
    intro w
    rw [Nesting.tree_group] at hrebinds ⊢
    refine eventual_substitute_regroup hf (by simpa using has) (fun hr a ha => ?_) _
    obtain ⟨n, hn, rfl⟩ := List.mem_map.mp ha
    exact hrebinds hr n hn w
  obtain ⟨a, as, rfl⟩ := List.exists_cons_of_ne_nil has
  rw [List.map_cons, eventual_define_call, eventual_define]
  exact congrArg _ (funext hbody)

/-- `(λ x x)`, where it starts at the column `n` of the first row. -/
def Nesting.same (n : Nat) : Nesting :=
  .group ⟨.opening, .text "(", ⟨1, n⟩⟩
    (.atom ⟨.keyword, .form .lambda, ⟨1, n + 1⟩⟩ (by simp [Token.IsAtom]))
    [.atom ⟨.identifier, .text "x", ⟨1, n + 3⟩⟩ (by simp [Token.IsAtom]),
      .atom ⟨.identifier, .text "x", ⟨1, n + 5⟩⟩ (by simp [Token.IsAtom])]
    ⟨.closing, .text ")", ⟨1, n + 6⟩⟩ rfl rfl

/-- `"a"`, where it starts at the column `n` of the first row. -/
def Nesting.letter (n : Nat) : Nesting :=
  .atom ⟨.literal, .text "a", ⟨1, n⟩⟩ (by simp [Token.IsAtom])

/-- `(δ x Φ (λ x x) "a")`: what is applied binds `x`, and there is none to replace behind it. -/
theorem curried_definition_function :
    let call : Nesting := .group ⟨.opening, .text "(", ⟨1, 1⟩⟩ (.same 2) [.letter 10]
      ⟨.closing, .text ")", ⟨1, 13⟩⟩ rfl rfl
    (lex "((λ x x) \"a\")").result = .ok call.tokens ∧ call.tree.Rebinds "x" ∧
      Tree.readSingle call.tokens = .ok call.tree ∧
      eventual [] (.app (.form .delta)
          [.sym "x", .nil, (Nesting.same 2).tree, (Nesting.letter 10).tree]) =
        eventual [] (.app (.form .delta) [.sym "x", .nil, call.tree]) := by
  intro call
  have hlex : (lex "((λ x x) \"a\")").result = .ok call.tokens := rfl
  have hrebinds : call.tree.Rebinds "x" := ⟨.lambda, [.sym "x", .text "a"], .inr rfl, rfl⟩
  refine ⟨hlex, hrebinds, ?_⟩
  refine curried_definition "x" .nil (.same 2) (by simp) rfl rfl (lexical_of_lex hlex) ?_ []
  intro _ a ha w
  obtain rfl := List.mem_singleton.mp ha
  rfl

/-- **In `(δ x Φ λ x x "a")` the bound name is replaced as well**: `(λ Φ Φ "a")` is at fault, where
`(λ x x "a")` is `"a"`. -/
theorem curried_definition_shadowed :
    let curried : Tree := .app (.form .delta)
      [.sym "x", .nil, .form .lambda, .sym "x", .sym "x", .text "a"]
    let nested : Tree := .app (.form .delta)
      [.sym "x", .nil, .app (.form .lambda) [.sym "x", .sym "x", .text "a"]]
    Tree.parse "(δ x Φ λ x x \"a\")" = .ok curried ∧
      Tree.parse "(δ x Φ (λ x x \"a\"))" = .ok nested ∧
      eventual [] curried = .fault (.showing [.nil, .text "a"] (.mismatch .nil (.text "a"))) ∧
      eventual [] nested = .value (.text "a") := by
  intro curried nested
  exact ⟨rfl, rfl, eventual_eq_iff.mpr (.inr ⟨by simp, 9, rfl⟩),
    eventual_eq_iff.mpr (.inr ⟨by simp, 9, rfl⟩)⟩

end Curried
