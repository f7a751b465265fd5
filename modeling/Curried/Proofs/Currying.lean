import Curried.Proofs.Eventual

/-!
# Proofs — arguments are taken one at a time

An application to several operands is an application to the first of them, and then of what comes
out to the others: `(f a … b …)` has the outcome of `(f a …)` if that is no value, and otherwise the
outcome of applying its value to `b …` (`application_curries`).  Literals are no functions, a
function and `(ι)` take one operand and go on with its value (`eventual_cons`), and a name stands
for one of these.

The bare `_` is the exception among values.  It takes its first operands together, so it matters
where they are cut.  It is the value of `(_)` only, and a tree without that is *filled*
(`Tree.Filled`): no evaluation of a filled tree on a stack of filled trees yields it
(`Tree.invariant_filled`).
-/

namespace Curried

/-! ### Filled trees -/

namespace Tree

/-- No `(_)` occurs. -/
def Filled : Tree → Prop := Nodes fun f as => f = .form .ignore → as ≠ []

/-- A filled tree that is not `_` by itself. -/
structure FilledValue (v : Tree) : Prop where
  filled : Filled v
  ne_ignore : v ≠ .form .ignore

theorem filled_app {f : Tree} {as : List Tree} :
    Filled (.app f as) ↔ (f = .form .ignore → as ≠ []) ∧ Filled f ∧ ∀ a ∈ as, Filled a := nodes_app

theorem filled_leaf {t : Tree} (h : ∀ f as, t ≠ .app f as) : Filled t := nodes_leaf h

namespace Filled

variable {f : Tree} {as bs : List Tree}

/-- More operands. -/
theorem append (h : Filled (.app f as)) (hbs : ∀ b ∈ bs, Filled b) : Filled (.app f (as ++ bs)) := by
  obtain ⟨hne, hf, has⟩ := filled_app.mp h
  exact filled_app.mpr ⟨fun e => List.append_ne_nil_of_left_ne_nil (hne e) bs, hf,
    List.forall_mem_append.mpr ⟨has, hbs⟩⟩

theorem spliced (h : Filled (.app f as)) : Filled (f.apply as) := by
  fun_induction apply f as with
  | case1 g bs as ih =>
      obtain ⟨-, hf, has⟩ := filled_app.mp h
      exact ih (hf.append has)
  | case2 f as _ => exact h

theorem rebuilt {v : Tree} (hv : FilledValue v) (has : ∀ a ∈ as, Filled a) :
    Filled (Evaluation.rebuild v as) := by
  unfold Evaluation.rebuild
  split
  · exact hv.filled.append has
  · exact filled_app.mpr ⟨fun e => absurd e hv.ne_ignore, hv.filled, has⟩

theorem substituteLeaf {x : String} {w t : Tree} (ht : Filled t) (hw : FilledValue w) :
    Filled (substituteLeaf x w t) := by
  rcases substituteLeaf_cases x w t with ⟨-, e⟩ | ⟨-, e⟩
  · rw [e]; exact hw.filled
  · rwa [e]

/-- **Substitution leaves no `(_)`.** -/
theorem substitute {x : String} {w t : Tree} (ht : Filled t) (hw : FilledValue w) :
    Filled (substitute x w t) := by
  induction t using byApp with
  | leaf t h =>
      rw [substitute_leaf h]
      exact ht.substituteLeaf hw
  | app f as _ ih =>
      rw [substitute_app]
      split
      · exact ht
      · obtain ⟨hne, hf, has⟩ := filled_app.mp ht
        refine filled_app.mpr ⟨fun e => ?_, hf.substituteLeaf hw, fun b hb => ?_⟩
        · -- The operator was `_` before, since no value is.
          rcases substituteLeaf_cases x w f with ⟨-, hx⟩ | ⟨-, hx⟩
          · exact absurd (hx.symm.trans e) hw.ne_ignore
          · simpa using hne (hx.symm.trans e)
        · obtain ⟨a, ha, rfl⟩ := List.mem_map.mp hb
          exact ih a ha (has a ha)

end Filled

/-- **Evaluation leads from filled trees to filled values.** -/
theorem invariant_filled : Invariant (fun s t => s.Keeps Filled ∧ Filled t) FilledValue where
  tree hu ht := ⟨hu.1, ht.filled⟩
  bound h hv := ⟨h.1, h.1 _ _ h.2 hv⟩
  leaf h _ hform _ _ := ⟨h.2, hform .ignore⟩
  nil := ⟨filled_leaf (by simp), by simp⟩
  ignore h := absurd rfl ((filled_app.mp h.2).1 rfl)
  iota := ⟨filled_app.mpr ⟨by simp, filled_leaf (by simp), by simp⟩, by simp⟩
  function h := ⟨h.2, by simp⟩
  operator h _ := ⟨h.1, (filled_app.mp h.2).2.1⟩
  operand h _ _ ha := ⟨h.1, (filled_app.mp h.2).2.2 _ ha⟩
  definedName h _ := ⟨h.1, (filled_app.mp h.2).2.2 _ (by simp)⟩
  definedValue h := ⟨h.1, (filled_app.mp h.2).2.2 _ (by simp)⟩
  definedBody h hw := ⟨h.1.scope _ hw.filled, ((filled_app.mp h.2).2.2 _ (by simp)).substitute hw⟩
  definedCall {s x v c cs w} h hne hw := by
    have hin : ∀ a ∈ c :: cs, Filled (substitute x w a) := fun a ha =>
      ((filled_app.mp h.2).2.2 a (by simp_all)).substitute hw
    refine ⟨h.1.merge _ hw.filled, filled_app.mpr ⟨fun _ => ?_, hin c (by simp), fun b hb => ?_⟩⟩
    · simpa [substituteAll_eq_map] using hne
    · rw [substituteAll_eq_map] at hb
      obtain ⟨a, ha, rfl⟩ := List.mem_map.mp hb
      exact hin a (by simp [ha])
  argument h ha := ⟨h.1, (filled_app.mp h.2).2.2 _ (by simp [ha])⟩
  parameter h _ := ⟨h.1, (filled_app.mp h.2).2.2 _ (by simp)⟩
  boundBody h hw := ⟨h.1.scope _ hw.filled, ((filled_app.mp h.2).2.2 _ (by simp)).substitute hw⟩
  plainBody h _ := ⟨h.1, (filled_app.mp h.2).2.2 _ (by simp)⟩
  applied hu hv has := ⟨hu.1, filled_app.mpr ⟨fun e => absurd e hv.ne_ignore, hv.filled,
    fun a ha => (has a ha).2⟩⟩
  rebuilt hu hv has := ⟨hu.1, .rebuilt hv fun a ha => (has a ha).2⟩
  spliced h := ⟨h.1, h.2.spliced⟩

/-- What a filled tree comes to is a value, and it is not `_`. -/
theorem Filled.eventual {s : Stack} {t v : Tree} (ht : Filled t) (hs : s.Keeps Filled)
    (h : Curried.eventual s t = .value v) : v.IsValue ∧ v.FilledValue := by
  rcases eventual_eq_iff.mp h with ⟨e, -⟩ | ⟨-, limit, hlimit⟩
  · cases e
  · exact ⟨invariant_isValue.value trivial hlimit, invariant_filled.value ⟨hs, ht⟩ hlimit⟩

end Tree

/-! ### One operand at a time -/

/-- Going on is the same where it is the same for the value there is. -/
theorem Outcome.andThen_congr {o : Outcome} {next next' : Tree → Outcome}
    (h : ∀ v, o = .value v → next v = next' v) : o.andThen next = o.andThen next' := by
  cases o with
  | value v => exact h v rfl
  | fault f => rfl
  | tooDeep => rfl

/-- **A value takes its first operand**, and what comes out takes the others. -/
theorem eventual_cons {f : Tree} (hf : f.IsValue) (hne : f ≠ .form .ignore) (s : Stack) (a b : Tree)
    (bs : List Tree) :
    eventual s (.app f (a :: b :: bs)) =
      (eventual s (.app f [a])).andThen fun v => eventual s (.app v (b :: bs)) := by
  -- A literal is no function, whatever its operands.
  have literal : ∀ {f : Tree}, (∀ as, (evaluate 1 s (.app f as)).outcome =
      .fault (.showing [f] (.notFunction f))) → eventual s (.app f (a :: b :: bs)) =
        (eventual s (.app f [a])).andThen fun v => eventual s (.app v (b :: bs)) := by
    intro f hfault
    have heventual : ∀ as, eventual s (.app f as) = .fault (.showing [f] (.notFunction f)) :=
      fun as => eventual_eq_iff.mpr (.inr ⟨by simp, 1, hfault as⟩)
    rw [heventual, heventual]
    rfl
  cases hf with
  | num | text | nil | int | bool => exact literal fun _ => rfl
  | function p c =>
      rw [eventual_app_app, eventual_app_app]
      exact eventual_function s p c a b bs
  | iota =>
      rw [eventual_app_app, eventual_app_app]
      refine (eventual_identity s a b bs).trans ?_
      rw [← eventual_identity_single s a]
      rfl
  | ignore => exact absurd rfl hne

/-- **A value takes some of its operands**, and what comes out takes the others. -/
theorem eventual_append {s : Stack} (hs : s.Keeps Tree.Filled) {f : Tree} (hf : f.IsValue)
    (hfilled : f.FilledValue) {as bs : List Tree} (has : ∀ a ∈ as, a.Filled) (hne : as ≠ [])
    (hbs : bs ≠ []) :
    eventual s (.app f (as ++ bs)) =
      (eventual s (.app f as)).andThen fun v => eventual s (.app v bs) := by
  obtain ⟨b, bs, rfl⟩ := List.exists_cons_of_ne_nil hbs
  induction as generalizing f with
  | nil => exact absurd rfl hne
  | cons a as ih =>
      rw [List.forall_mem_cons] at has
      cases as with
      | nil => exact eventual_cons hf hfilled.ne_ignore s a b bs
      | cons a' as =>
          have hfirst : (Tree.app f [a]).Filled :=
            Tree.filled_app.mpr ⟨by simp, hfilled.filled, by simpa using has.1⟩
          calc eventual s (.app f (a :: a' :: (as ++ b :: bs)))
              = (eventual s (.app f [a])).andThen fun r =>
                  eventual s (.app r (a' :: as ++ b :: bs)) :=
                eventual_cons hf hfilled.ne_ignore s a a' (as ++ b :: bs)
            _ = (eventual s (.app f [a])).andThen fun r =>
                  (eventual s (.app r (a' :: as))).andThen fun v => eventual s (.app v (b :: bs)) := by
                refine Outcome.andThen_congr fun r hr => ?_
                obtain ⟨hvalue, hrfilled⟩ := hfirst.eventual hs hr
                exact ih hvalue hrfilled has.2 (by simp)
            _ = (eventual s (.app f (a :: a' :: as))).andThen fun v =>
                  eventual s (.app v (b :: bs)) := by
                rw [eventual_cons hf hfilled.ne_ignore s a a' as, Outcome.andThen_assoc]

/-- **Application is currying, from left to right.**  Let the operator be a name, a literal, a
function or `(ι)`, and let no `(_)` occur in it, in its first operands or in what the stack says
about any name.  Then an application to operands `as` and `bs` has the outcome of the application to
`as` alone, if that is a fault or never ends, and otherwise the outcome of applying its value to
`bs`. -/
theorem application_curries {s : Stack} {f : Tree} {as bs : List Tree}
    (hf : (∃ x, f = .sym x) ∨ (f.IsValue ∧ f ≠ .form .ignore)) (has : as ≠ []) (hbs : bs ≠ [])
    (hfilled : ∀ t ∈ f :: as, t.Filled)
    (hstack : ∀ x v, s.lookup? x = some v → v.Filled) :
    eventual s (.app f (as ++ bs)) =
      (eventual s (.app f as)).andThen fun v => eventual s (.app v bs) := by
  have hs : s.Keeps Tree.Filled := fun x v _ hv => hstack x v hv
  rw [List.forall_mem_cons] at hfilled
  rcases hf with ⟨x, rfl⟩ | ⟨hvalue, hne⟩
  · rw [eventual_name, eventual_name, Outcome.andThen_assoc]
    refine Outcome.andThen_congr fun head hhead => ?_
    obtain ⟨hvalue, hhfilled⟩ := hfilled.1.eventual hs hhead
    exact eventual_append hs hvalue hhfilled hfilled.2 has hbs
  · exact eventual_append hs hvalue ⟨hfilled.1, hne⟩ hfilled.2 has hbs

/-- `(k Φ "a")`, where `k` is `(λ x (λ y x))`: the first operand leaves a function for the second. -/
theorem application_curries_constant :
    let k : Tree := .app (.form .lambda) [.sym "x", .app (.form .lambda) [.sym "y", .sym "x"]]
    let s : Stack := [[("k", k)]]
    (∀ t ∈ [.sym "k", Tree.nil], t.Filled) ∧ (∀ x v, s.lookup? x = some v → v.Filled) ∧
      eventual s (.app (.sym "k") [.nil]) =
        .value (.app (.form .lambda) [.sym "y", .nil]) ∧
      eventual s (.app (.sym "k") [.nil, .text "a"]) =
        eventual s (.app (.app (.form .lambda) [.sym "y", .nil]) [.text "a"]) := by
  intro k s
  have hfilled : ∀ t ∈ [.sym "k", Tree.nil], t.Filled := by simp [Tree.filled_leaf]
  have hstack : ∀ x v, s.lookup? x = some v → v.Filled := by
    intro x v hv
    by_cases hx : "k" = x
    · obtain rfl : k = v := by simpa [s, Stack.lookup?, Frame.lookup?, hx] using hv
      simp [k, Tree.filled_app, Tree.filled_leaf]
    · simp [s, Stack.lookup?, Frame.lookup?, hx] at hv
  have hfirst : eventual s (.app (.sym "k") [.nil]) = .value (.app (.form .lambda) [.sym "y", .nil]) :=
    eventual_eq_iff.mpr (.inr ⟨by simp, 9, rfl⟩)
  refine ⟨hfilled, hstack, hfirst, ?_⟩
  have hcurries := application_curries (.inl ⟨"k", rfl⟩) (by simp) (List.cons_ne_nil (.text "a") [])
    hfilled hstack
  rw [hfirst] at hcurries
  exact hcurries

end Curried
