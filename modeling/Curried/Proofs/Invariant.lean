import Curried.Proofs.Restoration

/-!
# Proofs — what an evaluation can produce

An evaluation builds new trees in a handful of ways: it takes an operand, puts a value in place of
a name, applies a value to operands, splices an operator.  `Invariant G V` says that the trees that
are `G` on a stack are closed under these, where `V` are the values among them.  Then an evaluation
that starts from a `G` tree meets `G` trees only, each on the stack it is evaluated on:

* its value, if it has one, is a `V` (`Invariant.evaluate`);
* its fault, if it has one, is a fault of evaluation, and every tree that the fault is about
  is a `G` (`Fault.Tells`).

A property of trees alone is a property on the stacks that hold such trees, as far as the names of
such trees go (`Stack.Keeps`).
-/

namespace Curried

/-- A fault that evaluation can end with, about trees that are all `G`.  A name that is not bound
was not bound on a stack where it is a `G`. -/
def Fault.Tells (G : Stack → Tree → Prop) : Fault → Prop
  | unbound x => ∃ stack, G stack (.sym x) ∧ stack.lookup? x = none
  | badName t | badParameter t | notFunction t => ∃ stack, G stack t
  | mismatch expected actual => ∃ stack, G stack expected ∧ G stack actual
  | bareForm f => ∃ stack, G stack (.form f)
  | noValue => ∃ stack, G stack (.host .absent)
  | unprintable h => ∃ stack t, G stack t ∧ t.sourceless? = some h
  | defineArity _ | functionArity _ | reservedArrow | reservedExternal => True
  | _ => False

/-- A run that ends with a `V`, with a fault about `G` trees, or too deep. -/
def Run.Good (G : Stack → Tree → Prop) (V : Tree → Prop) (r : Run) : Prop :=
  match r.outcome with
  | .value v => V v
  | .fault f => f.Tells G
  | .tooDeep => True

/-- The trees `G`, with the values `V` among them, are closed under what an evaluation does. -/
structure Invariant (G : Stack → Tree → Prop) (V : Tree → Prop) : Prop where
  /-- A value may be evaluated again, wherever something is. -/
  tree : ∀ {s u t}, G s u → V t → G s t
  /-- What a name stands for. -/
  bound : ∀ {s x v}, G s (.sym x) → s.lookup? x = some v → G s v
  /-- A leaf that is there, and neither a name nor a form, is a value; so is nil. -/
  leaf : ∀ {s t}, G s t → (∀ x, t ≠ .sym x) → (∀ f, t ≠ .form f) → (∀ f as, t ≠ .app f as) →
    t ≠ .host .absent → V t
  nil : V .nil
  ignore : ∀ {s}, G s (.app (.form .ignore) []) → V (.form .ignore)
  iota : V (.app (.form .iota) [])
  function : ∀ {s p b}, G s (.app (.form .lambda) [p, b]) → V (.app (.form .lambda) [p, b])
  /-- An operator that is not an application. -/
  operator : ∀ {s f as}, G s (.app f as) → (∀ g bs, f ≠ .app g bs) → G s f
  /-- The operands where nothing is bound. -/
  operand : ∀ {s f as a}, G s (.app f as) → (∀ g bs, f ≠ .app g bs) →
    (∀ g, f = .form g → g.binds = false) → a ∈ as → G s a
  definedName : ∀ {s n v c cs}, G s (.app (.form .delta) (n :: v :: c :: cs)) →
    (∀ x, n ≠ .sym x) → G s n
  definedValue : ∀ {s x v c cs}, G s (.app (.form .delta) (.sym x :: v :: c :: cs)) → G s v
  definedBody : ∀ {s x v c w}, G s (.app (.form .delta) [.sym x, v, c]) → V w →
    G (Bracket.scope s x w).1 (Tree.substitute x w c)
  definedCall : ∀ {s x v c cs w}, G s (.app (.form .delta) (.sym x :: v :: c :: cs)) → cs ≠ [] →
    V w → G (Bracket.merge s x w).1 (.app (Tree.substitute x w c) (Tree.substituteAll x w cs))
  argument : ∀ {s p b as a}, G s (.app (.form .lambda) (p :: b :: as)) → a ∈ as → G s a
  parameter : ∀ {s p b as}, G s (.app (.form .lambda) (p :: b :: as)) → (∀ x, p ≠ .sym x) → G s p
  boundBody : ∀ {s x b as w}, G s (.app (.form .lambda) (.sym x :: b :: as)) → V w →
    G (Bracket.scope s x w).1 (Tree.substitute x w b)
  plainBody : ∀ {s p b as}, G s (.app (.form .lambda) (p :: b :: as)) → (∀ x, p ≠ .sym x) → G s b
  /-- A value applied to operands, as it stands and with its own operands in front. -/
  applied : ∀ {s u v as}, G s u → V v → (∀ a ∈ as, G s a) → G s (.app v as)
  rebuilt : ∀ {s u v as}, G s u → V v → (∀ a ∈ as, G s a) → G s (Evaluation.rebuild v as)
  spliced : ∀ {s f as bs}, G s (.app (.app f as) bs) → G s ((Tree.app f as).apply bs)

/-- What frames say about the names of `G` trees are `G` trees. -/
def Stack.Keeps (G : Tree → Prop) (stack : Stack) : Prop :=
  ∀ x v, G (.sym x) → stack.lookup? x = some v → G v

namespace Stack.Keeps

variable {G : Tree → Prop} {stack : Stack}

theorem of_lookup {stack' : Stack} {x : String} {w : Tree} (hs : stack.Keeps G) (hw : G w)
    (h : ∀ y, stack'.lookup? y = if x = y then some w else stack.lookup? y) : stack'.Keeps G := by
  intro y v hy hv
  rw [h] at hv
  split at hv
  · cases hv
    exact hw
  · exact hs y v hy hv

/-- A frame of its own for a `G` tree. -/
theorem scope (hs : stack.Keeps G) (x : String) {w : Tree} (hw : G w) :
    (Bracket.scope stack x w).1.Keeps G := hs.of_lookup hw (Bracket.lookup?_scope stack x w)

/-- A `G` tree in the innermost frame. -/
theorem merge (hs : stack.Keeps G) (x : String) {w : Tree} (hw : G w) :
    (Bracket.merge stack x w).1.Keeps G := hs.of_lookup hw (Bracket.lookup?_merge stack x w)

/-- An empty stack says nothing. -/
theorem empty : Stack.Keeps G [] := fun _ _ _ h => nomatch h

end Stack.Keeps

/-- The first leaf without source text is a leaf of one of the trees. -/
theorem Tree.exists_of_sourcelessIn? {ts : List Tree} {h : Host}
    (e : Tree.sourcelessIn? ts = some h) : ∃ t ∈ ts, t.sourceless? = some h := by
  rw [Tree.sourcelessIn?_eq_findSome?] at e
  obtain ⟨_, t, _, rfl, ht, -⟩ := List.findSome?_eq_some_iff.mp e
  exact ⟨t, by simp, ht⟩

section

variable {G : Stack → Tree → Prop} {V : Tree → Prop}

/-- A fault that shows trees. -/
theorem Fault.tells_showing (stack : Stack) {ts : List Tree} {f : Fault}
    (hts : ∀ t ∈ ts, G stack t) (hf : f.Tells G) : (Fault.showing ts f).Tells G := by
  unfold Fault.showing
  split
  · rename_i h e
    obtain ⟨t, ht, hh⟩ := Tree.exists_of_sourcelessIn? e
    exact ⟨stack, t, hts t ht, hh⟩
  · exact hf

namespace Run.Good

theorem value {stack : Stack} {v : Tree} (h : V v) : (Run.value stack v).Good G V := h

theorem fault {stack : Stack} {f : Fault} (h : f.Tells G) : (Run.fault stack f).Good G V := h

theorem noting {r : Run} (h : r.Good G V) (e : Event) : (r.noting e).Good G V := h

theorem andThen {r : Run} {next : Stack → Tree → Run} {stack : Stack} (hr : r.Good G V)
    (hstack : r.stack = stack) (hn : ∀ v, V v → (next stack v).Good G V) :
    (r.andThen next).Good G V := by
  obtain ⟨outcome, _, log⟩ := r
  subst hstack
  cases outcome with
  | value v => exact hn v hr
  | fault f => exact hr
  | tooDeep => exact hr

theorem within {bound : Stack × Bracket} {body : Stack → Run} (h : (body bound.1).Good G V) :
    (Run.within bound body).Good G V := h

end Run.Good

end

namespace Invariant

variable {G : Stack → Tree → Prop} {V : Tree → Prop} (inv : Invariant G V) {eval : Evaluator}
  (hr : eval.Restores) (he : ∀ {stack t}, G stack t → (eval stack t).Good G V)
include inv hr he

theorem applyTo {stack : Stack} {f : Tree} {as : List Tree} (hf : G stack f)
    (has : ∀ a ∈ as, G stack a) : (Evaluation.applyTo eval stack f as).Good G V :=
  (he hf).andThen (hr stack f) fun _ hv => he (inv.applied hf hv has)

theorem define {stack : Stack} {as : List Tree} (ht : G stack (.app (.form .delta) as)) :
    (Evaluation.define eval stack as).Good G V := by
  unfold Evaluation.define
  split
  · rename_i x v body rest
    refine (he (inv.definedValue ht)).andThen (hr stack v) fun w hw => ?_
    split
    · exact .within (he (inv.definedBody ht hw))
    · exact .within (he (inv.definedCall ht ‹_› hw))
  · rename_i name v body rest hname
    have hn : G stack name := inv.definedName ht hname
    exact .fault (Fault.tells_showing stack (by simpa using hn) ⟨stack, hn⟩)
  · exact .fault trivial

theorem call {stack : Stack} {p b a : Tree} {as : List Tree}
    (ht : G stack (.app (.form .lambda) (p :: b :: a :: as))) :
    (Evaluation.call eval stack p b a).Good G V := by
  have ha : G stack a := inv.argument ht (by simp)
  unfold Evaluation.call
  split
  · rename_i x
    refine (he ha).andThen (hr stack a) fun w hw => ?_
    exact .within (he (inv.boundBody ht hw))
  · have hb : G stack b := inv.plainBody ht (by simp)
    exact (he ha).andThen (hr stack a) fun _ _ => he hb
  · rename_i hsym hign
    have hp : G stack p := inv.parameter ht hsym
    have hb : G stack b := inv.plainBody ht hsym
    split
    · refine (he ha).andThen (hr stack a) fun actual hv => ?_
      split
      · exact he hb
      · have hactual : G stack actual := inv.tree hp hv
        exact .fault (Fault.tells_showing stack (by simp [hp, hactual]) ⟨stack, hp, hactual⟩)
    · exact .fault (Fault.tells_showing stack (by simpa using hp) ⟨stack, hp⟩)

theorem applyFunction {stack : Stack} {as : List Tree} (ht : G stack (.app (.form .lambda) as)) :
    (Evaluation.function eval stack as).Good G V := by
  unfold Evaluation.function
  split
  · exact .value (inv.function ht)
  · rename_i p b a rest
    refine (inv.call hr he ht).andThen (Evaluation.restores_call hr stack p b a) fun v hv => ?_
    split
    · exact .value hv
    · exact he (inv.applied ht hv fun c hc => inv.argument ht (List.mem_cons_of_mem a hc))
  · exact .fault trivial

theorem dispatch {stack : Stack} {f : Form} {as : List Tree} (ht : G stack (.app (.form f) as)) :
    (Evaluation.dispatch eval stack f as).Good G V := by
  have operand : f.binds = false → ∀ a ∈ as, G stack a := fun hf a ha =>
    inv.operand ht (by simp) (fun g e => by cases e; exact hf) ha
  cases f with
  | delta => exact inv.define hr he ht
  | lambda => exact inv.applyFunction hr he ht
  | arrow | epsilon => exact .fault trivial
  | omega => exact .value inv.nil
  | iota =>
      have has := operand rfl
      show (Evaluation.identity eval stack as).Good G V
      unfold Evaluation.identity
      split
      · exact .value inv.iota
      · exact he (has _ (by simp))
      · exact inv.applyTo hr he (has _ (by simp)) fun a ha => has a (List.mem_cons_of_mem _ ha)
  | ignore =>
      have has := operand rfl
      show (Evaluation.ignore eval stack as).Good G V
      unfold Evaluation.ignore
      split
      · exact .value (inv.ignore ht)
      · exact .value inv.nil
      · exact .value inv.nil
      · exact inv.applyTo hr he (has _ (by simp)) fun a ha => has a (by simp [ha])

/-- **One reduction** of a `G` tree is good if the evaluations inside it are. -/
theorem reduce {stack : Stack} {t : Tree} (ht : G stack t) :
    (Evaluation.reduce eval stack t).Good G V := by
  unfold Evaluation.reduce
  split
  · split
    · exact he (inv.bound ht ‹_›)
    · exact .fault ⟨stack, ht, ‹_›⟩
  · exact .fault ⟨stack, ht⟩
  · exact .fault ⟨stack, ht⟩
  · exact .noting (inv.dispatch hr he ht) _
  · exact he (inv.spliced ht)
  · -- A name in operator position is the one operator that is evaluated by itself.
    rename_i x as
    have hx : G stack (.sym x) := inv.operator ht (by simp)
    refine (he hx).andThen (hr stack _) fun head hv => he (inv.rebuilt ht hv fun a ha => ?_)
    exact inv.operand ht (by simp) (by simp) ha
  · rename_i f as _ hf _
    have hf : G stack f := inv.operator ht hf
    exact .fault (Fault.tells_showing stack (by simpa using hf) ⟨stack, hf⟩)
  · rename_i hsym hform habsent _ _ _ happ
    exact .value (inv.leaf ht hsym hform happ habsent)

omit hr he in
/-- **An evaluation of a `G` tree** ends with a `V`, with a fault about `G` trees, or too deep. -/
theorem evaluate (limit : Nat) {stack : Stack} {t : Tree} (ht : G stack t) :
    (evaluate limit stack t).Good G V := by
  induction limit generalizing stack t with
  | zero => exact trivial
  | succ limit ih => exact inv.reduce (restores_evaluate limit) (fun ht => ih ht) ht

omit hr he in
/-- The value of a `G` tree is a `V`. -/
theorem value {limit : Nat} {stack : Stack} {t v : Tree} (ht : G stack t)
    (hv : (Curried.evaluate limit stack t).outcome = .value v) : V v := by
  have hgood := inv.evaluate limit ht
  rwa [Run.Good, hv] at hgood

end Invariant

end Curried
