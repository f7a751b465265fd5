import Curried.Proofs.RoundTrip

/-!
# Proofs — an evaluation reads only what its names reach

Two evaluations of one tree, on two stacks and with two limits, run in step as long as the names that
they meet mean the same on both stacks.  `Linked G V R` says that stacks in the relation `R` stay so:
a name of a `G` tree means the same on both, and binding a `V` on both keeps them related.  Then an
evaluation that is not too deep has the outcome of every evaluation on a related stack with at least
the same limit (`Invariant.follows`).

The instance here is about names.  A set of names is *closed* on a stack if it has the names in what
the stack says about its members.  An evaluation of a tree with names from such a set never meets any
other (`Tree.invariant_leaves`), so stacks that agree on the set are related (`Stack.linked_agree`),
whatever frames they consist of and whatever else they bind (`outcome_of_reachable`).
-/

namespace Curried

/-- The outcome `o'` is `o`, unless `o` is too deep. -/
def Outcome.StandsIn (o o' : Outcome) : Prop := o ≠ .tooDeep → o' = o

theorem Outcome.StandsIn.refl (o : Outcome) : o.StandsIn o := fun _ => rfl

/-- Outcomes that stand in each other are the same. -/
theorem Outcome.StandsIn.antisymm {o o' : Outcome} (h : o.StandsIn o') (h' : o'.StandsIn o) :
    o = o' := by
  by_cases ho : o = .tooDeep
  · by_cases ho' : o' = .tooDeep
    · rw [ho, ho']
    · exact h' ho'
  · exact (h ho).symm

/-- What relates the stacks of two evaluations of the same `G` trees. -/
structure Linked (G : Stack → Tree → Prop) (V : Tree → Prop) (R : Stack → Stack → Prop) : Prop where
  /-- A name means the same on both. -/
  name : ∀ {s s' x}, R s s' → G s (.sym x) → s'.lookup? x = s.lookup? x
  /-- Binding a value on both keeps them related. -/
  scope : ∀ {s s' w} x, R s s' → V w → R (Bracket.scope s x w).1 (Bracket.scope s' x w).1
  merge : ∀ {s s' w} x, R s s' → V w → R (Bracket.merge s x w).1 (Bracket.merge s' x w).1

/-- Going on in step, each run from its own stack. -/
theorem Run.Good.standsIn_andThen {G : Stack → Tree → Prop} {V : Tree → Prop} {r r' : Run}
    {next next' : Stack → Tree → Run} {stack stack' : Stack} (hr : r.Good G V)
    (hs : r.stack = stack) (hs' : r'.stack = stack') (ho : r.outcome.StandsIn r'.outcome)
    (hn : ∀ v, V v → (next stack v).outcome.StandsIn (next' stack' v).outcome) :
    (r.andThen next).outcome.StandsIn (r'.andThen next').outcome := by
  obtain ⟨outcome, _, log⟩ := r
  obtain ⟨outcome', _, log'⟩ := r'
  subst hs hs'
  cases outcome with
  | value v =>
      obtain rfl : outcome' = .value v := ho (by simp)
      exact hn v hr
  | fault f =>
      obtain rfl : outcome' = .fault f := ho (by simp)
      exact .refl _
  | tooDeep => exact fun h => absurd rfl h

namespace Invariant

variable {G : Stack → Tree → Prop} {V : Tree → Prop} (inv : Invariant G V)
  {R : Stack → Stack → Prop} (link : Linked G V R) {eval eval' : Evaluator}
  (hr : eval.Restores) (hr' : eval'.Restores)
  (hg : ∀ {s t}, G s t → (eval s t).Good G V)
  (he : ∀ {s s' t}, R s s' → G s t → (eval s t).outcome.StandsIn (eval' s' t).outcome)
include inv hr hr' hg he

theorem follows_applyTo {s s' : Stack} (hR : R s s') {f : Tree} {as : List Tree} (hf : G s f)
    (has : ∀ a ∈ as, G s a) :
    (Evaluation.applyTo eval s f as).outcome.StandsIn
      (Evaluation.applyTo eval' s' f as).outcome :=
  (hg hf).standsIn_andThen (hr s f) (hr' s' f) (he hR hf) fun _ hv => he hR (inv.applied hf hv has)

include link

theorem follows_define {s s' : Stack} (hR : R s s') {as : List Tree}
    (ht : G s (.app (.form .delta) as)) :
    (Evaluation.define eval s as).outcome.StandsIn (Evaluation.define eval' s' as).outcome := by
  rw [Evaluation.define.eq_def, Evaluation.define.eq_def eval']
  split
  · rename_i x v body rest
    have hv : G s v := inv.definedValue ht
    refine (hg hv).standsIn_andThen (hr s v) (hr' s' v) (he hR hv) fun w hw => ?_
    cases rest with
    | nil => exact he (link.scope x hR hw) (inv.definedBody ht hw)
    | cons c cs => exact he (link.merge x hR hw) (inv.definedCall ht (by simp) hw)
  · exact .refl _
  · exact .refl _

theorem follows_call {s s' : Stack} (hR : R s s') {p b a : Tree} {as : List Tree}
    (ht : G s (.app (.form .lambda) (p :: b :: a :: as))) :
    (Evaluation.call eval s p b a).outcome.StandsIn (Evaluation.call eval' s' p b a).outcome := by
  have ha : G s a := inv.argument ht (by simp)
  rw [Evaluation.call.eq_def, Evaluation.call.eq_def eval']
  split
  · rename_i x
    refine (hg ha).standsIn_andThen (hr s a) (hr' s' a) (he hR ha) fun w hw => ?_
    exact he (link.scope x hR hw) (inv.boundBody ht hw)
  · have hb : G s b := inv.plainBody ht (by simp)
    exact (hg ha).standsIn_andThen (hr s a) (hr' s' a) (he hR ha) fun _ _ => he hR hb
  · rename_i hsym _
    have hb : G s b := inv.plainBody ht hsym
    split
    · refine (hg ha).standsIn_andThen (hr s a) (hr' s' a) (he hR ha) fun actual _ => ?_
      split
      · exact he hR hb
      · exact .refl _
    · exact .refl _

theorem follows_function {s s' : Stack} (hR : R s s') {as : List Tree}
    (ht : G s (.app (.form .lambda) as)) :
    (Evaluation.function eval s as).outcome.StandsIn (Evaluation.function eval' s' as).outcome := by
  rw [Evaluation.function.eq_def, Evaluation.function.eq_def eval']
  split
  · exact .refl _
  · rename_i p b a rest
    have hcall : (Evaluation.call eval s p b a).Good G V := inv.call hr (fun ht => hg ht) ht
    refine hcall.standsIn_andThen (Evaluation.restores_call hr s p b a)
      (Evaluation.restores_call hr' s' p b a) (inv.follows_call link hr hr' hg he hR ht)
      fun v hv => ?_
    cases rest with
    | nil => exact .refl _
    | cons c cs =>
        refine he hR (inv.applied ht hv fun d hd => ?_)
        exact inv.argument ht (List.mem_cons_of_mem a hd)
  · exact .refl _

theorem follows_dispatch {s s' : Stack} (hR : R s s') {f : Form} {as : List Tree}
    (ht : G s (.app (.form f) as)) :
    (Evaluation.dispatch eval s f as).outcome.StandsIn
      (Evaluation.dispatch eval' s' f as).outcome := by
  have operand : f.binds = false → ∀ a ∈ as, G s a := fun hf a ha =>
    inv.operand ht (by simp) (fun g e => by cases e; exact hf) ha
  cases f with
  | delta => exact inv.follows_define link hr hr' hg he hR ht
  | lambda => exact inv.follows_function link hr hr' hg he hR ht
  | arrow | epsilon | omega => exact .refl _
  | iota =>
      have has := operand rfl
      match as, has with
      | [], _ => exact .refl _
      | [x], has => exact he hR (has x (by simp))
      | f :: a :: as, has =>
          exact inv.follows_applyTo hr hr' hg he hR (has f (by simp))
            fun b hb => has b (List.mem_cons_of_mem f hb)
  | ignore =>
      have has := operand rfl
      match as, has with
      | [], _ | [_], _ | [_, _], _ => exact .refl _
      | x :: f :: a :: as, has =>
          exact inv.follows_applyTo hr hr' hg he hR (has f (by simp))
            fun b hb => has b (List.mem_cons_of_mem x (List.mem_cons_of_mem f hb))

/-- **One reduction runs in step** if the evaluations inside it do. -/
theorem follows_reduce {s s' : Stack} (hR : R s s') {t : Tree} (ht : G s t) :
    (Evaluation.reduce eval s t).outcome.StandsIn (Evaluation.reduce eval' s' t).outcome := by
  cases t with
  | num | text | nil | form => exact .refl _
  | host h => cases h <;> exact .refl _
  | sym x =>
      rw [Evaluation.reduce, Evaluation.reduce, link.name hR ht]
      cases hx : s.lookup? x with
      | none => exact .refl _
      | some v => exact he hR (inv.bound ht hx)
  | app f as =>
      cases f with
      | num | text | nil | host => exact .refl _
      | form f => exact inv.follows_dispatch link hr hr' hg he hR ht
      | app f bs => exact he hR (inv.spliced ht)
      | sym x =>
          have hx : G s (.sym x) := inv.operator ht (by simp)
          refine (hg hx).standsIn_andThen (hr s _) (hr' s' _) (he hR hx) fun head hv => ?_
          refine he hR (inv.rebuilt ht hv fun a ha => ?_)
          exact inv.operand ht (by simp) (by simp) ha

omit hr hr' hg he in
/-- **Two evaluations run in step** on related stacks: the one with the smaller limit goes too deep,
or both have the same outcome. -/
theorem follows {limit limit' : Nat} (hlimit : limit ≤ limit') {s s' : Stack} (hR : R s s')
    {t : Tree} (ht : G s t) :
    (Curried.evaluate limit s t).outcome.StandsIn (Curried.evaluate limit' s' t).outcome := by
  induction limit generalizing limit' s s' t with
  | zero => exact fun h => absurd rfl h
  | succ limit ih =>
      obtain ⟨limit', rfl⟩ : ∃ n, limit' = n + 1 := Nat.exists_eq_succ_of_ne_zero (by omega)
      exact inv.follows_reduce link (restores_evaluate limit) (restores_evaluate limit')
        (fun ht => inv.evaluate limit ht) (fun hR ht => ih (Nat.le_of_succ_le_succ hlimit) hR ht)
        hR ht

end Invariant

/-! ### Names in reach -/

/-- A tree whose names are all in `N`, those included that it binds. -/
def Tree.NamesIn (N : String → Prop) : Tree → Prop := Leaves fun t => ∀ x, t = .sym x → N x

theorem Tree.namesIn_leaf {N : String → Prop} {t : Tree} (h : ∀ f as, t ≠ .app f as) :
    NamesIn N t ↔ ∀ x, t = .sym x → N x := leaves_leaf h

theorem Tree.namesIn_sym {N : String → Prop} {x : String} : NamesIn N (.sym x) ↔ N x := by
  simp [namesIn_leaf]

theorem Tree.namesIn_app {N : String → Prop} {f : Tree} {as : List Tree} :
    NamesIn N (.app f as) ↔ NamesIn N f ∧ ∀ a ∈ as, NamesIn N a := leaves_app

/-- All names are in the set of all names. -/
theorem Tree.namesIn_of_forall {N : String → Prop} (hN : ∀ x, N x) (t : Tree) : NamesIn N t := by
  induction t using byApp with
  | leaf t h => exact (namesIn_leaf h).mpr fun x _ => hN x
  | app f as hf has => exact namesIn_app.mpr ⟨hf, has⟩

/-- Evaluation brings in no names but those in reach. -/
theorem Tree.invariant_namesIn (N : String → Prop) :
    Invariant (fun s t => s.Keeps (NamesIn N) ∧ NamesIn N t) (NamesIn N) :=
  invariant_leaves (by simp) (by simp) (by simp)

namespace Stack

/-- Two stacks on which the names in `N` mean the same, or nothing. -/
def Agree (N : String → Prop) (s s' : Stack) : Prop := ∀ x, N x → s.lookup? x = s'.lookup? x

variable {N : String → Prop} {s s' : Stack}

theorem Agree.symm (h : s.Agree N s') : s'.Agree N s := fun x hx => (h x hx).symm

/-- What is bound on top of stacks that agree. -/
theorem Agree.bind {t t' : Stack} {x : String} {w : Tree} (h : s.Agree N s')
    (ht : ∀ y, t.lookup? y = if x = y then some w else s.lookup? y)
    (ht' : ∀ y, t'.lookup? y = if x = y then some w else s'.lookup? y) : t.Agree N t' := by
  intro y hy
  rw [ht, ht', h y hy]

/-- A stack holds names of `N` only if one that agrees with it does. -/
theorem Agree.keeps (h : s.Agree N s') (hs : s.Keeps (Tree.NamesIn N)) :
    s'.Keeps (Tree.NamesIn N) := by
  intro x v hx hv
  rw [← h x (Tree.namesIn_sym.mp hx)] at hv
  exact hs x v hx hv

/-- **Stacks that agree go on to agree**, however each of them is cut into frames. -/
theorem linked_agree (N : String → Prop) :
    Linked (fun s t => s.Keeps (Tree.NamesIn N) ∧ t.NamesIn N) (Tree.NamesIn N) (Agree N) where
  name h hx := (h _ (Tree.namesIn_sym.mp hx.2)).symm
  scope x h _ := h.bind (Bracket.lookup?_scope _ x _) (Bracket.lookup?_scope _ x _)
  merge x h _ := h.bind (Bracket.lookup?_merge _ x _) (Bracket.lookup?_merge _ x _)

/-- **Stacks that agree on what a tree reaches** give it the same outcome, within every limit. -/
theorem Agree.outcome (h : s.Agree N s') (hs : s.Keeps (Tree.NamesIn N)) {t : Tree}
    (ht : t.NamesIn N) (limit : Nat) :
    (evaluate limit s t).outcome = (evaluate limit s' t).outcome := by
  -- The limit is the same on both sides, so each evaluation follows the other.
  have inv := Tree.invariant_namesIn N
  exact (inv.follows (linked_agree N) le_rfl h ⟨hs, ht⟩).antisymm
    (inv.follows (linked_agree N) le_rfl h.symm ⟨h.keeps hs, ht⟩)

end Stack

/-- **An evaluation depends only on what its names reach.**  Let `N` have the names of a tree and
those in what the stack says about any name of `N`.  On every stack that agrees with this one on `N`
the tree has the same outcome, within every limit: the same value, the same fault, or too deep.

So it does not matter how a name comes to be bound for a body, in a frame of its own or in the
innermost one; afterwards the stack is the same again, too. -/
theorem outcome_of_reachable (limit : Nat) :
    (∀ (N : String → Prop) (e : Tree) (s s' : Stack), e.NamesIn N →
      (∀ x v, N x → s.lookup? x = some v → v.NamesIn N) →
      (∀ x, N x → s.lookup? x = s'.lookup? x) →
      (evaluate limit s e).outcome = (evaluate limit s' e).outcome) ∧
    ∀ (stack : Stack) (x : String) (v body : Tree),
      let framed := Run.within (Bracket.scope stack x v) fun s => evaluate limit s body
      let merged := Run.within (Bracket.merge stack x v) fun s => evaluate limit s body
      framed.outcome = merged.outcome ∧ framed.stack = stack ∧ merged.stack = stack := by
  constructor
  · intro N e s s' he hs hagree
    have hkeeps : s.Keeps (Tree.NamesIn N) := fun x v hx hv =>
      hs x v (Tree.namesIn_sym.mp hx) hv
    exact Stack.Agree.outcome hagree hkeeps he limit
  · intro stack x v body
    have hrestores := restores_evaluate limit
    refine ⟨?_, Run.stack_within_scope fun inner => hrestores inner _,
      Run.stack_within_merge fun inner => hrestores inner _⟩
    have hall : ∀ t : Tree, t.NamesIn fun _ => True := Tree.namesIn_of_forall fun _ => trivial
    have hagree : (Bracket.scope stack x v).1.Agree (fun _ => True) (Bracket.merge stack x v).1 := by
      intro y _
      rw [Bracket.lookup?_scope, Bracket.lookup?_merge]
    exact hagree.outcome (fun _ w _ _ => hall w) (hall body) limit

/-- `(δ y x f y)` binds `y` in the innermost frame.  On the first stack this covers a binding of that
frame; on the second it adds one to an empty frame.  The first also has a shadowed `x`, and the
second a name out of reach. -/
theorem outcome_of_reachable_merged :
    let e : Tree := .app (.form .delta) [.sym "y", .sym "x", .sym "f", .sym "y"]
    let f : Tree := .app (.form .lambda) [.sym "z", .sym "z"]
    let s : Stack := [[("y", .nil), ("x", .text "a")], [("x", .sym "w"), ("f", f)]]
    let s' : Stack := [[], [("f", f)], [("x", .text "a"), ("y", .nil), ("w", .sym "w")]]
    (evaluate 9 s e).outcome = .value (.text "a") ∧
      (evaluate 9 s e).outcome = (evaluate 9 s' e).outcome := by
  intro e f s s'
  refine ⟨rfl, (outcome_of_reachable 9).1 (· ∈ ["f", "x", "y", "z"]) e s s' ?_ ?_ ?_⟩
  · simp [e, Tree.namesIn_app, Tree.namesIn_leaf]
  · intro x v hx hv
    simp only [List.mem_cons, List.not_mem_nil, or_false] at hx
    rcases hx with rfl | rfl | rfl | rfl <;> cases hv <;>
      simp [f, Tree.namesIn_app, Tree.namesIn_leaf]
  · intro x hx
    simp only [List.mem_cons, List.not_mem_nil, or_false] at hx
    rcases hx with rfl | rfl | rfl | rfl <;> rfl

end Curried
