import Curried.Proofs.Limit
import Curried.Proofs.RoundTrip
import Curried.Proofs.Values
import Mathlib.Algebra.BigOperators.Ring.List
import Mathlib.Algebra.Order.BigOperators.Group.List

/-!
# Proofs — programs without functions end

An evaluation follows no structure of the tree: a definition puts values into its body, `ι` and `_`
build applications around the values of their operators, operators are spliced, and a name jumps to
what a frame holds.  Without `λ` there is a weight that all of this uses up.

* A name weighs three, any other leaf two, and an application one more than its parts
  (`Tree.weight`).  So a tree weighs at most three times the number of its nodes.
* Without `λ` the values are literals, `(ι)` and the bare `_`, and frames hold nothing else
  (`Tree.Settled`).  The heaviest of them is `(ι)`, which weighs as much as the name that it takes
  the place of (`Tree.weight_substitute_le`).
* Every tree that a reduction goes on with, and whatever it puts around a value, weighs less than the
  tree that is reduced; what a name stands for needs no further evaluation (`EndsUpTo.reduce`).

Hence the depth of an evaluation is at most the weight of its tree.
-/

namespace Curried

namespace Tree

/-! ### Weights -/

mutual

/-- What the leaves weigh, and one for each application. -/
def total (leaf : Tree → Nat) : Tree → Nat
  | .app f as => 1 + total leaf f + totalAll leaf as
  | t => leaf t

/-- What several trees weigh. -/
def totalAll (leaf : Tree → Nat) : List Tree → Nat
  | [] => 0
  | t :: ts => total leaf t + totalAll leaf ts

end

/-- The number of nodes: of leaves and of applications. -/
def size : Tree → Nat := total fun _ => 1

/-- The weight of a leaf. -/
def leafWeight : Tree → Nat
  | .sym _ => 3
  | _ => 2

/-- The weight of a tree. -/
def weight : Tree → Nat := total leafWeight

theorem totalAll_eq_sum (leaf : Tree → Nat) (ts : List Tree) :
    totalAll leaf ts = (ts.map (total leaf)).sum := by
  induction ts with
  | nil => rfl
  | cons t ts ih => simp [totalAll, ih]

theorem total_app (leaf : Tree → Nat) (f : Tree) (as : List Tree) :
    total leaf (.app f as) = 1 + total leaf f + (as.map (total leaf)).sum := by
  rw [total, totalAll_eq_sum]

theorem total_leaf (leaf : Tree → Nat) {t : Tree} (h : ∀ f as, t ≠ .app f as) :
    total leaf t = leaf t := by
  cases t with
  | app f as => exact absurd rfl (h f as)
  | num | text | nil | sym | form | host => rw [total]; simp

theorem weight_app (f : Tree) (as : List Tree) :
    weight (.app f as) = 1 + weight f + (as.map weight).sum := total_app leafWeight f as

theorem size_app (f : Tree) (as : List Tree) :
    size (.app f as) = 1 + size f + (as.map size).sum := total_app _ f as

theorem leafWeight_bounds (t : Tree) : 2 ≤ leafWeight t ∧ leafWeight t ≤ 3 := by
  cases t <;> simp [leafWeight]

/-- **A tree weighs at most three times the number of its nodes.** -/
theorem weight_le_size (t : Tree) : t.weight ≤ 3 * t.size := by
  induction t using byApp with
  | leaf t h =>
      rw [weight, size, total_leaf _ h, total_leaf _ h]
      exact (leafWeight_bounds t).2
  | app f as hf has =>
      have hsum : (as.map weight).sum ≤ 3 * (as.map size).sum := by
        rw [← List.sum_map_mul_left]
        exact List.sum_le_sum has
      rw [weight_app, size_app]
      omega

theorem two_le_weight (t : Tree) : 2 ≤ t.weight := by
  induction t using byApp with
  | leaf t h =>
      rw [weight, total_leaf _ h]
      exact (leafWeight_bounds t).1
  | app f as hf _ =>
      rw [weight_app]
      omega

theorem weight_substituteLeaf_le {x : String} {w t : Tree} (hw : w.weight ≤ 3) :
    (substituteLeaf x w t).weight ≤ t.weight := by
  unfold substituteLeaf
  split
  · split
    · exact hw
    · exact le_rfl
  · exact le_rfl

/-- **Substitution adds no weight** if the value weighs no more than a name. -/
theorem weight_substitute_le {x : String} {w : Tree} (hw : w.weight ≤ 3) (t : Tree) :
    (substitute x w t).weight ≤ t.weight := by
  induction t using byApp with
  | leaf t h =>
      rw [substitute_leaf h]
      exact weight_substituteLeaf_le hw
  | app f as _ ih =>
      rw [substitute_app]
      split
      · exact le_rfl
      · have hsum : ((as.map (substitute x w)).map weight).sum ≤ (as.map weight).sum := by
          rw [List.map_map]
          exact List.sum_le_sum ih
        have hop := weight_substituteLeaf_le (x := x) (t := f) hw
        rw [weight_app, weight_app]
        omega

theorem weight_substituteAll_le {x : String} {w : Tree} (hw : w.weight ≤ 3) (ts : List Tree) :
    ((substituteAll x w ts).map weight).sum ≤ (ts.map weight).sum := by
  rw [substituteAll_eq_map, List.map_map]
  exact List.sum_le_sum fun t _ => weight_substitute_le hw t

/-- Splicing adds no weight. -/
theorem weight_apply_le (f : Tree) (as : List Tree) : (f.apply as).weight ≤ (app f as).weight := by
  fun_induction apply f as with
  | case1 g bs as ih =>
      rw [weight_app, List.map_append, List.sum_append] at ih
      rw [weight_app, weight_app]
      omega
  | case2 f as _ => exact le_rfl

/-! ### Values without `λ` -/

/-- A tree in which `λ` occurs nowhere. -/
def FunctionFree : Tree → Prop := Leaves fun t => t ≠ .form .lambda

theorem functionFree_app {f : Tree} {as : List Tree} :
    FunctionFree (.app f as) ↔ FunctionFree f ∧ ∀ a ∈ as, FunctionFree a := leaves_app

theorem not_functionFree_lambda : ¬ FunctionFree (.form .lambda) :=
  fun h => (leaves_leaf (by simp)).mp h rfl

/-- Evaluation brings in no `λ`. -/
theorem invariant_functionFree :
    Invariant (fun s t => s.Keeps FunctionFree ∧ FunctionFree t) FunctionFree :=
  invariant_leaves (by simp) (by simp) (by simp)

/-- What an evaluation without `λ` can yield: a literal, `(ι)` or the bare `_`. -/
structure Settled (v : Tree) : Prop where
  free : FunctionFree v
  value : IsValue v

end Tree

/-- What the stack says about names are `P` trees. -/
def Stack.Holds (P : Tree → Prop) (stack : Stack) : Prop := ∀ x v, stack.lookup? x = some v → P v

/-- A `P` tree that is bound on top. -/
theorem Stack.Holds.bind {P : Tree → Prop} {stack stack' : Stack} {x : String} {w : Tree}
    (h : stack.Holds P) (hw : P w)
    (hlookup : ∀ y, stack'.lookup? y = if x = y then some w else stack.lookup? y) :
    stack'.Holds P := by
  intro y v hv
  rw [hlookup] at hv
  split at hv
  · cases hv
    exact hw
  · exact h y v hv

/-- A run that is not too deep. -/
def Run.Ends (r : Run) : Prop := r.outcome ≠ .tooDeep

/-- Going on ends if the first run ends, and what goes on with its value. -/
theorem Run.Ends.andThen {r : Run} {next : Stack → Tree → Run} (h : r.Ends)
    (hn : ∀ v, r.outcome = .value v → (next r.stack v).Ends) : (r.andThen next).Ends := by
  obtain ⟨outcome, stack, log⟩ := r
  cases outcome with
  | value v => exact hn v rfl
  | fault f => exact h
  | tooDeep => exact h

theorem Run.ends_value (stack : Stack) (v : Tree) : (Run.value stack v).Ends := nofun

theorem Run.ends_fault (stack : Stack) (f : Fault) : (Run.fault stack f).Ends := nofun

namespace Tree

theorem not_settled_function {p b : Tree} : ¬ Settled (.app (.form .lambda) [p, b]) :=
  fun h => not_functionFree_lambda (functionFree_app.mp h.free).1

/-- **No value without `λ` weighs more than a name.** -/
theorem Settled.weight_le {v : Tree} (h : v.Settled) : v.weight ≤ 3 := by
  cases h.value with
  | function p b => exact absurd h not_settled_function
  | num | text | nil | int | bool | iota | ignore => simp [weight, total, totalAll, leafWeight]

/-- A value in operator position, with its own operands in front. -/
theorem Settled.weight_rebuild {v : Tree} (h : v.Settled) (as : List Tree) :
    (Evaluation.rebuild v as).weight = 3 + (as.map weight).sum := by
  cases h.value with
  | function p b => exact absurd h not_settled_function
  | num | text | nil | int | bool | iota | ignore => exact weight_app _ as

/-- A value needs no evaluation inside its own. -/
theorem IsValue.ends {v : Tree} (h : v.IsValue) (limit : Nat) (stack : Stack) :
    (Curried.evaluate (limit + 1) stack v).Ends := by
  cases h with
  | num | text | nil | int | bool | function | iota | ignore => exact nofun

end Tree

/-- A stack with settled values holds no `λ`. -/
theorem Stack.Holds.keeps {stack : Stack} (h : stack.Holds Tree.Settled) :
    stack.Keeps Tree.FunctionFree := fun x v _ hv => (h x v hv).free

/-- **Without `λ` the values are settled.** -/
theorem Tree.FunctionFree.settled {limit : Nat} {stack : Stack} {t v : Tree} (ht : t.FunctionFree)
    (hs : stack.Holds Settled) (hv : (evaluate limit stack t).outcome = .value v) : v.Settled where
  free := invariant_functionFree.value ⟨hs.keeps, ht⟩ hv
  value := invariant_isValue.value trivial hv

/-! ### One reduction -/

/-- Under this limit the evaluation of every tree without `λ` that weighs no more ends, on every stack
with settled values. -/
def EndsUpTo (limit : Nat) : Prop :=
  ∀ {stack : Stack} {t : Tree}, stack.Holds Tree.Settled → t.FunctionFree → t.weight ≤ limit →
    (evaluate limit stack t).Ends

namespace EndsUpTo

variable {limit : Nat} (h : EndsUpTo limit) {stack : Stack} (hs : stack.Holds Tree.Settled)
include h hs

/-- Going on with the value of a tree. -/
theorem andThen {t : Tree} (ht : t.FunctionFree) (hw : t.weight ≤ limit)
    {next : Stack → Tree → Run} (hn : ∀ v, v.Settled → (next stack v).Ends) :
    ((evaluate limit stack t).andThen next).Ends := by
  refine (h hs ht hw).andThen fun v hv => ?_
  rw [restores_evaluate limit stack t]
  exact hn v (ht.settled hs hv)

/-- A value takes the place of the operator that it is the value of.  It may weigh more than the
operator did, but no more than the operator and the application around it. -/
theorem applyTo {f : Tree} {as : List Tree} (hf : f.FunctionFree) (has : ∀ a ∈ as, a.FunctionFree)
    (hw : 2 + f.weight + (as.map Tree.weight).sum ≤ limit) :
    (Evaluation.applyTo (evaluate limit) stack f as).Ends := by
  have htwo := f.two_le_weight
  refine h.andThen hs hf (by omega) fun v hv => ?_
  have hthree := hv.weight_le
  refine h hs (Tree.functionFree_app.mpr ⟨hv.free, has⟩) ?_
  rw [Tree.weight_app]
  omega

theorem define {as : List Tree} (ht : Tree.FunctionFree (.app (.form .delta) as))
    (hw : 2 + (as.map Tree.weight).sum ≤ limit) :
    (Evaluation.define (evaluate limit) stack as).Ends := by
  have inv := Tree.invariant_functionFree
  unfold Evaluation.define
  split
  · rename_i x v body rest
    simp only [List.map_cons, List.sum_cons] at hw
    have hv : v.FunctionFree := (inv.definedValue ⟨hs.keeps, ht⟩).2
    refine h.andThen hs hv (by omega) fun w hset => ?_
    have hbody := Tree.weight_substitute_le (x := x) hset.weight_le body
    have hrest := Tree.weight_substituteAll_le (x := x) hset.weight_le rest
    split
    · refine h (hs.bind hset (Bracket.lookup?_scope stack x w)) ?_ (by omega)
      exact (inv.definedBody ⟨hs.keeps, ht⟩ hset.free).2
    · refine h (hs.bind hset (Bracket.lookup?_merge stack x w)) ?_ ?_
      · exact (inv.definedCall ⟨hs.keeps, ht⟩ ‹_› hset.free).2
      · rw [Tree.weight_app]
        omega
  · exact Run.ends_fault _ _
  · exact Run.ends_fault _ _

theorem dispatch {f : Form} {as : List Tree} (ht : Tree.FunctionFree (.app (.form f) as))
    (hw : 2 + (as.map Tree.weight).sum ≤ limit) :
    (Evaluation.dispatch (evaluate limit) stack f as).Ends := by
  obtain ⟨hf, has⟩ := Tree.functionFree_app.mp ht
  cases f with
  | delta => exact h.define hs ht hw
  | lambda => exact absurd hf Tree.not_functionFree_lambda
  | arrow | epsilon => exact Run.ends_fault _ _
  | omega => exact Run.ends_value _ _
  | iota =>
      match as, has, hw with
      | [], _, _ => exact Run.ends_value _ _
      | [x], has, hw =>
          simp only [List.map_cons, List.sum_cons] at hw
          exact h hs (has x (by simp)) (by omega)
      | f :: a :: as, has, hw =>
          rw [List.map_cons, List.sum_cons] at hw
          exact h.applyTo hs (has f (by simp)) (fun b hb => has b (List.mem_cons_of_mem f hb))
            (by omega)
  | ignore =>
      match as, has, hw with
      | [], _, _ | [_], _, _ | [_, _], _, _ => exact Run.ends_value _ _
      | x :: f :: a :: as, has, hw =>
          rw [List.map_cons, List.map_cons, List.sum_cons, List.sum_cons] at hw
          exact h.applyTo hs (has f (by simp))
            (fun b hb => has b (List.mem_cons_of_mem x (List.mem_cons_of_mem f hb))) (by omega)

/-- **One reduction ends** for what weighs one more than what the evaluations inside it end for. -/
theorem reduce {t : Tree} (ht : t.FunctionFree) (hw : t.weight ≤ limit + 1) :
    (Evaluation.reduce (evaluate limit) stack t).Ends := by
  have inv := Tree.invariant_functionFree
  cases t with
  | num | text | nil => exact Run.ends_value _ _
  | form => exact Run.ends_fault _ _
  | host value => cases value <;> exact nofun
  | sym x =>
      rw [Evaluation.reduce]
      cases hx : stack.lookup? x with
      | none => exact Run.ends_fault _ _
      | some v =>
          -- The value may weigh as much as the name, but it is evaluated in one step.
          have hthree : Tree.weight (.sym x) = 3 := rfl
          obtain ⟨below, rfl⟩ : ∃ n, limit = n + 1 := Nat.exists_eq_succ_of_ne_zero (by omega)
          exact (hs x v hx).value.ends below stack
  | app f as =>
      rw [Tree.weight_app] at hw
      cases f with
      | num | text | nil | host => exact Run.ends_fault _ _
      | form f =>
          have htwo : Tree.weight (.form f) = 2 := rfl
          exact h.dispatch hs ht (by omega)
      | app f bs =>
          have happly := Tree.weight_apply_le f (bs ++ as)
          rw [Tree.weight_app, List.map_append, List.sum_append] at happly
          rw [Tree.weight_app] at hw
          refine h hs (inv.spliced ⟨hs.keeps, ht⟩).2 ?_
          rw [Tree.apply]
          omega
      | sym x =>
          obtain ⟨hx, has⟩ := Tree.functionFree_app.mp ht
          have hthree : Tree.weight (.sym x) = 3 := rfl
          refine h.andThen hs hx (by omega) fun head hset => h hs ?_ ?_
          · exact (inv.rebuilt ⟨hs.keeps, ht⟩ hset.free fun a ha => ⟨hs.keeps, has a ha⟩).2
          · rw [hset.weight_rebuild]
            omega

end EndsUpTo

/-- **Under a limit, everything ends that weighs no more.** -/
theorem endsUpTo (limit : Nat) : EndsUpTo limit := by
  induction limit with
  | zero =>
      intro stack t _ _ hw
      have htwo := t.two_le_weight
      omega
  | succ limit ih => exact fun hs ht hw => ih.reduce hs ht hw

/-- **Programs without functions end.**  The evaluation of a tree in which `λ` occurs nowhere, on an
empty stack, ends as some run, with a value or a fault, and with at most three times as many
evaluations inside each other as the tree has nodes: a limit below its depth is exceeded, and every
other limit gives this run. -/
theorem ends_without_functions {e : Tree} (h : e.FunctionFree) :
    ∃ r depth, EndsAs [] e r depth ∧ depth ≤ 3 * e.size := by
  have hempty : Stack.Holds Tree.Settled [] := fun x v hv => nomatch hv
  obtain ⟨r, depth, hends, hdepth⟩ := exists_endsAs (endsUpTo e.weight hempty h le_rfl)
  exact ⟨r, depth, hends, hdepth.trans e.weight_le_size⟩

/-- In `(δ x (ι) x x "a")` the name is an operator and an operand of the call that it is defined for;
it takes the place of both, and the two applications of `(ι)` are spliced. -/
theorem ends_without_functions_spliced :
    let e : Tree := .app (.form .delta)
      [.sym "x", .app (.form .iota) [], .sym "x", .sym "x", .text "a"]
    e.FunctionFree ∧ e.size = 8 ∧ (evaluate 5 [] e).outcome = .tooDeep ∧
      (evaluate 6 [] e).outcome = .value (.text "a") ∧
      ∃ r depth, EndsAs [] e r depth ∧ depth ≤ 24 := by
  intro e
  have hfree : e.FunctionFree := by
    simp [e, Tree.FunctionFree, Tree.leaves_app, Tree.leaves_leaf]
  exact ⟨hfree, rfl, rfl, rfl, ends_without_functions hfree⟩

end Curried
