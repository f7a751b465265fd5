import Curried.Session

/-!
# Proofs — the limit

The limit on the depth of an evaluation decides whether there is an answer, and not which one.  A run
that is too deep may become any other run under a greater limit; every other run stays as it is, with
its outcome, its stack and its log (`Run.StandsIn`).

No rule looks at whether a run inside it was too deep, except to be too deep itself.  That is one fact
about going on (`Run.StandsIn.andThen`), and from it every rule keeps the relation, so one reduction
does (`standsIn_reduce`), and by induction on the smaller limit so does `evaluate`.  Texts and files
are evaluated by going on, too.

So an evaluation that ends at all has a depth: the least limit that it does not exceed
(`exists_endsAs`).
-/

namespace Curried

/-- The run `r'` is `r`, unless `r` is too deep. -/
def Run.StandsIn (r r' : Run) : Prop := r.outcome ≠ .tooDeep → r' = r

/-- What the one evaluator yields stands in what the other yields. -/
def Evaluator.StandsIn (eval eval' : Evaluator) : Prop :=
  ∀ stack t, (eval stack t).StandsIn (eval' stack t)

namespace Run.StandsIn

theorem refl (r : Run) : r.StandsIn r := fun _ => rfl

/-- **Going on, on both sides.**  The run that goes on is too deep if the first one is. -/
theorem andThen {r r' : Run} {next next' : Stack → Tree → Run} (h : r.StandsIn r')
    (hn : ∀ stack v, (next stack v).StandsIn (next' stack v)) :
    (r.andThen next).StandsIn (r'.andThen next') := by
  intro hne
  obtain ⟨outcome, stack, log⟩ := r
  cases outcome with
  | tooDeep => exact absurd rfl hne
  | fault f =>
      obtain rfl := h (by simp)
      rfl
  | value v =>
      obtain rfl := h (by simp)
      have hnext : next' stack v = next stack v := hn stack v hne
      simp only [Run.andThen, hnext]

theorem noting {r r' : Run} (h : r.StandsIn r') (e : Event) : (r.noting e).StandsIn (r'.noting e) :=
  fun hne => congrArg (Run.noting e) (h hne)

theorem within {bound : Stack × Bracket} {body body' : Stack → Run}
    (h : (body bound.1).StandsIn (body' bound.1)) :
    (Run.within bound body).StandsIn (Run.within bound body') := by
  intro hne
  simp only [Run.within, h hne]

end Run.StandsIn

/-! ### One reduction -/

namespace Evaluation

variable {eval eval' : Evaluator} (h : eval.StandsIn eval')
include h

theorem standsIn_applyTo (stack : Stack) (f : Tree) (as : List Tree) :
    (applyTo eval stack f as).StandsIn (applyTo eval' stack f as) :=
  (h stack f).andThen fun stack v => h stack (.app v as)

theorem standsIn_define (stack : Stack) (operands : List Tree) :
    (define eval stack operands).StandsIn (define eval' stack operands) := by
  rw [define.eq_def, define.eq_def eval']
  split
  · rename_i x v body rest
    refine (h stack v).andThen fun stack w => ?_
    cases rest with
    | nil => exact .within (h _ _)
    | cons c cs => exact .within (h _ _)
  · exact .refl _
  · exact .refl _

theorem standsIn_call (stack : Stack) (parameter body argument : Tree) :
    (call eval stack parameter body argument).StandsIn
      (call eval' stack parameter body argument) := by
  rw [call.eq_def, call.eq_def eval']
  split
  · exact (h stack argument).andThen fun stack w => .within (h _ _)
  · exact (h stack argument).andThen fun stack _ => h stack body
  · split
    · refine (h stack argument).andThen fun stack actual => ?_
      split
      · exact h stack body
      · exact .refl _
    · exact .refl _

theorem standsIn_function (stack : Stack) (operands : List Tree) :
    (function eval stack operands).StandsIn (function eval' stack operands) := by
  rw [function.eq_def, function.eq_def eval']
  split
  · exact .refl _
  · rename_i parameter body argument rest
    refine (standsIn_call h stack parameter body argument).andThen fun stack result => ?_
    cases rest with
    | nil => exact .refl _
    | cons c cs => exact h stack _
  · exact .refl _

theorem standsIn_dispatch (stack : Stack) (form : Form) (operands : List Tree) :
    (dispatch eval stack form operands).StandsIn (dispatch eval' stack form operands) := by
  cases form with
  | delta => exact standsIn_define h stack operands
  | lambda => exact standsIn_function h stack operands
  | arrow | epsilon | omega => exact .refl _
  | iota =>
      match operands with
      | [] => exact .refl _
      | [x] => exact h stack x
      | f :: a :: as => exact standsIn_applyTo h stack f (a :: as)
  | ignore =>
      match operands with
      | [] | [_] | [_, _] => exact .refl _
      | x :: f :: a :: as => exact standsIn_applyTo h stack f (a :: as)

/-- **One reduction stands in the other** if the evaluations inside it do. -/
theorem standsIn_reduce : Evaluator.StandsIn (reduce eval) (reduce eval') := by
  intro stack t
  cases t with
  | num | text | nil | form => exact .refl _
  | host value => cases value <;> exact .refl _
  | sym x =>
      rw [reduce, reduce]
      cases stack.lookup? x with
      | none => exact .refl _
      | some v => exact h stack v
  | app f as =>
      cases f with
      | num | text | nil | host => exact .refl _
      | form f => exact (standsIn_dispatch h stack f as).noting _
      | app f bs => exact h stack _
      | sym x => exact (h stack _).andThen fun stack head => h stack _

end Evaluation

/-- **A greater limit changes nothing** about an evaluation that is not too deep. -/
theorem standsIn_evaluate {limit limit' : Nat} (hlimit : limit ≤ limit') :
    Evaluator.StandsIn (evaluate limit) (evaluate limit') := by
  induction limit generalizing limit' with
  | zero => exact fun stack t hne => absurd rfl hne
  | succ limit ih =>
      obtain ⟨limit', rfl⟩ : ∃ n, limit' = n + 1 := Nat.exists_eq_succ_of_ne_zero (by omega)
      exact Evaluation.standsIn_reduce (ih (Nat.le_of_succ_le_succ hlimit))

/-! ### The depth of an evaluation -/

/-- The evaluation of `t` ends as the run `r`, and `depth` is how many evaluations are inside each
other in it: every smaller limit is exceeded, and every other one gives `r`. -/
structure EndsAs (stack : Stack) (t : Tree) (r : Run) (depth : Nat) : Prop where
  ends : r.outcome ≠ .tooDeep
  exceeded : ∀ limit, limit < depth → (evaluate limit stack t).outcome = .tooDeep
  reached : ∀ limit, depth ≤ limit → evaluate limit stack t = r

/-- **An evaluation that ends has a depth**, which is at most any limit that it does not exceed. -/
theorem exists_endsAs {limit : Nat} {stack : Stack} {t : Tree}
    (h : (evaluate limit stack t).outcome ≠ .tooDeep) :
    ∃ r depth, EndsAs stack t r depth ∧ depth ≤ limit := by
  induction limit with
  | zero => exact absurd rfl h
  | succ limit ih =>
      by_cases hlimit : (evaluate limit stack t).outcome = .tooDeep
      · -- The limit before is exceeded, and so are those below it.
        have hbelow : ∀ n, n < limit + 1 → (evaluate n stack t).outcome = .tooDeep := fun n hn =>
          Classical.byContradiction fun hne => by
            have hsame := standsIn_evaluate (Nat.le_of_lt_succ hn) stack t hne
            exact hne (hsame ▸ hlimit)
        exact ⟨_, limit + 1, ⟨h, hbelow, fun n hn => standsIn_evaluate hn stack t h⟩, Nat.le_refl _⟩
      · obtain ⟨r, depth, hends, hdepth⟩ := ih hlimit
        exact ⟨r, depth, hends, Nat.le_succ_of_le hdepth⟩

/-! ### Texts and files -/

namespace Session

variable {limit limit' : Nat} (hlimit : limit ≤ limit')
include hlimit

theorem standsIn_evalAll (stack : Stack) (last : Tree) (trees : List Tree) :
    (evalAll limit stack last trees).StandsIn (evalAll limit' stack last trees) := by
  induction trees generalizing stack last with
  | nil => exact .refl _
  | cons t trees ih =>
      have hone : (evalTree limit stack t).StandsIn (evalTree limit' stack t) :=
        (standsIn_evaluate hlimit stack t).andThen fun _ _ => .refl _
      exact (hone.noting _).andThen fun stack v => ih stack v

/-- **A text that is not too deep** is evaluated in the same way under a greater limit. -/
theorem standsIn_eval (stack : Stack) (source : String) :
    (eval limit stack source).StandsIn (eval limit' stack source) := by
  unfold eval
  split
  · exact .refl _
  · exact (standsIn_evalAll hlimit stack .nil _).andThen fun _ _ => .refl _

/-- So is a file. -/
theorem standsIn_load (files : Files) (stack : Stack) (path : String) :
    (load limit files stack path).StandsIn (load limit' files stack path) := by
  unfold load loadBy
  split
  · exact .refl _
  · refine Run.StandsIn.noting ?_ _
    split
    · exact .refl _
    · exact standsIn_eval hlimit stack _

end Session

/-- **The limit decides whether there is an answer, and not which one.**  Take a tree, a text or a
file, a stack and two limits.  If the evaluation under the smaller limit is not too deep, the
evaluation under the greater one is the same: it ends with the same value or the same fault, hence
the same message, leaves the same stack, and has written the same log. -/
theorem limit_decides_whether {limit limit' : Nat} (hlimit : limit ≤ limit') (stack : Stack) :
    (∀ t, (evaluate limit stack t).outcome ≠ .tooDeep →
      evaluate limit' stack t = evaluate limit stack t) ∧
    (∀ source, (Session.eval limit stack source).outcome ≠ .tooDeep →
      Session.eval limit' stack source = Session.eval limit stack source) ∧
    ∀ files path, (Session.load limit files stack path).outcome ≠ .tooDeep →
      Session.load limit' files stack path = Session.load limit files stack path :=
  ⟨standsIn_evaluate hlimit stack, Session.standsIn_eval hlimit stack,
    fun files path => Session.standsIn_load hlimit files stack path⟩

/-- `(δ f (λ x (x x)) f (ι))` takes six evaluations inside each other, and leaving room for more of them
gives the same run. -/
theorem limit_decides_whether_doubled :
    let e : Tree := .app (.form .delta) [.sym "f",
      .app (.form .lambda) [.sym "x", .app (.sym "x") [.sym "x"]], .sym "f", .app (.form .iota) []]
    (evaluate 5 [] e).outcome = .tooDeep ∧
      (evaluate 6 [] e).outcome = .value (.app (.form .iota) []) ∧
      evaluate 10000 [] e = evaluate 6 [] e := by
  intro e
  have hsix : (evaluate 6 [] e).outcome = .value (.app (.form .iota) []) := rfl
  exact ⟨rfl, hsix, (limit_decides_whether (by decide) []).1 e (by simp [hsix])⟩

end Curried
