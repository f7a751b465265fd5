import Curried.Evaluation

/-!
# Proofs — every binding is released

An evaluation binds names in three places: a `δ` with one body opens a scope, a `δ` with a call
merges into the innermost frame, and a function opens a scope for its parameter.  Whatever happens
under the binding, the stack that comes out is the stack that went in: the same frames, and in each
of them the same names in the same order with the same values.

The argument follows the evaluator.  A rule *restores* if it leaves the stack as it found it,
provided that the evaluator for the steps inside it does (`Evaluator.Restores`).  Every rule does,
so one reduction does (`restores_reduce`), and by induction on the limit so does `evaluate`.
-/

namespace Curried

/-- An evaluator that leaves every stack as it found it, however it ends. -/
def Evaluator.Restores (eval : Evaluator) : Prop :=
  ∀ stack t, (eval stack t).stack = stack

namespace Run

@[simp] theorem stack_value (stack : Stack) (v : Tree) : (value stack v).stack = stack := rfl

@[simp] theorem stack_fault (stack : Stack) (f : Fault) : (fault stack f).stack = stack := rfl

@[simp] theorem stack_noting (e : Event) (r : Run) : (r.noting e).stack = r.stack := rfl

/-- Going on restores if the first run does and, from there, the second. -/
theorem stack_andThen {r : Run} {next : Stack → Tree → Run} {stack : Stack}
    (hr : r.stack = stack) (hn : ∀ v, (next stack v).stack = stack) :
    (r.andThen next).stack = stack := by
  obtain ⟨outcome, _, log⟩ := r
  subst hr
  cases outcome with
  | value v => exact hn v
  | fault f => rfl
  | tooDeep => rfl

/-- A scope is closed after its body. -/
theorem stack_within_scope {stack : Stack} {x : String} {v : Tree} {body : Stack → Run}
    (h : ∀ inner, (body inner).stack = inner) :
    (within (Bracket.scope stack x v) body).stack = stack := by
  simp only [within, h]
  exact Bracket.release_scope stack x v

/-- A merged binding is undone after its body. -/
theorem stack_within_merge {stack : Stack} {x : String} {v : Tree} {body : Stack → Run}
    (h : ∀ inner, (body inner).stack = inner) :
    (within (Bracket.merge stack x v) body).stack = stack := by
  simp only [within, h]
  exact Bracket.release_merge stack x v

end Run

namespace Evaluation

variable {eval : Evaluator} (h : eval.Restores)
include h

theorem restores_applyTo (stack : Stack) (f : Tree) (as : List Tree) :
    (applyTo eval stack f as).stack = stack :=
  Run.stack_andThen (h stack f) fun v => h stack (.app v as)

theorem restores_define (stack : Stack) (operands : List Tree) :
    (define eval stack operands).stack = stack := by
  unfold define
  split
  · rename_i x v body rest
    refine Run.stack_andThen (h stack v) fun w => ?_
    -- The two brackets restore for different reasons: a frame is popped, a binding is put back.
    split
    · exact Run.stack_within_scope fun inner => h inner _
    · exact Run.stack_within_merge fun inner => h inner _
  · rfl
  · rfl

theorem restores_call (stack : Stack) (parameter body argument : Tree) :
    (call eval stack parameter body argument).stack = stack := by
  unfold call
  split
  · refine Run.stack_andThen (h stack argument) fun w => ?_
    exact Run.stack_within_scope fun inner => h inner _
  · exact Run.stack_andThen (h stack argument) fun _ => h stack body
  · split
    · refine Run.stack_andThen (h stack argument) fun actual => ?_
      split
      · exact h stack body
      · rfl
    · rfl

theorem restores_function (stack : Stack) (operands : List Tree) :
    (function eval stack operands).stack = stack := by
  unfold function
  split
  · rfl
  · rename_i parameter body argument rest
    refine Run.stack_andThen (restores_call h stack parameter body argument) fun result => ?_
    split
    · rfl
    · exact h stack _
  · rfl

theorem restores_identity (stack : Stack) (operands : List Tree) :
    (identity eval stack operands).stack = stack := by
  unfold identity
  split
  · rfl
  · exact h stack _
  · exact restores_applyTo h stack _ _

theorem restores_ignore (stack : Stack) (operands : List Tree) :
    (ignore eval stack operands).stack = stack := by
  unfold ignore
  split
  · rfl
  · rfl
  · rfl
  · exact restores_applyTo h stack _ _

theorem restores_dispatch (stack : Stack) (form : Form) (operands : List Tree) :
    (dispatch eval stack form operands).stack = stack := by
  cases form with
  | delta => exact restores_define h stack operands
  | lambda => exact restores_function h stack operands
  | iota => exact restores_identity h stack operands
  | ignore => exact restores_ignore h stack operands
  | arrow | epsilon | omega => rfl

/-- **One reduction restores** if the evaluations inside it do. -/
theorem restores_reduce : Evaluator.Restores (reduce eval) := by
  intro stack t
  unfold reduce
  split
  · split
    · exact h stack _
    · rfl
  · rfl
  · rfl
  · exact restores_dispatch h stack _ _
  · exact h stack _
  · exact Run.stack_andThen (h stack _) fun head => h stack _
  · rfl
  · rfl

end Evaluation

/-- **Every evaluation restores**, at every limit. -/
theorem restores_evaluate (limit : Nat) : Evaluator.Restores (evaluate limit) := by
  induction limit with
  | zero => intro stack t; rfl
  | succ limit ih => exact Evaluation.restores_reduce ih

/-- **The stack afterwards is the stack before.**  For every tree, every stack and every limit the
evaluation leaves exactly the frames it found, whether it ends with a value or with a fault,
and wherever in the tree the fault arose. -/
theorem evaluation_keeps_stack (limit : Nat) (stack : Stack) (t : Tree) :
    (evaluate limit stack t).stack = stack :=
  restores_evaluate limit stack t

end Curried
