import Curried.Event
import Curried.Stack.Bracket
import Curried.Tree.Substitution

/-!
# Evaluation

A tree is reduced to a value on a stack of frames.  A binding has two effects: the value replaces
the name in the body, and a frame keeps it while the body is reduced.  In order of priority:

1. a name is looked up, and what it is bound to is reduced;
2. a literal is its own value;
3. an application of a form is reduced by the form's rule;
4. an application in operator position is spliced;
5. a name in operator position is reduced, and the application rebuilt around its value.

`reduce` is one step of this, in terms of an evaluator for the steps inside it; `evaluate` ties the
knot, up to a limit on the depth of nesting.  Every rule releases what it binds, whether its body
yields a value or not.
-/

namespace Curried

/-- How an evaluation ends. -/
inductive Outcome where
  | value (v : Tree)
  | fault (f : Fault)
  | tooDeep

/-- An evaluation: how it ends, the stack it leaves, and the log. -/
structure Run where
  outcome : Outcome
  stack : Stack
  log : List Event

/-- Evaluates a tree on a stack. -/
abbrev Evaluator := Stack → Tree → Run

namespace Run

/-- Ends with a value. -/
def value (stack : Stack) (v : Tree) : Run := ⟨.value v, stack, []⟩

/-- Ends with a fault. -/
def fault (stack : Stack) (f : Fault) : Run := ⟨.fault f, stack, []⟩

/-- Goes on with the value of `r`, if it has one. -/
def andThen (r : Run) (next : Stack → Tree → Run) : Run :=
  match r.outcome with
  | .value v =>
    let r' := next r.stack v
    { r' with log := r.log ++ r'.log }
  | _ => r

/-- Puts an entry in front of the log. -/
def noting (e : Event) (r : Run) : Run := { r with log := e :: r.log }

/-- Runs `body` under a binding, and releases it.  For a body that goes too deep this is idealised:
releasing needs room itself, and where none is left the binding may stay.  That is why the shell
drops all frames then. -/
def within (bound : Stack × Bracket) (body : Stack → Run) : Run :=
  let r := body bound.1
  { r with stack := bound.2.release r.stack }

end Run

namespace Evaluation

/-- Reduces an operator and applies the value. -/
def applyTo (eval : Evaluator) (stack : Stack) (operator : Tree) (operands : List Tree) : Run :=
  (eval stack operator).andThen fun stack f => eval stack (.app f operands)

/-- `(δ x v b)` reduces `b` with `x` bound to the value of `v` in a frame of its own, and
`(δ x v f a …)` reduces `(f a …)` with `x` bound in the innermost frame. -/
def define (eval : Evaluator) (stack : Stack) : List Tree → Run
  | .sym x :: v :: body :: rest =>
    (eval stack v).andThen fun stack v =>
      match rest with
      | [] => Run.within (Bracket.scope stack x v) fun stack => eval stack (Tree.substitute x v body)
      | _ => Run.within (Bracket.merge stack x v) fun stack =>
          eval stack (.app (Tree.substitute x v body) (Tree.substituteAll x v rest))
  | name :: _ :: _ :: _ => Run.fault stack (.showing [name] (.badName name))
  | operands => Run.fault stack (.defineArity operands.length)

/-- Gives a function with this parameter and body its argument: a name is bound, `_` discards the
argument, and a literal has to equal it. -/
def call (eval : Evaluator) (stack : Stack) (parameter body argument : Tree) : Run :=
  match parameter with
  | .sym x =>
    (eval stack argument).andThen fun stack v =>
      Run.within (Bracket.scope stack x v) fun stack => eval stack (Tree.substitute x v body)
  | .form .ignore => (eval stack argument).andThen fun stack _ => eval stack body
  | _ =>
    if parameter.isLiteral then
      (eval stack argument).andThen fun stack actual =>
        if parameter.accepts actual then eval stack body
        else Run.fault stack (.showing [parameter, actual] (.mismatch parameter actual))
    else Run.fault stack (.showing [parameter] (.badParameter parameter))

/-- `(λ p b)` is a function and its own value; further operands are its arguments, taken one after
the other. -/
def function (eval : Evaluator) (stack : Stack) : List Tree → Run
  | [parameter, body] => Run.value stack (.app (.form .lambda) [parameter, body])
  | parameter :: body :: argument :: rest =>
    (call eval stack parameter body argument).andThen fun stack result =>
      match rest with
      | [] => Run.value stack result
      | _ => eval stack (.app result rest)
  | operands => Run.fault stack (.functionArity operands.length)

/-- `(ι)` is its own value, `(ι x)` is `x`, and `(ι f a …)` applies `f`. -/
def identity (eval : Evaluator) (stack : Stack) : List Tree → Run
  | [] => Run.value stack (.app (.form .iota) [])
  | [x] => eval stack x
  | f :: operands => applyTo eval stack f operands

/-- `(_)` is the bare form, `(_ x)` and `(_ x y)` are nil, and `(_ x f a …)` applies `f`. -/
def ignore (eval : Evaluator) (stack : Stack) : List Tree → Run
  | [] => Run.value stack (.form .ignore)
  | [_] | [_, _] => Run.value stack .nil
  | _ :: f :: operands => applyTo eval stack f operands

/-- The rule of a form. -/
def dispatch (eval : Evaluator) (stack : Stack) (form : Form) (operands : List Tree) : Run :=
  match form with
  | .delta => define eval stack operands
  | .lambda => function eval stack operands
  | .arrow => Run.fault stack .reservedArrow
  | .epsilon => Run.fault stack .reservedExternal
  | .iota => identity eval stack operands
  | .ignore => ignore eval stack operands
  | .omega => Run.value stack .nil

/-- The application of what a name in operator position stands for. -/
def rebuild (head : Tree) (operands : List Tree) : Tree :=
  match head with
  | .app f as => .app f (as ++ operands)
  | f => .app f operands

/-- One reduction, with `eval` for those inside it. -/
def reduce (eval : Evaluator) (stack : Stack) : Tree → Run
  | .sym x => match stack.lookup? x with
    | some v => eval stack v
    | none => Run.fault stack (.unbound x)
  | .form f => Run.fault stack (.bareForm f)
  | .host .absent => Run.fault stack .noValue
  | .app (.form f) as => (dispatch eval stack f as).noting (.dispatched f as.length)
  | .app (.app f as) bs => eval stack ((Tree.app f as).apply bs)
  | .app (.sym x) as =>
    (eval stack (.sym x)).andThen fun stack head => eval stack (rebuild head as)
  | .app f _ => Run.fault stack (.showing [f] (.notFunction f))
  | literal => Run.value stack literal

end Evaluation

/-- Evaluates a tree with at most `limit` evaluations inside each other. -/
def evaluate : Nat → Evaluator
  | 0 => fun stack _ => ⟨.tooDeep, stack, []⟩
  | limit + 1 => Evaluation.reduce (evaluate limit)

end Curried
