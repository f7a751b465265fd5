import Curried.Evaluation
import Curried.Files
import Curried.Tree.Parser

/-!
# Session

Source texts evaluated one after the other on one stack.  A text is lexed as a whole; then its
expressions are read and evaluated in turn, and the value of the last one is the value of the text.
So a lexical fault anywhere comes first, and a fault in evaluating an expression comes before a
fault in reading a later one.
-/

namespace Curried.Session

/-- Evaluates one expression and records its value. -/
def evalTree (limit : Nat) (stack : Stack) (tree : Tree) : Run :=
  (evaluate limit stack tree).andThen fun stack v => (Run.value stack v).noting (.evaluated v)

/-- Evaluates expressions in turn; `last` is the value if there are none. -/
def evalAll (limit : Nat) (stack : Stack) (last : Tree) : List Tree → Run
  | [] => Run.value stack last
  | tree :: trees =>
    ((evalTree limit stack tree).noting (.parsed tree)).andThen fun stack v =>
      evalAll limit stack v trees

/-- Evaluates a source text.  A text without expressions is nil. -/
def eval (limit : Nat) (stack : Stack) (source : String) : Run :=
  match (lex source).result with
  | .error f => Run.fault stack f
  | .ok tokens =>
    let readings := Tree.readAll tokens
    (evalAll limit stack .nil readings.trees).andThen fun stack v =>
      match readings.fault? with
      | some f => Run.fault stack f
      | none => Run.value stack v

/-- Finds the file that a text names and gives its text to `eval`. -/
def loadBy (eval : Stack → String → Run) (files : Files) (stack : Stack) (path : String) : Run :=
  match files.find path with
  | .error f => Run.fault stack f
  | .ok found =>
    Run.noting (.loading found.path.text) <|
      match found.text with
      | .error f => Run.fault stack f
      | .ok source => eval stack source

/-- Evaluates the file that a text names. -/
def load (limit : Nat) : Files → Stack → String → Run := loadBy (eval limit)

end Curried.Session
