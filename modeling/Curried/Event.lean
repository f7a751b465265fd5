import Curried.Tree

/-!
# Event

What the log records: expressions read and evaluated, forms dispatched, files loaded.
-/

namespace Curried

/-- An entry of the log. -/
inductive Event where
  /-- An expression has been read and is about to be evaluated. -/
  | parsed (tree : Tree)
  /-- An application of a form is about to be reduced. -/
  | dispatched (form : Form) (operands : Nat)
  /-- A top-level expression has been evaluated. -/
  | evaluated (value : Tree)
  /-- A file has been found and is about to be read. -/
  | loading (path : String)
  /-- The shell has read a file. -/
  | loaded (path : String)

namespace Event

/-- The part of the program an entry comes from. -/
def origin : Event → String
  | parsed _ | evaluated _ | loading _ => "slang.interpreter"
  | dispatched _ _ => "slang.evaluation.evaluator"
  | loaded _ => "slang.repl"

/-- The wording of an entry. -/
def message : Event → String
  | parsed tree => "parsed: " ++ tree.plain
  | dispatched form operands =>
    "special form " ++ form.spelling ++ " with " ++ Number.integerText operands ++ " operand(s)"
  | evaluated value => "evaluated: " ++ value.plain
  | loading path => "loading " ++ path
  | loaded path => "loaded " ++ path

/-- The line of an entry. -/
def line (e : Event) : String := e.origin ++ ": " ++ e.message

end Event

end Curried
