import Curried.Session

/-!
# Console

Where texts are evaluated for somebody to read: what marks a line about an error there, and how far
the host gets.  A text is too deep if its evaluation has more evaluations inside each other than the
limit allows.  It is also too deep if the host runs out of room in something else before there is
a value or a message.  When that happens the host alone knows, so it is a parameter of which nothing
is assumed.  Writing the value comes after all this and has room of its own.
-/

namespace Curried

/-- What evaluating and printing depend on besides the text. -/
structure Console where
  /-- How many evaluations may be inside each other. -/
  limit : Nat
  /-- How many calls may be inside each other when a value is written. -/
  room : Nat
  /-- What a line about an error starts with, in colour or not. -/
  errorMark : String
  /-- Whether the host runs out of room on a text otherwise than by evaluations inside each other:
  in reading its groups, in substituting, or in wording a message or an entry of the log.  If so,
  how many entries the log has by then. -/
  exhausted? : Stack → String → Option Nat

namespace Console

/-- The line about an error. -/
def errorLine (console : Console) (message : String) : String :=
  console.errorMark ++ message ++ "\n"

/-- The message for an evaluation that went too deep. -/
def tooDeepMessage : String := "maximum recursion depth exceeded"

/-- Evaluates a source text, as far as the host gets. -/
def eval (console : Console) (stack : Stack) (source : String) : Run :=
  let r := Session.eval console.limit stack source
  match console.exhausted? stack source with
  | some entries => ⟨.tooDeep, r.stack, r.log.take entries⟩
  | none => r

/-- Evaluates the file that a text names. -/
def load (console : Console) : Files → Stack → String → Run := Session.loadBy console.eval

end Console

end Curried
