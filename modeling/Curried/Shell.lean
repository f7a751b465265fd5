import Curried.Console
import Curried.Text.Blank
import Curried.Tree.Written

/-!
# Shell

The interactive shell, line by line.  A line is a command — `load`, `exit`, `EOF` or `help` — if its
leading word is one; any other line is evaluated as a whole.  Values and errors are printed, and the
shell goes on with the next line, unless a fault occurs that nothing handles.
-/

namespace Curried

/-- What a line does. -/
inductive Command where
  | nothing
  | load (path : String)
  | exit
  | endOfFile
  | help (topic : String)
  | eval (source : String)

namespace Command

/-- The characters of command words. -/
def isWord (c : Char) : Bool := c.isAlphanum || c == '_'

/-- The command of a leading word and the rest of its line; other words belong to an expression. -/
def ofWord (word argument line : String) : Command :=
  if word = "load" then load argument
  else if word = "exit" then exit
  else if word = "EOF" then endOfFile
  else if word = "help" then help argument
  else eval line

/-- The command of a line.  A question mark in front asks for help. -/
def ofLine (line : String) : Command :=
  match Text.strip line.toList with
  | [] => nothing
  | '?' :: cs => help (String.ofList (Text.strip cs))
  | cs => ofWord (String.ofList (cs.takeWhile isWord))
      (String.ofList (Text.strip (cs.dropWhile isWord))) (String.ofList cs)

end Command

namespace Shell

/-- The greeting. -/
def intro : String :=
  "Slang interpreter\nType 'exit' to quit, 'load <path>' to evaluate a file."

/-- The help on a topic; without one, the list of commands. -/
def helpText (topic : String) : String :=
  if topic = "" then
    "\nDocumented commands (type help <topic>):\n========================================\n" ++
      "EOF  exit  help  load\n\n"
  else if topic = "load" then "load <path>: evaluate the contents of a file.\n"
  else if topic = "exit" ∨ topic = "EOF" then "Exits interpreter.\n"
  else if topic = "help" then
    "List available commands with \"help\" or detailed help with \"help cmd\".\n"
  else "*** No help on " ++ topic ++ "\n"

/-- How a line ends: the shell goes on, stops, or fails with a fault that it does not handle. -/
inductive Ending where
  | goOn
  | stop
  | escape (f : Fault)

/-- What a line does: its ending, what it prints, the stack it leaves, and the log. -/
structure Step where
  ending : Ending
  out : String
  stack : Stack
  log : List Event

/-- Prints a fault of the language; others escape. -/
def printFault (console : Console) (stack : Stack) (log : List Event) (f : Fault) : Step :=
  if f.ofLanguage then ⟨.goOn, console.errorLine f.message, stack, log⟩
  else ⟨.escape f, "", stack, log⟩

/-- Evaluates a source text and prints its value or its error.  After an evaluation that went too
deep the stack is empty.  Nothing handles a value that is nested too deep to be written. -/
def eval (console : Console) (stack : Stack) (source : String) : Step :=
  let r := console.eval stack source
  match r.outcome with
  | .fault f => printFault console r.stack r.log f
  | .tooDeep => ⟨.goOn, console.errorLine Console.tooDeepMessage, [], r.log⟩
  | .value v => match v.written console.room with
    | .error f => ⟨.escape f, "", r.stack, r.log⟩
    | .ok text => ⟨.goOn, text ++ "\n", r.stack, r.log⟩

/-- Evaluates the file that a text names.  Where the file system refuses, the error shows the path
as typed. -/
def load (console : Console) (files : Files) (stack : Stack) (path : String) : Step :=
  if path = "" then ⟨.goOn, console.errorLine "load expects a path", stack, []⟩
  else match files.read path with
    | .error (.refused reason) =>
      ⟨.goOn, console.errorLine (reason ++ " (" ++ path ++ ")"), stack, []⟩
    | .error f => printFault console stack [] f
    | .ok source =>
      let step := eval console stack source
      { step with log := .loaded path :: step.log }

/-- Executes a line. -/
def step (console : Console) (files : Files) (stack : Stack) (line : String) : Step :=
  match Command.ofLine line with
  | .nothing => ⟨.goOn, "", stack, []⟩
  | .load path => load console files stack path
  | .exit => ⟨.stop, "", stack, []⟩
  | .endOfFile => ⟨.stop, "\n", stack, []⟩
  | .help topic => ⟨.goOn, helpText topic, stack, []⟩
  | .eval source => eval console stack source

end Shell

end Curried
