import Curried.CommandLine.Arguments
import Curried.Settings
import Curried.Shell

/-!
# Command line

The whole program, apart from reading and printing: arguments, settings and standard input to an
exit status and what is printed.  With a file it evaluates the file; without one it is the shell.
-/

namespace Curried

/-- How the program ends: with an exit status, or with a fault that nothing handles; and what it
has printed. -/
structure Answer where
  ending : Except Fault Nat
  out : String
  err : String

namespace CommandLine

/-- The line about the usage. -/
def usage : String := "usage: sl [-h] [file]\n"

/-- The help text. -/
def help : String :=
  usage ++ "\nSlang expression interpreter\n\npositional arguments:\n" ++
    "  file        file to evaluate (if empty, starts the interactive shell)\n\noptions:\n" ++
    "  -h, --help  show this help message and exit\n"

/-- The names of the log levels. -/
def levels : List String :=
  ["CRITICAL", "FATAL", "ERROR", "WARN", "WARNING", "INFO", "DEBUG", "NOTSET"]

/-- The log as printed: nothing above the two lowest levels. -/
def logText (level : String) (log : List Event) : String :=
  if level = "DEBUG" ∨ level = "NOTSET" then
    String.join (log.map fun e => "DEBUG " ++ e.line ++ "\n")
  else ""

/-- Evaluates a file. -/
def runFile (console : Console) (files : Files) (level : String) (file : String) : Answer :=
  let r := console.load files [] file
  let err := logText level r.log
  match r.outcome with
  | .tooDeep => ⟨.ok 1, "", err ++ console.errorLine Console.tooDeepMessage⟩
  | .fault f =>
    if f.ofLanguage then ⟨.ok 1, "", err ++ console.errorLine f.message⟩ else ⟨.error f, "", err⟩
  | .value v => match v.written console.room with
    | .error f => ⟨.error f, "", err⟩
    | .ok text => ⟨.ok 0, text ++ "\n", err⟩

/-- The shell on the lines of standard input, after which it is told that they have ended. -/
def runShell (console : Console) (files : Files) (settings : Settings) (stack : Stack) :
    List String → Answer
  | [] => ⟨.ok 0, settings.prompt ++ "\n", ""⟩
  | line :: lines =>
    let step := Shell.step console files stack line
    let out := settings.prompt ++ step.out
    let err := logText settings.level step.log
    match step.ending with
    | .stop => ⟨.ok 0, out, err⟩
    | .escape f => ⟨.error f, out, err⟩
    | .goOn =>
      let rest := runShell console files settings step.stack lines
      ⟨rest.ending, out ++ rest.out, err ++ rest.err⟩

/-- The lines of a text; a line feed ends a line. -/
def lines (text : String) : List String :=
  let parts := text.splitOn "\n"
  if parts.getLast? = some "" then parts.dropLast else parts

/-- What keeps a program with these settings from starting: first the log level, then the recursion
limit. -/
def refusal? (settings : Settings) : Option Fault :=
  if !levels.contains settings.level then some (.unknownLevel (Text.quote settings.level))
  else if Settings.greatestLimit < settings.limit then some .limitTooGreat
  else none

/-- The program. -/
def run (console : Console) (files : Files) (settings : Settings) (arguments : List String)
    (input : String) : Answer :=
  match Request.ofArguments arguments with
  | .help => ⟨.ok 0, help, ""⟩
  | .refuse message => ⟨.ok 2, "", usage ++ "sl: error: " ++ message ++ "\n"⟩
  | .run file? => match refusal? settings, file? with
    | some f, _ => ⟨.error f, "", ""⟩
    | none, some file => runFile console files settings.level file
    | none, none =>
      let rest := runShell console files settings [] (lines input)
      { rest with out := Shell.intro ++ "\n" ++ rest.out }

end CommandLine

end Curried
