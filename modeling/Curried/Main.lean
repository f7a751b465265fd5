import Curried.CommandLine
import Curried.Files.Directory

/-!
# Main

The program on the real standard streams, files and environment.  Only reading and printing happen
here; what is printed is decided by `CommandLine` and `Shell`.
-/

namespace Curried.Main

/-- Looks at a path.  What cannot be read for another reason than that no file is there counts as a
file. -/
def probe (p : Path) : IO Entry := do
  if p.parts.any fun part => Directory.nameLimit < part.utf8ByteSize then return Directory.tooLong
  try
    return .file (← IO.FS.readBinFile p.text)
  catch
    | .permissionDenied _ _ details | .hardwareFault _ details | .resourceExhausted _ _ details =>
      return .unreadable details
    | _ => return .missing

/-- The name and the home directory in a line of the user table. -/
def userOfLine (line : String) : Option (String × Path) :=
  match line.splitOn ":" with
  | [name, _, _, _, _, home, _] => some (name, Path.ofText home)
  | _ => none

/-- The home directories of all users; one's own stands under the empty name. -/
def homes : IO (List (String × Path)) := do
  let own := Path.ofText ((← IO.getEnv "HOME").getD "/")
  let table ← try IO.FS.readFile "/etc/passwd" catch _ => pure ""
  return ("", own) :: (table.splitOn "\n").filterMap userOfLine

/-- The files, as far as a look-up of `text` can reach them. -/
def gather (roots : List Path) (text : String) : IO Files := do
  let users ← homes
  let bare : Files := ⟨fun name => users.lookup name, roots, fun _ => .missing⟩
  match bare.expand (Path.ofText text) with
  | .error _ => return bare
  | .ok p =>
    let found ← (bare.candidates p).mapM fun c => do return (c, ← probe c)
    return { bare with entry := fun c => (found.lookup c).getD .missing }

/-- Whether an environment variable is set to something. -/
def isSet (name : String) : IO Bool := do return ((← IO.getEnv name).getD "") != ""

/-- Whether errors are marked in colour: as the environment demands, and else on a terminal that has
colours. -/
def inColour : IO Bool := do
  if (← isSet "ANSI_COLORS_DISABLED") || (← isSet "NO_COLOR") then return false
  if ← isSet "FORCE_COLOR" then return true
  if (← IO.getEnv "TERM") == some "dumb" then return false
  (← IO.getStdout).isTty

/-- The console for these settings. -/
def console (settings : Settings) : IO Console := do
  let mark := if ← inColour then "\x1b[1m\x1b[31merror: \x1b[0m" else "error: "
  return ⟨settings.depth, settings.limit.toNat, mark, fun _ _ => none⟩

/-- Prints an answer and yields the exit status. -/
def finish (answer : Answer) : IO UInt32 := do
  IO.print answer.out
  IO.eprint answer.err
  match answer.ending with
  | .ok status => return status.toUInt32
  | .error f =>
    IO.eprintln f.message
    return 1

/-- The shell, until it stops or the input ends. -/
partial def shell (console : Console) (settings : Settings) (stack : Stack) : IO UInt32 := do
  IO.print settings.prompt
  (← IO.getStdout).flush
  let raw ← (← IO.getStdin).getLine
  let line := if raw.isEmpty then "EOF" else raw
  let files ← match Command.ofLine line with
    | .load path => gather settings.roots path
    | _ => gather [] ""
  let step := Shell.step console files stack line
  IO.print step.out
  IO.eprint (CommandLine.logText settings.level step.log)
  match step.ending with
  | .goOn => shell console settings step.stack
  | .stop => return 0
  | .escape f => finish ⟨.error f, "", ""⟩

/-- Runs the program with these arguments. -/
def run (arguments : List String) : IO UInt32 := do
  let env : Environment := ⟨← IO.getEnv "SLANG_PATH", ← IO.getEnv "SLANG_PROMPT",
    ← IO.getEnv "SLANG_RECURSION_LIMIT", ← IO.getEnv "SLANG_LOG_LEVEL"⟩
  let settings := Settings.ofEnvironment env (Path.ofText (← IO.currentDir).toString)
  let console ← console settings
  match Request.ofArguments arguments with
  | .run none => match CommandLine.refusal? settings with
    | some f => finish ⟨.error f, "", ""⟩
    | none =>
      IO.println Shell.intro
      shell console settings []
  | .run (some file) =>
    finish (CommandLine.run console (← gather settings.roots file) settings arguments "")
  | _ => finish (CommandLine.run console (← gather [] "") settings arguments "")

end Curried.Main

/-- The command line. -/
def main (arguments : List String) : IO UInt32 := Curried.Main.run arguments
