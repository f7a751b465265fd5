import Curried.Text.Digit
import Curried.Text.Quoted

/-!
# Command line — arguments

The command takes one optional file.  `-h` and `--help`, which may be abbreviated, ask for help;
they take no value.  Arguments are looked at from left to right, and the first that asks for help or
gives it a value decides.  Otherwise unknown options and surplus arguments are an error.  After `--`
nothing is an option.
-/

namespace Curried

/-- What the arguments ask for. -/
inductive Request where
  | help
  | refuse (message : String)
  | run (file? : Option String)

namespace Request

/-- What a single argument is, where options are allowed. -/
inductive Argument where
  | positional
  | unknown
  | help
  /-- Help with a value that it does not take. -/
  | helpWith (value : List Char)

/-- Short options written together after `-h`: more of the same.  From the first other letter on, the
rest is a value. -/
def cluster : List Char → Argument
  | [] => .help
  | 'h' :: rest => cluster rest
  | value => .helpWith value

/-- Digits only, and at least one. -/
def isDigits (cs : List Char) : Bool := cs != [] && cs.all fun c => (Text.digit? c).isSome

/-- What follows the minus sign of a negative number: digits, or a point with digits after it.  A
line feed may end it. -/
def isMagnitude (cs : List Char) : Bool :=
  let body := if cs.getLast? = some '\n' then cs.dropLast else cs
  let isDigit := fun c => (Text.digit? c).isSome
  isDigits body || match body.dropWhile isDigit with
    | '.' :: fraction => isDigits fraction
    | _ => false

/-- Classifies an argument. -/
def classify (argument : String) : Argument :=
  match argument.toList with
  | '-' :: '-' :: cs =>
    let name := '-' :: '-' :: cs.takeWhile (· != '=')
    if name.isPrefixOf "--help".toList then
      match cs.dropWhile (· != '=') with
      | _ :: value => .helpWith value
      | [] => .help
    else if cs.contains ' ' then .positional
    else .unknown
  | ['-', 'h', '='] => .helpWith []
  | '-' :: 'h' :: '=' :: cs | '-' :: 'h' :: cs => cluster cs
  | '-' :: c :: cs =>
    if isMagnitude (c :: cs) || (c :: cs).contains ' ' then .positional else .unknown
  | _ => .positional

/-- The first argument that decides. -/
def decided? : List String → Option Request
  | [] => none
  | argument :: rest =>
    if argument = "--" then none
    else match classify argument with
      | .help => some .help
      | .helpWith value => some <| .refuse <|
          "argument -h/--help: ignored explicit argument " ++ Text.quote (String.ofList value)
      | .positional | .unknown => decided? rest

/-- Takes the file out of the arguments; the others are left over.  `file?` is the file if it has
been found, and `before` says that it stands right before the arguments. -/
def sort (file? : Option String) (before : Bool) : List String → Option String × List String
  | [] => (file?, [])
  | argument :: rest =>
    if argument = "--" then
      match file?, rest with
      | none, [] => (none, [])
      | none, file :: extra => (some file, extra)
      | some file, extra => (some file, if before then extra else "--" :: extra)
    else match file?, classify argument with
      | none, .positional => sort (some argument) true rest
      | _, _ =>
        let (file?, extra) := sort file? false rest
        (file?, argument :: extra)

/-- What the arguments ask for. -/
def ofArguments (arguments : List String) : Request :=
  match decided? arguments with
  | some request => request
  | none => match sort none false arguments with
    | (file?, []) => .run file?
    | (_, extra) => .refuse ("unrecognized arguments: " ++ " ".intercalate extra)

end Request

end Curried
