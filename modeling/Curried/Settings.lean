import Curried.Number.Decimal
import Curried.Path
import Curried.Text.Blank
import Curried.Text.Digit

/-!
# Settings

The settings of a session, taken from environment variables: the prompt, the recursion limit, the
log level, and the directories in which files are looked for.
-/

namespace Curried

/-- The environment variables that matter, as far as they are set. -/
structure Environment where
  path? : Option String
  prompt? : Option String
  limit? : Option String
  level? : Option String

/-- The settings. -/
structure Settings where
  prompt : String
  limit : Int
  level : String
  roots : List Path

namespace Settings

/-- The recursion limit that is used where none is given. -/
def defaultLimit : Int := 10000

/-- The least recursion limit. -/
def leastLimit : Int := 1000

/-- The greatest recursion limit under which a program can start: `2^31 - 1`. -/
def greatestLimit : Int := 2147483647

/-- The greatest number of digits of an integer. -/
def digitLimit : Nat := 4300

/-- The blanks that may surround an integer: those around a number, and those beyond ASCII. -/
def isPadding (c : Char) : Bool := Number.isPadding c || (128 ≤ c.val && Text.isBlank c)

/-- The values of decimal digits of any script, with single underscores between them. -/
def readDigits? : List Char → Option (List Nat)
  | [] => none
  | [c] => (Text.digit? c).map fun d => [d]
  | c :: '_' :: cs => (Text.digit? c).bind fun d => (readDigits? cs).map fun ds => d :: ds
  | c :: cs => (Text.digit? c).bind fun d => (readDigits? cs).map fun ds => d :: ds

/-- Reads an integer. -/
def readInt? (text : String) : Option Int :=
  let inner := ((text.toList.dropWhile isPadding).reverse.dropWhile isPadding).reverse
  let (negative, rest) := Decimal.sign inner
  (readDigits? rest).bind fun digits =>
    let n : Int := (digits.foldl (fun n d => 10 * n + d) 0 : Nat)
    if digitLimit < digits.length then none else some (if negative then -n else n)

/-- The recursion limit: a readable integer, but no less than the least one. -/
def recursionLimit (env : Environment) : Int :=
  match (env.limit?.getD "") with
  | "" => defaultLimit
  | raw => match readInt? raw with
    | some n => max n leastLimit
    | none => defaultLimit

/-- The directories of a list with colons between them; blanks around one are dropped. -/
def directories (raw : String) : List Path :=
  let entries := (raw.splitOn ":").map fun entry => String.ofList (Text.strip entry.toList)
  (entries.filter (· != "")).map Path.ofText

/-- The settings in an environment and a current directory, which is the first search root. -/
def ofEnvironment (env : Environment) (current : Path) : Settings :=
  { prompt := env.prompt?.getD "sl> "
    limit := recursionLimit env
    level := String.ofList ((env.level?.getD "WARNING").toList.map Char.toUpper)
    roots := current :: directories (env.path?.getD "") }

/-- How deep evaluations may nest: each uses up several of the calls that the limit allows. -/
def depth (settings : Settings) : Nat := settings.limit.toNat / 3

end Settings

end Curried
