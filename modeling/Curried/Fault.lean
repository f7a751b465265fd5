import Curried.Token

/-!
# Fault

Why reading, evaluating or loading came to no value.  Each cause is a constructor that carries what
its message shows, and `Fault.message` is the wording of all of them.
-/

namespace Curried

/-- A cause of failure. -/
inductive Fault where
  /-- A lexeme that is of no token class. -/
  | unreadable (lexeme : String) (position : Position)
  /-- A token that cannot stand where it does. -/
  | unexpected (token : Token)
  /-- A token after the end of the only expression. -/
  | trailing (token : Token)
  /-- A group that is closed before it has an operator. -/
  | noOperator (token : Token)
  /-- No token where an expression should start. -/
  | endOfInput
  /-- No token after an opening parenthesis. -/
  | endAfter (opening : Position)
  /-- No token before a group is closed. -/
  | unclosed (opening : Position)
  /-- A name token whose value is no text. -/
  | notText (value : Tree)
  /-- A name that no frame binds. -/
  | unbound (name : String)
  /-- Too few operands of `δ`. -/
  | defineArity (count : Nat)
  /-- Too few operands of `λ`. -/
  | functionArity (count : Nat)
  /-- `δ` with something else than a name to bind. -/
  | badName (name : Tree)
  /-- `λ` with a parameter that is no name, no literal and not `_`. -/
  | badParameter (parameter : Tree)
  /-- A literal parameter that its argument does not equal. -/
  | mismatch (expected actual : Tree)
  /-- An operator that cannot be applied. -/
  | notFunction (operator : Tree)
  /-- A form outside an application. -/
  | bareForm (form : Form)
  /-- The host's missing value. -/
  | noValue
  /-- A form that is reserved: the arrow. -/
  | reservedArrow
  /-- A form that is reserved: `ε`. -/
  | reservedExternal
  /-- A host value without source text had to be written. -/
  | unprintable (value : Host)
  /-- A tree had to be written that is nested deeper than there is room for. -/
  | tooNested
  /-- No frame to remove. -/
  | noFrame
  /-- A position outside a sequence. -/
  | outOfRange
  /-- No regular file at any of the places searched. -/
  | noFile (path : String)
  /-- A path that starts with the home directory of an unknown user. -/
  | noHome
  /-- A path that starts with the home directory of a user whose name has a null character. -/
  | nullInName
  /-- The file system refuses a path, or to read the file at it, and says why. -/
  | refused (reason : String)
  /-- File contents that are not UTF-8. -/
  | notUtf8
  /-- A log level with an unknown name. -/
  | unknownLevel (shown : String)
  /-- A recursion limit that is too great to be set. -/
  | limitTooGreat

namespace Fault

/-- What the message about a name that is no text calls a tree. -/
def typeName : Tree → String
  | .num _ => "float"
  | .text _ => "str"
  | .nil => "NilType"
  | .sym _ => "Symbol"
  | .form _ => "SpecialForm"
  | .app _ _ => "Application"
  | .host (.int _) => "int"
  | .host (.bool _) => "bool"
  | .host .absent => "None"

/-- A token and where it stands. -/
def located (token : Token) : String :=
  "'" ++ token.text ++ "' at " ++ token.position.text

/-- The wording. -/
def message : Fault → String
  | unreadable lexeme position => "Cannot tokenize '" ++ lexeme ++ "' at " ++ position.text
  | unexpected token => "Unexpected token " ++ located token
  | trailing token => "Unexpected token " ++ located token ++ " after the end of the expression"
  | noOperator token => "Cannot parse an operator from " ++ located token
  | endOfInput => "Unexpected end of input"
  | endAfter opening => "Unexpected end of input after '(' at " ++ opening.text
  | unclosed opening => "Unexpected end of input: '(' at " ++ opening.text ++ " is never closed"
  | notText value => "intern() argument must be str, not " ++ typeName value
  | unbound name => "Variable '" ++ name ++ "' is not defined"
  | defineArity count =>
    "def (δ): 3 arguments expected, " ++ Number.integerText count ++
      " provided. Example usage: (δ x 5 (ι x))"
  | functionArity count =>
    "lambda (λ): 2 or more arguments expected, " ++ Number.integerText count ++
      " provided. Example usage: (λ x x 5)"
  | badName name => "def (δ): invalid variable name '" ++ name.source ++ "'"
  | badParameter parameter => "Invalid lambda (λ) argument: '" ++ parameter.source ++ "'"
  | mismatch expected actual =>
    "lambda (λ) expected '" ++ expected.source ++ "' but received '" ++ actual.source ++ "'"
  | notFunction operator => "Cannot apply '" ++ operator.source ++ "': it is not a function"
  | bareForm form =>
    "Cannot evaluate special form '" ++ form.spelling ++ "' outside an application"
  | noValue => "Cannot evaluate None"
  | reservedArrow => "arrow (->) is reserved and not implemented yet"
  | reservedExternal => "external (ε) is reserved and not implemented yet"
  | unprintable (.int _) => "int too large to convert to float"
  | unprintable value => "Cannot render " ++ value.plain
  | tooNested => "maximum recursion depth exceeded"
  | noFrame => "pop from empty list"
  | outOfRange => "list index out of range"
  | noFile path => "Cannot load '" ++ path ++ "': no such file"
  | noHome => "Could not determine home directory."
  | nullInName => "embedded null byte"
  | refused reason => reason
  | notUtf8 => "invalid UTF-8"
  | unknownLevel shown => "Unknown level: " ++ shown
  | limitTooGreat => "recursion limit too large"

/-- The fault `f`, unless a tree that its message shows has a leaf without source text: then the
first such leaf is the fault. -/
def showing (trees : List Tree) (f : Fault) : Fault :=
  match Tree.sourcelessIn? trees with
  | some value => unprintable value
  | none => f

/-- The fault `f` about a token, unless the token itself has no text. -/
def about (token : Token) (f : Fault) : Fault :=
  match token.textless? with
  | some value => unprintable value
  | none => f

/-- The faults of the language itself, as opposed to those of the host and its files. -/
def ofLanguage : Fault → Bool
  | notText _ | unprintable _ | tooNested | noFrame | outOfRange | noHome | nullInName | refused _
  | notUtf8 | unknownLevel _ | limitTooGreat => false
  | _ => true

end Fault

end Curried
