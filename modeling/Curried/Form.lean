/-!
# Form

The seven special forms, with their spellings.  `δ` defines a name, `λ` makes a function, `ι`
applies, `_` ignores, `Ω` yields nil; `->` and `ε` are reserved.
-/

namespace Curried

/-- A special form. -/
inductive Form where
  | delta
  | lambda
  | arrow
  | epsilon
  | iota
  | ignore
  | omega
deriving DecidableEq

namespace Form

/-- All forms. -/
def all : List Form := [delta, lambda, arrow, epsilon, iota, ignore, omega]

/-- The canonical spelling. -/
def spelling : Form → String
  | delta => "δ"
  | lambda => "λ"
  | arrow => "->"
  | epsilon => "ε"
  | iota => "ι"
  | ignore => "_"
  | omega => "Ω"

/-- The ASCII spelling beside the canonical one; the arrow and `_` have none. -/
def alias? : Form → Option String
  | delta => some "def"
  | lambda => some "lambda"
  | epsilon => some "external"
  | iota => some "id"
  | omega => some "nih"
  | arrow | ignore => none

/-- The form with this spelling, canonical or ASCII. -/
def ofSpelling? (text : String) : Option Form :=
  all.find? fun form => form.spelling == text || form.alias? == some text

/-- The name of a form, as inspection shows it. -/
def label : Form → String
  | delta => "DEF"
  | lambda => "LAMBDA"
  | arrow => "ARROW"
  | epsilon => "EXTERNAL"
  | iota => "ID"
  | ignore => "IGNORE"
  | omega => "NIL"

/-- The forms whose first operand may bind a name. -/
def binds : Form → Bool
  | delta | lambda | epsilon => true
  | arrow | iota | ignore | omega => false

end Form

end Curried
