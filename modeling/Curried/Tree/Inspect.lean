import Curried.Text.Quoted
import Curried.Tree

/-!
# Tree — inspection

The text of a tree that shows its structure: the kind of every leaf, and every application with its
operator and its operands.
-/

namespace Curried.Tree

/-- Items in parentheses; a single one is followed by a comma. -/
def tuple : List String → String
  | [item] => "(" ++ item ++ ",)"
  | items => "(" ++ ", ".intercalate items ++ ")"

mutual

/-- The structure of a tree. -/
def inspect : Tree → String
  | .num n => n.plain
  | .text s => Text.quote s
  | .nil => "Φ"
  | .sym name => "Symbol(" ++ Text.quote name ++ ")"
  | .form f => "<SpecialForm." ++ f.label ++ ": " ++ Text.quote f.spelling ++ ">"
  | .host h => h.plain
  | .app f as =>
    "Application(operator=" ++ f.inspect ++ ", operands=" ++ tuple (inspectAll as) ++ ")"

/-- The structures of several trees. -/
def inspectAll : List Tree → List String
  | [] => []
  | t :: ts => t.inspect :: inspectAll ts

end

end Curried.Tree
