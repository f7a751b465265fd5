/-!
# Text — literals

A text literal stands between double quotes.  Inside it a backslash takes the next character with
it, so `\"` does not end the literal; nothing else is special, and the interior is kept as written.
-/

namespace Curried.Text

/-- The interior up to a closing quote, which must be the last character. -/
def interior? : List Char → Option (List Char)
  | ['"'] => some []
  | '"' :: _ => none
  | '\\' :: c :: cs => (interior? cs).map fun body => '\\' :: c :: body
  | c :: cs => (interior? cs).map fun body => c :: body
  | [] => none

/-- The interior of a literal. -/
def unquote? : List Char → Option (List Char)
  | '"' :: cs => interior? cs
  | _ => none

end Curried.Text
