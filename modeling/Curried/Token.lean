import Curried.Position
import Curried.Tree

/-!
# Token

A token is a lexeme with its kind, the tree it denotes, and the position of its first character.
A name and a parenthesis denote their own text.
-/

namespace Curried

/-- The kinds of tokens.  Tokens that a host program hands over may be of further kinds, which no
rule of the grammar accepts. -/
inductive Kind where
  | keyword
  | literal
  | identifier
  | opening
  | closing
  | other (name : String)
deriving DecidableEq

/-- A token. -/
structure Token where
  kind : Kind
  value : Tree
  position : Position

instance : Inhabited Token := ⟨.literal, .nil, .first⟩

namespace Token

/-- The text of a token in messages: source text for a literal, plain text otherwise. -/
def text (t : Token) : String :=
  match t.kind with
  | .literal => t.value.source
  | _ => t.value.plain

/-- The leaf that leaves a token without text. -/
def textless? (t : Token) : Option Host :=
  match t.kind with
  | .literal => t.value.sourceless?
  | _ => t.value.plainless?

end Token

end Curried
