import Curried.Tree.Parser

/-!
# Token — streams

A token list with a cursor, for reading expressions one at a time.  A cursor past the last token
stands at the end.  A negative cursor counts back from the end, and the tokens then follow once more
from the first: `-1` is the last token, then token `0`.
-/

namespace Curried

/-- Tokens and a cursor. -/
structure Stream where
  tokens : List Token
  cursor : Int

namespace Stream

/-- A stream at its first token. -/
def ofTokens (tokens : List Token) : Stream := ⟨tokens, 0⟩

/-- The tokens ahead of the cursor. -/
def ahead (s : Stream) : Except Fault (List Token) :=
  if 0 ≤ s.cursor then .ok (s.tokens.drop s.cursor.toNat)
  else if -s.cursor ≤ s.tokens.length then
    .ok (s.tokens.drop (s.tokens.length - (-s.cursor).toNat) ++ s.tokens)
  else .error .outOfRange

/-- The token at the cursor, if there is one. -/
def peek (s : Stream) : Except Fault (Option Token) := s.ahead.map List.head?

/-- Whether the cursor is past the last token. -/
def atEnd (s : Stream) : Bool := s.tokens.length ≤ s.cursor

/-- The stream with the cursor elsewhere. -/
def seek (s : Stream) (cursor : Int) : Stream := { s with cursor }

/-- Moves the cursor from in front of `ahead` to in front of `rest`. -/
def skip (s : Stream) (ahead rest : List Token) : Stream :=
  s.seek (s.cursor + (ahead.length - rest.length : Int))

/-- Reads with `read` from the cursor on. -/
def read {α : Type} (s : Stream) (read : List Token → Reading α) : Except Fault α × Stream :=
  match s.ahead with
  | .error f => (.error f, s)
  | .ok ts => let r := read ts; (r.result, s.skip ts r.rest)

/-- Takes the token at the cursor. -/
def advance (s : Stream) : Except Fault Token × Stream :=
  s.read fun
    | [] => ⟨.error .endOfInput, []⟩
    | t :: ts => ⟨.ok t, ts⟩

/-- Token number `i`, a negative number counting back from the end. -/
def token? (s : Stream) (i : Int) : Option Token :=
  let place := if i < 0 then i + s.tokens.length else i
  if 0 ≤ place then s.tokens[place.toNat]? else none

/-- Reads operands up to a closing token, with token number `i` as the opening one. -/
def readOperands (s : Stream) (i : Int) : Except Fault (List Tree) × Stream :=
  match s.token? i with
  | none => (.error .outOfRange, s)
  | some opening => s.read (Tree.readOperands opening)

/-- Reads every expression that is left. -/
def readAll (s : Stream) : Readings × Stream :=
  match s.ahead with
  | .error f => (⟨[], some f, []⟩, s)
  | .ok ts => let r := Tree.readAll ts; (r, s.skip ts r.rest)

end Stream

end Curried
