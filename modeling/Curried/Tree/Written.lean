import Curried.Fault

/-!
# Tree — written in bounded room

The source text of a tree is written by calls inside each other, one for each tree on the way down,
and the host has room for so many of them only.

* `Tree.written` is the source text, unless the room is used up or a leaf has none.
* `Tree.calls` counts the calls that are inside each other.
-/

namespace Curried.Tree

/-- A number is written by a further call. -/
def numeral (room : Nat) (text : String) : Except Fault String :=
  if room = 0 then .error .tooNested else .ok text

mutual

/-- The source text of a tree, with room for so many calls inside each other.  The operands are
written from within a call that goes through them. -/
def written : Tree → Nat → Except Fault String
  | _, 0 => .error .tooNested
  | .num n, room + 1 => numeral room n.text
  | .host h, room + 1 =>
    if h.hasSource then numeral room (source (.host h)) else .error (.unprintable h)
  | .app f as, room + 1 =>
    (written f room).bind fun operator => (writtenAll as (room - 1)).map fun operands =>
      "(" ++ " ".intercalate (operator :: operands) ++ ")"
  | t, _ + 1 => .ok t.source

/-- The source texts of several trees; the first that cannot be written is the fault. -/
def writtenAll : List Tree → Nat → Except Fault (List String)
  | [], _ => .ok []
  | t :: ts, room =>
    (written t room).bind fun text => (writtenAll ts room).map fun texts => text :: texts

end

mutual

/-- How many calls are inside each other when a tree is written. -/
def calls : Tree → Nat
  | .num _ | .host _ => 2
  | .app f as => 1 + max f.calls (1 + callsIn as)
  | _ => 1

/-- The most calls that any of several trees takes. -/
def callsIn : List Tree → Nat
  | [] => 0
  | t :: ts => max t.calls (callsIn ts)

end

end Curried.Tree
