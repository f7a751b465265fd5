import Curried.Stack

/-!
# Stack — brackets

A bracket is a binding together with what has to be done to release it.  There are two ways to
bind: `Bracket.scope` pushes a frame of its own, and `Bracket.merge` binds in the innermost frame
and remembers what the name meant there.  Merging into an empty stack needs a frame, which is
removed on release.

`Scopes` is a stack with the brackets that are open on it, which may be released in any state of
the stack.  A merged binding belongs to one frame: if that frame is removed in between, releasing
the bracket does nothing.
-/

namespace Curried

/-- What releasing a binding has to do. -/
inductive Bracket where
  /-- Remove the innermost frame. -/
  | frame
  /-- Give a name in the frame at a level its previous value back. -/
  | binding (level : Nat) (name : String) (previous : Option Tree)
  /-- Nothing: the frame of the binding is gone. -/
  | gone

namespace Bracket

/-- Binds a name in a frame of its own. -/
def scope (stack : Stack) (name : String) (value : Tree) : Stack × Bracket :=
  ([(name, value)] :: stack, frame)

/-- Binds a name in the innermost frame; an empty stack gets one. -/
def merge (stack : Stack) (name : String) (value : Tree) : Stack × Bracket :=
  match stack with
  | [] => ([[(name, value)]], frame)
  | inner :: below =>
    (inner.define name value :: below, binding below.length name (inner.lookup? name))

/-- Releases a binding. -/
def release : Bracket → Stack → Stack
  | frame, stack => stack.tail
  | binding level name previous, stack => stack.modify level (Frame.restore name previous)
  | gone, stack => stack

/-- Releasing a scope gives the stack back. -/
theorem release_scope (stack : Stack) (x : String) (v : Tree) :
    (scope stack x v).2.release (scope stack x v).1 = stack := rfl

/-- Releasing a merged binding gives the stack back. -/
theorem release_merge (stack : Stack) (x : String) (v : Tree) :
    (merge stack x v).2.release (merge stack x v).1 = stack := by
  cases stack with
  | nil => rfl
  | cons frame below => simp [merge, release, Stack.modify, Frame.restore_define]

/-- In a scope the name means the value, and the others mean what they did. -/
theorem lookup?_scope (stack : Stack) (x : String) (v : Tree) (y : String) :
    (scope stack x v).1.lookup? y = if x = y then some v else stack.lookup? y := by
  by_cases h : x = y <;> simp [scope, Stack.lookup?, Frame.lookup?, h]

/-- After merging a binding too. -/
theorem lookup?_merge (stack : Stack) (x : String) (v : Tree) (y : String) :
    (merge stack x v).1.lookup? y = if x = y then some v else stack.lookup? y := by
  cases stack with
  | nil => exact lookup?_scope [] x v y
  | cons frame below =>
      by_cases h : x = y
      · subst h
        simp [merge, Stack.lookup?, Frame.lookup?_define_self]
      · simp [merge, Stack.lookup?, List.findSome?, Frame.lookup?_define_of_ne h, h]

/-- The bracket after the frames from `depth` on have been removed. -/
def cut (depth : Nat) : Bracket → Bracket
  | binding level name previous =>
    if depth ≤ level then gone else binding level name previous
  | b => b

end Bracket

/-- A stack and its open brackets, the latest first. -/
structure Scopes where
  stack : Stack
  opened : List Bracket

namespace Scopes

/-- A stack without brackets. -/
def ofStack (stack : Stack) : Scopes := ⟨stack, []⟩

/-- Pushes a frame. -/
def push (s : Scopes) (frame : Frame) : Scopes := { s with stack := frame :: s.stack }

/-- Removes the innermost frame; its merged bindings are gone. -/
def pop (s : Scopes) : Except Fault (Frame × Scopes) :=
  match s.stack with
  | [] => .error .noFrame
  | frame :: below => .ok (frame, ⟨below, s.opened.map (Bracket.cut below.length)⟩)

/-- Binds a name in the frame that an index means. -/
def define (s : Scopes) (index : Int) (name : String) (value : Tree) : Except Fault Scopes :=
  match s.stack.level? index with
  | none => .error .outOfRange
  | some level => .ok { s with stack := s.stack.modify level (Frame.define name value) }

/-- Opens a bracket. -/
def enter (s : Scopes) (bound : Stack × Bracket) : Scopes := ⟨bound.1, bound.2 :: s.opened⟩

/-- Releases the latest open bracket.  Where it has no frame to remove, that is a fault, and the
bracket is closed all the same. -/
def leave (s : Scopes) : Option Fault × Scopes :=
  match s.opened with
  | [] => (some .noFrame, s)
  | .frame :: opened =>
    match pop { s with opened } with
    | .error f => (some f, { s with opened })
    | .ok (_, s) => (none, s)
  | b :: opened => (none, ⟨b.release s.stack, opened⟩)

end Scopes

end Curried
