import Curried.Fault

/-!
# Stack

A frame binds names to trees, in the order in which the names came; binding a name again keeps its
place.  A stack is a list of frames, the innermost first, and a name means what the innermost frame
that binds it says.
-/

namespace Curried

/-- Bindings in the order of their names' arrival. -/
abbrev Frame := List (String × Tree)

namespace Frame

/-- The value of a name. -/
def lookup? (name : String) : Frame → Option Tree
  | [] => none
  | (x, v) :: rest => if x = name then some v else lookup? name rest

/-- Whether a name is bound. -/
def binds (frame : Frame) (name : String) : Bool := (lookup? name frame).isSome

/-- Binds a name: at its place if it has one, else at the end. -/
def define (name : String) (value : Tree) : Frame → Frame
  | [] => [(name, value)]
  | (x, v) :: rest => if x = name then (x, value) :: rest else (x, v) :: define name value rest

/-- Removes a name. -/
def remove (name : String) : Frame → Frame
  | [] => []
  | (x, v) :: rest => if x = name then rest else (x, v) :: remove name rest

/-- The frame that arises from binding these names one after the other. -/
def ofList (bindings : List (String × Tree)) : Frame :=
  bindings.foldl (fun frame (name, value) => define name value frame) []

/-- Gives a name its previous value back, or removes it if it had none. -/
def restore (name : String) (previous : Option Tree) (frame : Frame) : Frame :=
  match previous with
  | none => remove name frame
  | some value => define name value frame

/-- A name means what it was bound to last. -/
theorem lookup?_define_self (x : String) (v : Tree) (frame : Frame) :
    lookup? x (define x v frame) = some v := by
  induction frame with
  | nil => simp [define, lookup?]
  | cons b frame ih => by_cases h : b.1 = x <;> simp [define, lookup?, h, ih]

/-- Binding a name leaves the others alone. -/
theorem lookup?_define_of_ne {x y : String} (h : x ≠ y) (v : Tree) (frame : Frame) :
    lookup? y (define x v frame) = lookup? y frame := by
  induction frame with
  | nil => simp [define, lookup?, h]
  | cons b frame ih => by_cases hb : b.1 = x <;> simp [define, lookup?, hb, h, ih]

/-- Restoring what a name was undoes its binding, and every name keeps its place. -/
theorem restore_define (x : String) (v : Tree) (frame : Frame) :
    restore x (lookup? x frame) (define x v frame) = frame := by
  induction frame with
  | nil => simp [lookup?, define, restore, remove]
  | cons b frame ih =>
    obtain ⟨y, w⟩ := b
    by_cases h : y = x
    · simp [lookup?, define, restore, h]
    · cases hx : lookup? x frame with
      | none => simpa [lookup?, define, restore, remove, h, hx] using ih
      | some w => simpa [lookup?, define, restore, h, hx] using ih

/-- The bindings in braces. -/
def text (frame : Frame) : String :=
  "\x7b" ++ ", ".intercalate (frame.map fun (name, value) => name ++ ": " ++ value.plain) ++ "\x7d"

/-- The first leaf that leaves a frame without text. -/
def textless? (frame : Frame) : Option Host := frame.findSome? fun (_, value) => value.plainless?

/-- The text of a frame, marked as a frame. -/
def inspect (frame : Frame) : String := "<Frame " ++ text frame ++ ">"

end Frame

/-- Frames, the innermost first. -/
abbrev Stack := List Frame

namespace Stack

/-- The value of a name in the innermost frame that binds it. -/
def lookup? (stack : Stack) (name : String) : Option Tree :=
  stack.findSome? (Frame.lookup? name)

/-- The value of a name, or the fault that it has none. -/
def lookup (stack : Stack) (name : String) : Except Fault Tree :=
  match lookup? stack name with
  | some value => .ok value
  | none => .error (.unbound name)

/-- The level of the innermost frame that binds a name: the number of frames below it. -/
def find? (name : String) : Stack → Option Nat
  | [] => none
  | frame :: below => if Frame.binds frame name then some below.length else find? name below

/-- Changes the frame at a level. -/
def modify (level : Nat) (change : Frame → Frame) : Stack → Stack
  | [] => []
  | frame :: below =>
    if below.length = level then change frame :: below else frame :: modify level change below

/-- The level that an index means, a negative one counting back from the innermost frame. -/
def level? (stack : Stack) (index : Int) : Option Nat :=
  let level := if index < 0 then index + stack.length else index
  if 0 ≤ level ∧ level < stack.length then some level.toNat else none

/-- The frame at a level. -/
def frame? (level : Nat) : Stack → Option Frame
  | [] => none
  | frame :: below => if below.length = level then some frame else frame? level below

/-- The frames from the outermost to the innermost, with arrows between them. -/
def text (stack : Stack) : String :=
  if stack = [] then "\x7b\x7d" else " -> ".intercalate (stack.reverse.map Frame.text)

/-- The text of a stack, marked as a stack. -/
def inspect (stack : Stack) : String := "<FrameStack " ++ text stack ++ ">"

/-- The first leaf that leaves a stack without text. -/
def textless? (stack : Stack) : Option Host := stack.reverse.findSome? Frame.textless?

end Stack

end Curried
