import Curried.Fault
import Curried.Path

/-!
# Files

Where source files are looked for, and how they are read.  A relative path is tried under each of
the search roots in turn; the first that leads to a regular file is taken, whether that can be read
or not.  Contents are UTF-8, and every kind of line end becomes a line feed.
-/

namespace Curried

/-- What stands at a path. -/
inductive Entry where
  /-- No regular file. -/
  | missing
  /-- The file system refuses to look there, and says why. -/
  | refused (reason : String)
  /-- A regular file that the file system refuses to read, and why. -/
  | unreadable (reason : String)
  /-- A regular file with its contents. -/
  | file (contents : ByteArray)

/-- Carriage returns, with or without a line feed after them, become line feeds. -/
def Text.unifyLines : List Char → List Char
  | '\r' :: '\n' :: cs => '\n' :: unifyLines cs
  | '\r' :: cs => '\n' :: unifyLines cs
  | c :: cs => c :: unifyLines cs
  | [] => []

/-- The text of a file's contents. -/
def Text.decode (contents : ByteArray) : Except Fault String :=
  match String.fromUTF8? contents with
  | none => .error .notUtf8
  | some s => .ok (String.ofList (unifyLines s.toList))

/-- A regular file that has been found: its path, and its contents unless they cannot be read. -/
structure Found where
  path : Path
  contents : Except String ByteArray

/-- The text of a file. -/
def Found.text (found : Found) : Except Fault String :=
  match found.contents with
  | .error reason => .error (.refused reason)
  | .ok contents => Text.decode contents

/-- The home directories by user name, one's own under the empty name; the search roots; and what
the paths lead to. -/
structure Files where
  home? : String → Option Path
  roots : List Path
  entry : Path → Entry

namespace Files

/-- The first of these paths that leads to a file. -/
def first? (files : Files) : List Path → Except Fault (Option Found)
  | [] => .ok none
  | p :: ps => match files.entry p with
    | .file contents => .ok (some ⟨p, .ok contents⟩)
    | .unreadable reason => .ok (some ⟨p, .error reason⟩)
    | .refused reason => .error (.refused reason)
    | .missing => files.first? ps

/-- The paths that a path may stand for. -/
def candidates (files : Files) (p : Path) : List Path :=
  if p.isAbsolute then [p] else files.roots.map (·.join p)

/-- A path with the home directory that it starts in written out.  No user can be looked up under a
name with a null character. -/
def expand (files : Files) (p : Path) : Except Fault Path :=
  match p.user? with
  | none => .ok p
  | some name =>
    if name.toList.contains '\x00' then .error .nullInName
    else match files.home? name with
      | some home => .ok (p.within home)
      | none => .error .noHome

/-- Finds the file that a text names. -/
def find (files : Files) (text : String) : Except Fault Found :=
  match files.expand (Path.ofText text) with
  | .error f => .error f
  | .ok p => match files.first? (files.candidates p) with
    | .error f => .error f
    | .ok none => .error (.noFile p.text)
    | .ok (some found) => .ok found

/-- The path of the file that a text names. -/
def resolve (files : Files) (text : String) : Except Fault Path := (files.find text).map Found.path

/-- The text of the file that a text names. -/
def read (files : Files) (text : String) : Except Fault String :=
  (files.find text).bind Found.text

end Files

end Curried
