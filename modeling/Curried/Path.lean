/-!
# Path

File paths, normalised as far as that needs no look at the files: repeated slashes and `.` are
dropped, and `..` stays.  One slash in front makes a path absolute; exactly two are kept as a root
of their own, and three or more count as one.
-/

namespace Curried

/-- A path: its root, if it is absolute, and its parts. -/
structure Path where
  root : String
  parts : List String
deriving DecidableEq

namespace Path

/-- The root of a path that starts with this many slashes. -/
def rootOf (slashes : Nat) : String :=
  if slashes = 0 then "" else if slashes = 2 then "//" else "/"

/-- The path written as `text`. -/
def ofText (text : String) : Path :=
  { root := rootOf (text.toList.takeWhile (· == '/')).length
    parts := (text.splitOn "/").filter fun part => part != "" && part != "." }

/-- The text of a path; the empty path is a dot. -/
def text (p : Path) : String :=
  let written := p.root ++ "/".intercalate p.parts
  if written = "" then "." else written

/-- Whether a path starts at a root. -/
def isAbsolute (p : Path) : Bool := p.root != ""

/-- The path `p` as seen from the directory `base`. -/
def join (base p : Path) : Path :=
  if p.isAbsolute then p else { base with parts := base.parts ++ p.parts }

/-- The user in whose home directory a path starts: a relative path may begin with a tilde and a
name.  No name means oneself. -/
def user? (p : Path) : Option String :=
  if p.isAbsolute then none
  else match p.parts.head?.map String.toList with
    | some ('~' :: name) => some (String.ofList name)
    | _ => none

/-- The path with the directory `home` in place of its first part. -/
def within (p home : Path) : Path := { home with parts := home.parts ++ p.parts.drop 1 }

end Path

end Curried
