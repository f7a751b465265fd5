import Curried.Files

/-!
# Files — directories

A file system with finitely many files and no links.  A directory exists if a file or the current
directory lies below it.  Paths are followed part by part, so `x/..` needs a directory `x`.
-/

namespace Curried

/-- The current directory, by the names from the root on, and the files with their contents. -/
structure Directory where
  current : List String
  files : List (List String × ByteArray)

namespace Directory

/-- The longest name, in bytes. -/
def nameLimit : Nat := 255

/-- The length at which a whole path is refused, in bytes. -/
def pathLimit : Nat := 4096

/-- The entry for a name or a path that is too long. -/
def tooLong : Entry := .refused "File name too long"

/-- The contents of the file with these names from the root on. -/
def file? (d : Directory) (place : List String) : Option ByteArray :=
  (d.files.find? fun (names, _) => names == place).map Prod.snd

/-- Whether there is a directory with these names from the root on. -/
def hasDirectory (d : Directory) (place : List String) : Bool :=
  place.isPrefixOf d.current || d.files.any fun (names, _) => place.isPrefixOf names.dropLast

/-- Follows the parts of a path from a directory. -/
def follow (d : Directory) (here : List String) : List String → Entry
  | [] => .missing
  | ".." :: parts => follow d here.dropLast parts
  | name :: parts =>
    if nameLimit < name.utf8ByteSize then tooLong
    else
      let there := here ++ [name]
      if d.hasDirectory there then follow d there parts
      else match parts, d.file? there with
        | [], some contents => .file contents
        | _, _ => .missing

/-- What a path leads to.  No path with a null character leads anywhere. -/
def entry (d : Directory) (p : Path) : Entry :=
  if p.text.toList.contains '\x00' then .missing
  else if pathLimit ≤ p.text.utf8ByteSize then tooLong
  else d.follow (if p.isAbsolute then [] else d.current) p.parts

/-- The path of the current directory. -/
def path (d : Directory) : Path := ⟨"/", d.current⟩

end Directory

end Curried
