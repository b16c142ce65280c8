/-!
# Files

Commands read files by their paths.
-/

namespace Scribe

/-- Why a file cannot be read. -/
inductive FileError where
  | missing
  | isDirectory
  | notDirectory
  /-- The path, or a name in it, is longer than a file system takes. -/
  | nameTooLong
  /-- The file is there, but reading it fails. -/
  | unreadable (reason : String)
  deriving DecidableEq, Repr

namespace FileError

def message : FileError → String
  | .missing => "No such file or directory (os error 2)"
  | .isDirectory => "Is a directory (os error 21)"
  | .notDirectory => "Not a directory (os error 20)"
  | .nameTooLong => "File name too long (os error 36)"
  | .unreadable reason => reason

end FileError

/-- The contents of files by their paths. -/
abbrev Files := String → Except FileError String

namespace Files

/-- Whether there is a file at a path. -/
def isFile (files : Files) (path : String) : Bool :=
  match files path with
  | .ok _ => true
  | .error (.unreadable _) => true
  | .error _ => false

end Files

/-! ## Paths -/

/-- Whether a part of a path leads nowhere else. -/
def isVoidPart (part : String) : Bool :=
  part == "" || part == "."

/-- A path without such parts at its end. -/
def trimParts (parts : List String) : List String :=
  (parts.reverse.dropWhile isVoidPart).reverse

/-- The path of a file that lies beside another one. -/
def sibling (path name : String) : String :=
  match (trimParts (path.splitOn "/")).dropLast with
  | [] => name
  | first :: rest => "/".intercalate (first :: trimParts rest ++ [name])

end Scribe
