/-!
# The working directory

A script is named by a path from the working directory.  The path is followed name by name: an empty name and `.`
stay where they are, `..` goes up, and any other name goes to the file or directory of that name, spelled exactly so.
Only what lies in the working directory is known; above it there are directories and nothing else.

* `Directory.follow`: one name of a path.
* `Directory.read`: the file at the end of a path.
-/

namespace Treewalk

/-- Why a path leads to no file. -/
inductive OpenError where
  /-- There is nothing of that name. -/
  | missing
  /-- The path ends at a directory. -/
  | isDirectory
  /-- The path goes on behind a file. -/
  | notDirectory
  /-- The path, or a name in it, is longer than a file system takes. -/
  | nameTooLong
  /-- The path holds the character that no path can hold. -/
  | nulCharacter
deriving DecidableEq

/-- The files in a directory and in the directories below it, each with the names that lead to it. -/
structure Directory where
  files : List (List String × ByteArray)

/-- Where a part of a path leads: to a place in the working directory, or out of it. -/
inductive Location where
  | within (names : List String)
  | above
deriving DecidableEq

namespace Directory

/-- The longest name, in bytes. -/
def maxName : Nat := 255

/-- The longest path, in bytes. -/
def maxPath : Nat := 4095

/-- The names in a path. -/
def pathNames (path : String) : List String :=
  path.splitOn "/"

/-- Whether a name stays where it is. -/
def stays (name : String) : Bool :=
  name = "" || name = "."

/-- The directory with the given files, each named by its path. -/
def ofFiles (files : List (String × ByteArray)) : Directory :=
  ⟨files.map fun file => ((pathNames file.1).filter fun name => !stays name, file.2)⟩

/-- Whether there is a file at a place. -/
def hasFile (directory : Directory) (names : List String) : Bool :=
  directory.files.any fun file => file.1 = names

/-- Whether there is anything at a place: a file, or a directory with a file somewhere in it. -/
def hasEntry (directory : Directory) (names : List String) : Bool :=
  directory.files.any fun file => names.isPrefixOf file.1

/-- Follow one name from a place.  From a file there is no way on. -/
def follow (directory : Directory) (place : Location) (name : String) : Except OpenError Location :=
  match place with
  | .above =>
    if stays name ∨ name = ".." then .ok .above
    else if maxName < name.utf8ByteSize then .error .nameTooLong
    else .error .missing
  | .within names =>
    if directory.hasFile names then .error .notDirectory
    else if stays name then .ok (.within names)
    else if name = ".." then .ok (if names = [] then .above else .within names.dropLast)
    else if maxName < name.utf8ByteSize then .error .nameTooLong
    else if directory.hasEntry (names ++ [name]) then .ok (.within (names ++ [name]))
    else .error .missing

/-- The file at the end of a path.  A path that starts with a slash starts above the working directory, and an empty
path leads nowhere. -/
def read (directory : Directory) (path : String) : Except OpenError ByteArray := do
  if path.toList.contains '\x00' then throw .nulCharacter
  if path = "" then throw .missing
  if maxPath < path.utf8ByteSize then throw .nameTooLong
  let start := if path.toList.head? = some '/' then .above else .within []
  match ← (pathNames path).foldlM directory.follow start with
  | .above => throw .isDirectory
  | .within names =>
    match directory.files.lookup names with
    | some bytes => return bytes
    | none => throw .isDirectory

end Directory

end Treewalk
