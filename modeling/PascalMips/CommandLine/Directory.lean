import PascalMips.CommandLine.Path

/-!
# The working directory

A command reads and writes files below its working directory. Paths are followed name by name: `.`
stays and `..` goes to the directory above. Outside of the working directory only what every system
has is known to exist: the directories `/dev` and `/tmp` and the null device, which is empty and
swallows what is written to it.

A path that ends in a slash is never a file. To read, such a path is followed to its end and a file
there is refused; to write, it is refused before its last name is looked up.
-/

namespace PascalMips

/-- A directory that a path leads to: the one with these names below the working directory or below
the root of all files, or one above the working directory. -/
inductive Place where
  | here (names : List String)
  | root (names : List String)
  | above
deriving DecidableEq

namespace Place

def parent : Place → Place
  | here [] => above
  | here names => here names.dropLast
  | root names => root names.dropLast
  | above => above

end Place

/-- What stands under a name. -/
inductive Entry where
  | absent
  | file (bytes : ByteArray)
  | directory (place : Place)

/-- The files of a working directory, by their names with slashes between them. -/
structure Directory where
  files : List (String × ByteArray)

namespace Directory

/-- What the names below the working directory lead to. A directory is there if it holds a file. -/
def find (dir : Directory) (names : List String) : Entry :=
  match dir.files.lookup ("/".intercalate names) with
  | some bytes => .file bytes
  | none =>
    if dir.files.any fun (path, _) => names.isPrefixOf (path.splitOn "/") then
      .directory (.here names)
    else .absent

/-- What the names below the root lead to. -/
def findAtRoot : List String → Entry
  | ["dev"] => .directory (.root ["dev"])
  | ["tmp"] => .directory (.root ["tmp"])
  | ["dev", "null"] => .file .empty
  | _ => .absent

/-- What stands under a name in a directory. -/
def entry (dir : Directory) (place : Place) (name : String) : Except PathFault Entry :=
  if name = "." then .ok (.directory place)
  else if name = ".." then .ok (.directory place.parent)
  else if Path.maxNameSize < name.utf8ByteSize then .error .nameTooLong
  else
    match place with
    | .here names => .ok (dir.find (names ++ [name]))
    | .root names => .ok (findAtRoot (names ++ [name]))
    | .above => .ok .absent

/-- The directory of the given name in a directory. -/
def enter (dir : Directory) (place : Place) (name : String) : Except PathFault Place :=
  match dir.entry place name with
  | .error fault => .error fault
  | .ok .absent => .error .missing
  | .ok (.file _) => .error .notDirectory
  | .ok (.directory place) => .ok place

/-- The directory that names lead to, one after the other. -/
def walk (dir : Directory) : Place → List String → Except PathFault Place
  | place, [] => .ok place
  | place, name :: names =>
    match dir.enter place name with
    | .error fault => .error fault
    | .ok place => dir.walk place names

/-- The directory that holds what a path means. -/
def holder (dir : Directory) (path : Path) : Except PathFault Place :=
  dir.walk (if path.absolute then .root [] else .here []) path.names.dropLast

/-! ## Reading -/

/-- What a path leads to. A path without names is the root. -/
def follow (dir : Directory) (path : Path) : Except PathFault Entry := do
  let place ← dir.holder path
  match path.names.getLast? with
  | none => return .directory place
  | some name => dir.entry place name

/-- The content of the file that a path leads to. -/
def read (dir : Directory) (text : String) : Except PathFault ByteArray := do
  let path ← Path.ofString text
  match ← dir.follow path with
  | .absent => throw .missing
  | .directory _ => throw .isDirectory
  | .file bytes => if path.slashed then throw .notDirectory else return bytes

/-! ## Writing -/

/-- The working directory after a file was written; one written outside of it does not show. -/
def put (dir : Directory) (place : Place) (name : String) (bytes : ByteArray) : Directory :=
  match place with
  | .here names =>
    let path := "/".intercalate (names ++ [name])
    ⟨dir.files.filter (·.1 ≠ path) ++ [(path, bytes)]⟩
  | _ => dir

/-- Writes a file of the given name, unless a directory has that name. -/
def putFile (dir : Directory) (place : Place) (name : String) (bytes : ByteArray) :
    Except PathFault Directory := do
  match ← dir.entry place name with
  | .directory _ => throw .isDirectory
  | _ => return dir.put place name bytes

/-- Writes the file that a path leads to. Its directory has to be there. -/
def write (dir : Directory) (text : String) (bytes : ByteArray) : Except PathFault Directory := do
  let path ← Path.ofString text
  let place ← dir.holder path
  match path.names.getLast? with
  | none => throw .isDirectory
  | some name => if path.slashed then throw .isDirectory else dir.putFile place name bytes

end Directory

end PascalMips
