/-!
# Paths

A path is cut at its slashes. It does not name a file by itself: the names in it are followed one
after the other, and each but the last has to lead to a directory.
-/

namespace PascalMips

/-- The reasons why a path does not lead to a file. -/
inductive PathFault where
  | missing
  | notDirectory
  | isDirectory
  | nameTooLong
deriving DecidableEq

namespace PathFault

/-- The number of the fault in the operating system. -/
def code : PathFault → Nat
  | missing => 2
  | notDirectory => 20
  | isDirectory => 21
  | nameTooLong => 36

/-- The class of the fault, in one word. -/
def kind : PathFault → String
  | missing => "NotFound"
  | notDirectory => "NotADirectory"
  | isDirectory => "IsADirectory"
  | nameTooLong => "InvalidFilename"

def text : PathFault → String
  | missing => "No such file or directory"
  | notDirectory => "Not a directory"
  | isDirectory => "Is a directory"
  | nameTooLong => "File name too long"

def all : List PathFault := [missing, notDirectory, isDirectory, nameTooLong]

def ofCode? (code : Nat) : Option PathFault := all.find? (·.code = code)

end PathFault

/-- A path, cut at its slashes. -/
structure Path where
  /-- It starts at the root of all files and not at the working directory. -/
  absolute : Bool
  names : List String
  /-- It ends in a slash, so that it means a directory. -/
  slashed : Bool
deriving DecidableEq

namespace Path

/-- The most bytes that a path can have. -/
def maxSize : Nat := 4095

/-- The most bytes that a name in a path can have. -/
def maxNameSize : Nat := 255

/-- Cuts a path. Slashes in a row are as good as one. -/
def ofString (text : String) : Except PathFault Path :=
  if text = "" then .error .missing
  else if maxSize < text.utf8ByteSize then .error .nameTooLong
  else
    .ok {
      absolute := text.startsWith "/"
      names := (text.splitOn "/").filter (· ≠ "")
      slashed := text.endsWith "/" }

end Path

end PascalMips
