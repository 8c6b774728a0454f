/-!
# Outlines

An outline is a text with further outlines below it. It is written one text to a line, each line led
by one mark for every level above it.
-/

namespace PascalMips

/-- A text and the outlines below it. -/
inductive Outline where
  | node (text : String) (children : List Outline)

namespace Outline

def leaf (text : String) : Outline := node text []

/-- A line of a written outline. -/
structure Row where
  level : Nat
  text : String
deriving DecidableEq

def Row.render (row : Row) : String :=
  String.join (List.replicate row.level "|-- ") ++ row.text ++ "\n"

mutual

/-- The rows of an outline that stands at `level`. -/
def rows (level : Nat) : Outline → List Row
  | node text children => ⟨level, text⟩ :: rowsAll (level + 1) children

/-- The rows of outlines that stand side by side at `level`. -/
def rowsAll (level : Nat) : List Outline → List Row
  | [] => []
  | outline :: outlines => outline.rows level ++ rowsAll level outlines

end

def render (outline : Outline) : String := String.join ((outline.rows 0).map Row.render)

end Outline

end PascalMips
