/-!
# Positions in a source text

A position is a line and a column, both counted from one. Columns count code points; only a line
feed opens a new line.
-/

namespace PascalMips

/-- A line and a column, counted from one. -/
structure Location where
  line : Nat
  column : Nat
deriving DecidableEq

namespace Location

/-- The position of the first character of a text. -/
def start : Location := ⟨1, 1⟩

/-- The position after the character `c`. -/
def next (loc : Location) (c : Char) : Location :=
  if c = '\n' then ⟨loc.line + 1, 1⟩ else ⟨loc.line, loc.column + 1⟩

/-- The position after the characters `cs`. -/
def advance (loc : Location) (cs : List Char) : Location := cs.foldl next loc

@[simp] theorem advance_nil (loc : Location) : loc.advance [] = loc := rfl

@[simp] theorem advance_cons (loc : Location) (c : Char) (cs : List Char) :
    loc.advance (c :: cs) = (loc.next c).advance cs := rfl

theorem advance_append (loc : Location) (cs ds : List Char) :
    loc.advance (cs ++ ds) = (loc.advance cs).advance ds := by
  simp [advance]

/-- `line L, column C`, as error messages name a position. -/
def describe (loc : Location) : String := s!"line {loc.line}, column {loc.column}"

end Location

end PascalMips
