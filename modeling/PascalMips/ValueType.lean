/-!
# Value types

The two types of the language. A literal is real exactly if its text has a point.
-/

namespace PascalMips

/-- The type of a value. -/
inductive ValueType where
  | integer
  | real
deriving DecidableEq

namespace ValueType

def text : ValueType → String
  | integer => "integer"
  | real => "real"

/-- The smallest type that holds values of both: integers are converted to reals, never back. -/
def widen : ValueType → ValueType → ValueType
  | integer, integer => integer
  | _, _ => real

/-- The type of a literal, told by its text. -/
def ofLiteral (text : String) : ValueType := if '.' ∈ text.toList then real else integer

@[simp] theorem widen_eq_integer {s t : ValueType} :
    s.widen t = integer ↔ s = integer ∧ t = integer := by
  cases s <;> cases t <;> decide

end ValueType

end PascalMips
