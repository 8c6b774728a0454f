import PascalMips.Statement.Basic
import PascalMips.Text.Location

/-!
# Programs

A program and its subprograms, which nest. Arrays appear among the variables with the type of their
elements; their bounds are kept by the symbol table.
-/

namespace PascalMips

/-- A declared variable. -/
structure Variable where
  name : String
  type : ValueType
deriving DecidableEq

/-- The two kinds of subprograms. -/
inductive RoutineKind where
  | function
  | procedure
deriving DecidableEq

/-- A subprogram. The location is that of its name. -/
structure Subprogram where
  kind : RoutineKind
  name : String
  returns : Option ValueType
  args : List Variable
  vars : List Variable
  subprograms : List Subprogram
  body : List Statement
  location : Location

namespace Subprogram

/-! ## Equality is decidable -/

mutual

/-- Whether two subprograms are the same. -/
def same : Subprogram → Subprogram → Bool
  | ⟨k, n, r, a, v, ss, b, l⟩, ⟨k', n', r', a', v', ss', b', l'⟩ =>
    k = k' && n = n' && r = r' && a = a' && v = v' && sameAll ss ss' && b = b' && l = l'

/-- Whether two lists of subprograms are the same. -/
def sameAll : List Subprogram → List Subprogram → Bool
  | [], [] => true
  | s :: ss, t :: ts => same s t && sameAll ss ts
  | _, _ => false

end

mutual

theorem same_iff : ∀ s t : Subprogram, same s t = true ↔ s = t
  | ⟨_, _, _, _, _, ss, _, _⟩, ⟨_, _, _, _, _, ss', _, _⟩ => by
    simp [same, sameAll_iff ss ss', and_assoc]

theorem sameAll_iff : ∀ ss ts : List Subprogram, sameAll ss ts = true ↔ ss = ts
  | [], ts => by cases ts <;> simp [sameAll]
  | s :: ss, ts => by
    cases ts with
    | nil => simp [sameAll]
    | cons t ts => simp [sameAll, same_iff s t, sameAll_iff ss ts]

end

instance : DecidableEq Subprogram := fun s t => decidable_of_iff _ (same_iff s t)

end Subprogram

/-- A program. The location is that of its name. -/
structure Program where
  name : String
  vars : List Variable
  subprograms : List Subprogram
  body : List Statement
  location : Location
deriving DecidableEq

end PascalMips
