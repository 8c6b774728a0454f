import PascalMips.Expr.Basic

/-!
# Statements

What a program does: assignments, sequences, choices, loops, calls of procedures, input and output.
-/

namespace PascalMips

/-- A place that a statement stores a value in. -/
inductive Target where
  | var (name : String) (type : ValueType)
  | element (name : String) (type : ValueType) (index : Expr)
deriving DecidableEq

namespace Target

def name : Target → String
  | var name _ => name
  | element name _ _ => name

/-- The type of the values that the place holds. -/
def type : Target → ValueType
  | var _ type => type
  | element _ type _ => type

end Target

/-- A statement. -/
inductive Statement where
  | assign (target : Target) (value : Expr)
  | compound (body : List Statement)
  | branch (test : Expr) (yes no : Statement)
  | loop (test : Expr) (body : Statement)
  | call (name : String) (args : List Expr)
  | read (target : Target)
  | write (value : Expr)

namespace Statement

/-! ## Equality is decidable -/

mutual

/-- Whether two statements are the same tree. -/
def same : Statement → Statement → Bool
  | assign a x, assign b y => a = b && x = y
  | compound xs, compound ys => sameAll xs ys
  | branch x s t, branch y u v => x = y && same s u && same t v
  | loop x s, loop y t => x = y && same s t
  | call a xs, call b ys => a = b && xs = ys
  | read a, read b => a = b
  | write x, write y => x = y
  | _, _ => false

/-- Whether two lists of statements are the same. -/
def sameAll : List Statement → List Statement → Bool
  | [], [] => true
  | x :: xs, y :: ys => same x y && sameAll xs ys
  | _, _ => false

end

mutual

theorem same_iff : ∀ s t : Statement, same s t = true ↔ s = t
  | assign a x, t => by cases t <;> simp [same]
  | compound xs, t => by cases t <;> simp [same, sameAll_iff xs]
  | branch x s u, t => by cases t <;> simp [same, same_iff s, same_iff u, and_assoc]
  | loop x s, t => by cases t <;> simp [same, same_iff s]
  | call a xs, t => by cases t <;> simp [same]
  | read a, t => by cases t <;> simp [same]
  | write x, t => by cases t <;> simp [same]

theorem sameAll_iff : ∀ ss ts : List Statement, sameAll ss ts = true ↔ ss = ts
  | [], ts => by cases ts <;> simp [sameAll]
  | s :: ss, ts => by cases ts <;> simp [sameAll, same_iff s, sameAll_iff ss]

end

instance : DecidableEq Statement := fun s t => decidable_of_iff _ (same_iff s t)

end Statement

end PascalMips
