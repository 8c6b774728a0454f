import PascalMips.Literal
import PascalMips.Operator
import PascalMips.Single.Arith

/-!
# Constants

The values that literals denote and the operations on them. Integers have 32 bits and reals are
singles, as on the target. An operation gives nothing where it has no such value: on overflow, on
division by zero, for a real result that is not finite, for `div` and `mod` of reals, and for `and`
and `or` of anything but the integers 0 and 1.
-/

namespace PascalMips

/-- Whether a comparison of integers holds. -/
def Relation.holds : Relation → Int → Int → Bool
  | eq, a, b => a = b
  | ne, a, b => a ≠ b
  | lt, a, b => a < b
  | le, a, b => a ≤ b
  | gt, a, b => b < a
  | ge, a, b => b ≤ a

/-- Whether a comparison of singles holds. With a not-a-number only `<>` does. -/
def Relation.holdsReal : Relation → Single → Single → Bool
  | eq, a, b => a.eq b
  | ne, a, b => !a.eq b
  | lt, a, b => a.lt b
  | le, a, b => a.le b
  | gt, a, b => b.lt a
  | ge, a, b => b.le a

/-- A value. -/
inductive Constant where
  | integer (value : Int)
  | real (value : Single)
deriving DecidableEq

namespace Constant

/-- The value of a literal of the given type. -/
def ofLiteral? (text : String) : ValueType → Option Constant
  | .integer => (Literal.integer? text).map integer
  | .real => (Literal.real? text).map real

/-- The value as a single; an integer is rounded. -/
def toReal : Constant → Single
  | integer i => Single.ofInt i
  | real r => r

/-- The truth value that the integers 0 and 1 stand for. -/
def toBool? : Constant → Option Bool
  | integer i => if i = 0 then some false else if i = 1 then some true else none
  | real _ => none

/-- The integer that stands for a truth value. -/
def ofBool (b : Bool) : Constant := integer (if b then 1 else 0)

def text : Constant → String
  | integer i => toString i
  | real r => Literal.spell r

/-- An integer, if it has 32 bits. -/
def checked (i : Int) : Option Constant := if Literal.InRange i then some (integer i) else none

/-- A single, if it is finite. -/
def finite (r : Single) : Option Constant := if r.isFinite then some (real r) else none

/-- Operations of integers. A quotient is cut off toward zero, and a remainder has the sign of the
dividend; `mod` gives nothing where the quotient overflows. -/
def integerOp (op : BinaryOp) (a b : Int) : Option Constant :=
  match op with
  | .add => checked (a + b)
  | .sub => checked (a - b)
  | .mul => checked (a * b)
  | .divide | .div => if b = 0 then none else checked (a.tdiv b)
  | .mod => if b = 0 ∨ ¬Literal.InRange (a.tdiv b) then none else checked (a.tmod b)
  | _ => none

/-- Operations of reals. -/
def realOp (op : BinaryOp) (a b : Single) : Option Constant :=
  match op with
  | .add => finite (a.add b)
  | .sub => finite (a.sub b)
  | .mul => finite (a.mul b)
  | .divide => if b.eq (Single.zero false) then none else finite (a.div b)
  | _ => none

/-- Whether a comparison of two values holds; an integer and a real are compared as reals. -/
def compare (relation : Relation) : Constant → Constant → Bool
  | integer a, integer b => relation.holds a b
  | a, b => relation.holdsReal a.toReal b.toReal

/-- The value of an operation. -/
def apply (op : BinaryOp) (a b : Constant) : Option Constant :=
  match op with
  | .and => do return ofBool ((← a.toBool?) && (← b.toBool?))
  | .or => do return ofBool ((← a.toBool?) || (← b.toBool?))
  | .rel relation => some (ofBool (compare relation a b))
  | op =>
    match a, b with
    | integer a, integer b => integerOp op a b
    | a, b => realOp op a.toReal b.toReal

end Constant

end PascalMips
