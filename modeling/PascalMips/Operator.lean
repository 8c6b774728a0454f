import PascalMips.ValueType

/-!
# Operators

The operators of expressions and the types of their results. Truth values are the integers 0 and 1.
-/

namespace PascalMips

/-- The comparisons. -/
inductive Relation where
  | eq | ne | lt | le | gt | ge
deriving DecidableEq

namespace Relation

def text : Relation → String
  | eq => "="
  | ne => "<>"
  | lt => "<"
  | le => "<="
  | gt => ">"
  | ge => ">="

/-- The comparison that holds of two integers exactly if the given one does not. -/
def negate : Relation → Relation
  | eq => ne
  | ne => eq
  | lt => ge
  | le => gt
  | gt => le
  | ge => lt

@[simp] theorem negate_negate (r : Relation) : r.negate.negate = r := by cases r <;> rfl

end Relation

/-- The operators with two operands. `divide` is the sign `/`, which divides operands of either
type; `div` and `mod` are the quotient and remainder of integers. -/
inductive BinaryOp where
  | add | sub | mul | divide | div | mod | and | or
  | rel (relation : Relation)
deriving DecidableEq

namespace BinaryOp

def text : BinaryOp → String
  | add => "+"
  | sub => "-"
  | mul => "*"
  | divide => "/"
  | div => "div"
  | mod => "mod"
  | and => "and"
  | or => "or"
  | rel relation => relation.text

def isRelational : BinaryOp → Bool
  | rel _ => true
  | _ => false

/-- Whether an operator joins truth values. -/
def isLogical : BinaryOp → Bool
  | and | or => true
  | _ => false

/-- The operator with the opposite truth value, for the comparisons. -/
def negate? : BinaryOp → Option BinaryOp
  | rel relation => some (rel relation.negate)
  | _ => none

/-- The type of a result: that of the wider operand for `+ - * /`, an integer for all others. -/
def resultType (op : BinaryOp) (left right : ValueType) : ValueType :=
  match op with
  | add | sub | mul | divide => left.widen right
  | div | mod | and | or | rel _ => .integer

end BinaryOp

/-- The operators with one operand. -/
inductive UnaryOp where
  | neg | not
deriving DecidableEq

namespace UnaryOp

def text : UnaryOp → String
  | neg => "-"
  | not => "not"

def resultType (op : UnaryOp) (operand : ValueType) : ValueType :=
  match op with
  | neg => operand
  | not => .integer

end UnaryOp

end PascalMips
