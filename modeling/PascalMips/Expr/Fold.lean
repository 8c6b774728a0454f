import PascalMips.Constant
import PascalMips.Expr.Basic

/-!
# Folding constants in expressions

An operation on two literals that has a value becomes the literal of that value. Operands are folded
first, and nothing else changes.
-/

namespace PascalMips.Expr

/-- The value of a literal, read in the type that the tree gives it. -/
def constant? : Expr → Option Constant
  | literal text type => Constant.ofLiteral? text type
  | _ => none

/-- The literal that an operation on these operands comes to. -/
def evaluate? (op : BinaryOp) (left right : Expr) : Option Expr := do
  let value ← Constant.apply op (← left.constant?) (← right.constant?)
  return ofLiteral value.text

mutual

/-- The expression with its constant operations replaced by their values. -/
def fold : Expr → Expr
  | literal text type => literal text type
  | var name type => var name type
  | element name type index => element name type index.fold
  | call name type args => call name type (foldAll args)
  | binary op left right type =>
    let l := left.fold
    let r := right.fold
    (evaluate? op l r).getD (binary op l r type)
  | unary op operand type => unary op operand.fold type

/-- Expressions with their constant operations replaced by their values. -/
def foldAll : List Expr → List Expr
  | [] => []
  | e :: es => e.fold :: foldAll es

end

end PascalMips.Expr
