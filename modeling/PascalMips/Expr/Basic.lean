import PascalMips.Operator

/-!
# Expressions

Expression trees carry the type of each node. The constructors take it as given; `ofLiteral`,
`ofBinary` and `ofUnary` derive it.
-/

namespace PascalMips

/-- A typed expression. -/
inductive Expr where
  /-- A number, by its text. -/
  | literal (text : String) (type : ValueType)
  /-- The value of a variable. -/
  | var (name : String) (type : ValueType)
  /-- An element of an array. -/
  | element (name : String) (type : ValueType) (index : Expr)
  /-- The result of a function. -/
  | call (name : String) (type : ValueType) (args : List Expr)
  /-- Two operands and their operator. -/
  | binary (op : BinaryOp) (left right : Expr) (type : ValueType)
  /-- One operand and its operator. -/
  | unary (op : UnaryOp) (operand : Expr) (type : ValueType)

namespace Expr

def type : Expr → ValueType
  | literal _ type => type
  | var _ type => type
  | element _ type _ => type
  | call _ type _ => type
  | binary _ _ _ type => type
  | unary _ _ type => type

/-- A literal whose type is told by its text. -/
def ofLiteral (text : String) : Expr := literal text (ValueType.ofLiteral text)

/-- An operation whose type follows from its operands. -/
def ofBinary (op : BinaryOp) (left right : Expr) : Expr :=
  binary op left right (op.resultType left.type right.type)

/-- An operation whose type follows from its operand. -/
def ofUnary (op : UnaryOp) (operand : Expr) : Expr :=
  unary op operand (op.resultType operand.type)

def literal? : Expr → Option String
  | literal text _ => some text
  | _ => none

/-! ## Equality is decidable -/

mutual

/-- Whether two expressions are the same tree. -/
def same : Expr → Expr → Bool
  | literal a s, literal b t => a = b && s = t
  | var a s, var b t => a = b && s = t
  | element a s i, element b t j => a = b && s = t && same i j
  | call a s xs, call b t ys => a = b && s = t && sameAll xs ys
  | binary o a b s, binary p c d t => o = p && same a c && same b d && s = t
  | unary o a s, unary p b t => o = p && same a b && s = t
  | _, _ => false

/-- Whether two lists of expressions are the same. -/
def sameAll : List Expr → List Expr → Bool
  | [], [] => true
  | x :: xs, y :: ys => same x y && sameAll xs ys
  | _, _ => false

end

mutual

theorem same_iff : ∀ x y : Expr, same x y = true ↔ x = y
  | literal a s, y => by cases y <;> simp [same]
  | var a s, y => by cases y <;> simp [same]
  | element a s i, y => by cases y <;> simp [same, same_iff i, and_assoc]
  | call a s xs, y => by cases y <;> simp [same, sameAll_iff xs, and_assoc]
  | binary o a b s, y => by cases y <;> simp [same, same_iff a, same_iff b, and_assoc]
  | unary o a s, y => by cases y <;> simp [same, same_iff a, and_assoc]

theorem sameAll_iff : ∀ xs ys : List Expr, sameAll xs ys = true ↔ xs = ys
  | [], ys => by cases ys <;> simp [sameAll]
  | x :: xs, ys => by cases ys <;> simp [sameAll, same_iff x, sameAll_iff xs]

end

instance : DecidableEq Expr := fun x y => decidable_of_iff _ (same_iff x y)

end Expr

end PascalMips
