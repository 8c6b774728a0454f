import PascalMips.Expr.Basic
import PascalMips.Literal
import PascalMips.Parser.Basic

/-!
# Parsing expressions

```text
expression ::= sum [ relation sum ]
sum        ::= [ "+" | "-" ] product { ( "+" | "-" | "or" ) product }
product    ::= factor { ( "*" | "/" | "div" | "mod" | "and" ) factor }
factor     ::= number | name | name index | name arguments
             | "(" expression ")" | "not" factor
index      ::= "[" expression "]"
arguments  ::= [ "(" expression { "," expression } ")" ]
```

What a name is declared as tells a variable, an array element and a function call apart. A leading
minus negates the product after it, and the operators of one level associate to the left.
-/

namespace PascalMips.Parse

/-! ## Operators -/

/-- The comparison that a token stands for. -/
def relation? : Kind → Option BinaryOp
  | .punct .equal => some (.rel .eq)
  | .punct .notEqual => some (.rel .ne)
  | .punct .less => some (.rel .lt)
  | .punct .lessEqual => some (.rel .le)
  | .punct .greater => some (.rel .gt)
  | .punct .greaterEqual => some (.rel .ge)
  | _ => none

/-- The operator between products that a token stands for. -/
def additive? : Kind → Option BinaryOp
  | .punct .plus => some .add
  | .punct .minus => some .sub
  | .keyword .or => some .or
  | _ => none

/-- The operator between factors that a token stands for. -/
def multiplicative? : Kind → Option BinaryOp
  | .punct .star => some .mul
  | .punct .slash => some .divide
  | .keyword .div => some .div
  | .keyword .mod => some .mod
  | .keyword .and => some .and
  | _ => none

/-- An operator of a level and the operand after it, if there is one. -/
def operation? (op? : Kind → Option BinaryOp) (operand : Parse Expr) :
    Parse (Option (BinaryOp × Expr)) := do
  match op? (← current).kind with
  | none => return none
  | some op =>
    let _ ← advance
    return some (op, ← operand)

/-- The operations of a level that follow `first`, associated to the left. -/
def leftAssoc (op? : Kind → Option BinaryOp) (operand : Parse Expr) (first : Expr) :
    Parse Expr := do
  let operations ← many (operation? op? operand)
  return operations.foldl (fun left (op, right) => Expr.ofBinary op left right) first

/-! ## Levels -/

/-- Factors joined by multiplying operators. -/
def product (factor : Parse Expr) : Parse Expr := do
  let first ← factor
  leftAssoc multiplicative? factor first

/-- Products joined by adding operators, after an optional sign. -/
def sum (product : Parse Expr) : Parse Expr := do
  if ← accept (.punct .minus) then
    let first ← product
    leftAssoc additive? product (.ofUnary .neg first)
  else
    let _ ← accept (.punct .plus)
    let first ← product
    leftAssoc additive? product first

/-- One sum, or two that are compared. -/
def comparison (sum : Parse Expr) : Parse Expr := do
  let left ← sum
  match ← operation? relation? sum with
  | none => return left
  | some (op, right) => return .ofBinary op left right

def expressionOf (factor : Parse Expr) : Parse Expr := comparison (sum (product factor))

/-! ## Factors -/

/-- Whether `text` denotes a number: a 32-bit integer without point, a finite single with one. -/
def isNumber (text : String) : Bool :=
  match ValueType.ofLiteral text with
  | .integer => (Literal.integer? text).isSome
  | .real => (Literal.real? text).any Single.isFinite

/-- The literal read as `number`. -/
def literal (number : Token) : Parse Expr :=
  if isNumber number.lexeme then return .ofLiteral number.lexeme
  else fail (.malformedNumber number.lexeme) number.location

/-- An expression in brackets. -/
def index (expression : Parse Expr) : Parse Expr := do
  let _ ← expect (.punct .lbracket)
  let e ← expression
  let _ ← expect (.punct .rbracket)
  return e

/-- An expression in parentheses. -/
def group (expression : Parse Expr) : Parse Expr := do
  let _ ← expect (.punct .lparen)
  let e ← expression
  let _ ← expect (.punct .rparen)
  return e

/-- Expressions in parentheses, with commas between them, or nothing. -/
def argumentList (expression : Parse Expr) : Parse (List Expr) := do
  if ← accept (.punct .lparen) then
    let args ← sepBy (.punct .comma) expression
    let _ ← expect (.punct .rparen)
    return args
  else return []

/-- The arguments given to the subprogram `name`, as many as it has parameters. -/
def arguments (expression : Parse Expr) (name : Token) (params : List ValueType) :
    Parse (List Expr) := do
  let args ← argumentList expression
  if args.length = params.length then return args
  else fail (.arity name.lexeme params.length args.length) name.location

/-- What the name read as `name` stands for in an expression. -/
def named (expression : Parse Expr) (name : Token) : Parse Expr := do
  match ← resolve name with
  | .scalar type => return .var name.lexeme type
  | .array type _ => return .element name.lexeme type (← index expression)
  | .function returns params =>
    return .call name.lexeme returns (← arguments expression name params)
  | binding => fail (.wrongRole name.lexeme binding.role .factor) name.location

/-- A factor, over the factors nested in it. -/
def factorOf (inner : Parse Expr) : Parse Expr := do
  match (← current).kind with
  | .number => literal (← advance)
  | .punct .lparen => group (expressionOf inner)
  | .keyword .not =>
    let _ ← advance
    return .ofUnary .not (← inner)
  | .identifier => named (expressionOf inner) (← advance)
  | _ => unexpected .expression

def factor : Parse Expr := nest factorOf

def expression : Parse Expr := expressionOf factor

end PascalMips.Parse
