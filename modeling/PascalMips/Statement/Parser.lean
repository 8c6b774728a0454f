import PascalMips.Expr.Parser
import PascalMips.Statement.Basic

/-!
# Parsing statements

```text
compound  ::= "begin" [ statement { ";" statement } [ ";" ] ] "end"
statement ::= target ":=" expression | procedure arguments | compound
            | "if" expression "then" statement "else" statement
            | "while" expression "do" statement
            | "read" "(" target ")" | "write" "(" expression ")"
target    ::= variable | array index | function
```

A name in front of a statement is a call if it is declared as a procedure, and a target otherwise.
The name of a function is a target while the body of a function of that name is open, and stands for
its result.
-/

namespace PascalMips.Parse

/-- The place that the name read as `name` stands for. -/
def target (name : Token) : Parse Target := do
  let binding ← resolve name
  match binding with
  | .scalar type => return .var name.lexeme type
  | .array type _ => return .element name.lexeme type (← index expression)
  | .function returns _ =>
    if ← isEnclosing name.lexeme then return .var name.lexeme returns
    else fail (.wrongRole name.lexeme binding.role .target) name.location
  | _ => fail (.wrongRole name.lexeme binding.role .target) name.location

/-- The parameters of `name`, if it is visible as a procedure. -/
def procedure? (name : String) : Parse (Option (List ValueType)) := fun p =>
  match (p.symbols.lookup? name).map Symbol.binding with
  | some (.procedure params) => .ok (some params) p
  | _ => .ok none p

/-- A call of a procedure or an assignment. -/
def callOrAssign : Parse Statement := do
  let name ← expect .identifier
  match ← procedure? name.lexeme with
  | some params => return .call name.lexeme (← arguments expression name params)
  | none =>
    let place ← target name
    let _ ← expect (.punct .assign)
    return .assign place (← expression)

/-- A statement after a semicolon. A semicolon before the closing word adds none. -/
def nextStatement? (statement : Parse Statement) : Parse (Option Statement) := do
  if ← accept (.punct .semicolon) then
    if ← check (.keyword .end_) then return none else return some (← statement)
  else return none

/-- Statements with semicolons between them, up to the closing word. -/
def statementList (statement : Parse Statement) : Parse (List Statement) := do
  if ← check (.keyword .end_) then return []
  else
    let first ← statement
    let others ← many (nextStatement? statement)
    return first :: others

/-- Statements between their opening and closing words. -/
def compoundOf (statement : Parse Statement) : Parse (List Statement) := do
  let _ ← expect (.keyword .begin_)
  let body ← statementList statement
  let _ ← expect (.keyword .end_)
  return body

def branchOf (statement : Parse Statement) : Parse Statement := do
  let _ ← expect (.keyword .if_)
  let test ← expression
  let _ ← expect (.keyword .then_)
  let yes ← statement
  let _ ← expect (.keyword .else_)
  let no ← statement
  return .branch test yes no

def loopOf (statement : Parse Statement) : Parse Statement := do
  let _ ← expect (.keyword .while_)
  let test ← expression
  let _ ← expect (.keyword .do_)
  let body ← statement
  return .loop test body

def readStatement : Parse Statement := do
  let _ ← expect (.keyword .read)
  let _ ← expect (.punct .lparen)
  let place ← target (← expect .identifier)
  let _ ← expect (.punct .rparen)
  return .read place

def writeStatement : Parse Statement := do
  let _ ← expect (.keyword .write)
  return .write (← group expression)

/-- A statement, over the statements nested in it. -/
def statementOf (inner : Parse Statement) : Parse Statement := do
  match (← current).kind with
  | .identifier => callOrAssign
  | .keyword .begin_ => return .compound (← compoundOf inner)
  | .keyword .if_ => branchOf inner
  | .keyword .while_ => loopOf inner
  | .keyword .read => readStatement
  | .keyword .write => writeStatement
  | _ => unexpected .statement

def statement : Parse Statement := nest statementOf

def compound : Parse (List Statement) := compoundOf statement

end PascalMips.Parse
