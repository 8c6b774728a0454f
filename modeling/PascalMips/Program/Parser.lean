import PascalMips.Program.Basic
import PascalMips.Statement.Parser

/-!
# Parsing programs

```text
program     ::= "program" name ";" sections subprograms compound "." end-of-input
sections    ::= { "var" group { group } }
group       ::= name { "," name } ":" type ";"
type        ::= standard | "array" "[" bound ":" bound "]" "of" standard
bound       ::= [ "-" ] number
standard    ::= "integer" | "real"
subprograms ::= { subprogram ";" }
subprogram  ::= "function" name parameters ":" standard ";" block
              | "procedure" name parameters ";" block
block       ::= sections subprograms compound
parameters  ::= [ "(" names ":" standard { ";" names ":" standard } ")" ]
```

A subprogram is declared before its block is read, so it can call itself. Its parameters and the
names of its block have a scope of their own, which is attached to its symbol when the block is
finished.
-/

namespace PascalMips.Parse

/-! ## Variables -/

/-- Names with commas between them. -/
def names : Parse (List Token) := sepBy (.punct .comma) (expect .identifier)

/-- The type of a single value. -/
def standardType : Parse ValueType := do
  if ← accept (.keyword .integer) then return .integer
  else if ← accept (.keyword .real) then return .real
  else unexpected .standardType

/-- A bound of an array, a 32-bit integer. -/
def bound : Parse Int := do
  let negative ← accept (.punct .minus)
  let number ← expect .number
  let text := if negative then "-" ++ number.lexeme else number.lexeme
  match Literal.integer? text with
  | some i => return i
  | none => fail (.malformedNumber text) number.location

/-- The type that variables are declared with: that of their values and, for arrays, the index
range. -/
structure DeclaredType where
  type : ValueType
  bounds? : Option Bounds

/-- What a name declared with this type stands for. -/
def DeclaredType.binding (d : DeclaredType) : Binding :=
  match d.bounds? with
  | none => .scalar d.type
  | some bounds => .array d.type bounds

/-- The type of variables. -/
def declaredType : Parse DeclaredType := do
  if ← accept (.keyword .array) then
    let opening ← expect (.punct .lbracket)
    let lo ← bound
    let _ ← expect (.punct .colon)
    let hi ← bound
    let _ ← expect (.punct .rbracket)
    let _ ← expect (.keyword .of)
    let type ← standardType
    if lo ≤ hi then return ⟨type, some ⟨lo, hi⟩⟩ else fail (.emptyBounds ⟨lo, hi⟩) opening.location
  else return ⟨← standardType, none⟩

def declareAll (binding : Binding) : List Token → Parse Unit
  | [] => pure ()
  | name :: rest => do
    declare name binding
    declareAll binding rest

/-- Names and their type. -/
def variableGroup : Parse (List Variable) := do
  let names ← names
  let _ ← expect (.punct .colon)
  let declared ← declaredType
  let _ ← expect (.punct .semicolon)
  declareAll declared.binding names
  return names.map fun name => ⟨name.lexeme, declared.type⟩

/-- One more group of a section: it starts with a name. -/
def nextGroup? : Parse (Option (List Variable)) := do
  if ← check .identifier then return some (← variableGroup) else return none

/-- A section of variables: one group or more. -/
def variableSection? : Parse (Option (List Variable)) := do
  if ← accept (.keyword .var) then
    let first ← variableGroup
    let others ← many nextGroup?
    return some (first ++ others.flatten)
  else return none

def varSections : Parse (List Variable) := return (← many variableSection?).flatten

/-! ## Subprograms -/

/-- Names of parameters and their type. -/
def parameterGroup : Parse (List (Token × ValueType)) := do
  let names ← names
  let _ ← expect (.punct .colon)
  let type ← standardType
  return names.map fun name => (name, type)

/-- Parameters in parentheses, or none. -/
def parameters : Parse (List (Token × ValueType)) := do
  if ← accept (.punct .lparen) then
    let groups ← sepBy (.punct .semicolon) parameterGroup
    let _ ← expect (.punct .rparen)
    return groups.flatten
  else return []

def declareParameters : List (Token × ValueType) → Parse Unit
  | [] => pure ()
  | (name, type) :: rest => do
    declare name (.scalar type)
    declareParameters rest

/-- The word that tells the kind of a subprogram. -/
def routineKind : Parse RoutineKind := do
  if ← accept (.keyword .function) then return .function
  else
    let _ ← expect (.keyword .procedure)
    return .procedure

/-- The type of the result of a function, and its declaration in the scope around it. -/
def declareRoutine (kind : RoutineKind) (name : Token) (params : List ValueType) :
    Parse (Option ValueType) := do
  match kind with
  | .function =>
    let _ ← expect (.punct .colon)
    let returns ← standardType
    declare name (.function returns params)
    return some returns
  | .procedure =>
    declare name (.procedure params)
    return none

/-- Opens the scope of a subprogram. -/
def openScope (name : String) : Parse Unit := fun p =>
  .ok () { p with symbols := p.symbols.enter, enclosing := name :: p.enclosing }

/-- Closes the scope of a subprogram and attaches it to its symbol. -/
def closeScope (name : String) : Parse Unit := fun p =>
  let symbols :=
    match p.symbols.exit? with
    | some (scope, symbols) => (symbols.attach? name scope).getD symbols
    | none => p.symbols
  .ok () { p with symbols := symbols, enclosing := p.enclosing.tail }

/-- One more subprogram of a list, if one follows. -/
def nextSubprogram? (subprogram : Parse Subprogram) : Parse (Option Subprogram) := do
  let kind := (← current).kind
  if kind = .keyword .function ∨ kind = .keyword .procedure then
    let s ← subprogram
    let _ ← expect (.punct .semicolon)
    return some s
  else return none

/-- A subprogram, over the subprograms nested in it. -/
def subprogramOf (inner : Parse Subprogram) : Parse Subprogram := do
  let kind ← routineKind
  let name ← expect .identifier
  let params ← parameters
  let returns ← declareRoutine kind name (params.map Prod.snd)
  let _ ← expect (.punct .semicolon)
  openScope name.lexeme
  declareParameters params
  let vars ← varSections
  let subs ← many (nextSubprogram? inner)
  let body ← compound
  closeScope name.lexeme
  return {
    kind := kind
    name := name.lexeme
    returns := returns
    args := params.map fun (param, type) => ⟨param.lexeme, type⟩
    vars := vars
    subprograms := subs
    body := body
    location := name.location }

def subprogram : Parse Subprogram := nest subprogramOf

/-- Subprograms, each closed by a semicolon. -/
def subprograms : Parse (List Subprogram) := many (nextSubprogram? subprogram)

/-! ## Programs -/

def program : Parse Program := do
  let _ ← expect (.keyword .program)
  let name ← expect .identifier
  let _ ← expect (.punct .semicolon)
  declare name .program
  let vars ← varSections
  let subs ← subprograms
  let body ← compound
  let _ ← expect (.punct .period)
  let _ ← expect .eof
  return {
    name := name.lexeme
    vars := vars
    subprograms := subs
    body := body
    location := name.location }

end PascalMips.Parse
