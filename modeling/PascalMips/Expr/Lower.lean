import PascalMips.Expr.Basic
import PascalMips.Literal
import PascalMips.Lower.Basic

/-!
# Lowering expressions

With the cursor at `c`, the value of an expression goes to register `c` of the pool; the operands of
an operation are evaluated at `c + 1` and `c + 2`, arguments of a call from `c + 1` on, and an index
at `c + 1`. Reals are kept in general registers as their bits and moved to the floating point unit
to compute.
-/

namespace PascalMips.Lower

/-! ## Values -/

def literal (text : String) (type : ValueType) : Lower Unit := do
  let destination ← register (← cursor)
  match type with
  | .integer =>
    match Literal.integer? text with
    | some value => emit (.li destination value)
    | none => diagnose (.notInteger text)
  | .real =>
    match Literal.real? text with
    | some value => emit (.liBits destination value)
    | none => diagnose (.notReal text)

def variableValue (name : String) : Lower Unit := do
  let destination ← register (← cursor)
  match ← locate name with
  | some (storage, _) => emit (.lw destination storage.address)
  | none => pure ()

/-! ## Array elements -/

/-- The offset of an element, in elements, into the address register: the index less the lower
bound. The least bound has no negation and is subtracted. -/
def elementOffset (index : Reg) (lo : Int) : Lower Unit :=
  if lo = 0 then emit (.move .t9 index)
  else if Literal.InRange (-lo) then emit (.addi .t9 index (-lo))
  else do
    emit (.li .t9 lo)
    emit (.alu .sub .t9 index .t9)

/-- Adds the place of an array to the address register. -/
def addPlace : Storage → Lower Unit
  | .global label => do
    emit (.la .t8 label)
    emit (.alu .add .t9 .t9 .t8)
  | .stack offset => do
    emit (.alu .add .t9 .t9 .sp)
    if offset = 0 then pure () else emit (.addi .t9 .t9 offset)

/-- Leaves the address of an element in the address register, and tells whether that was possible.
The register under the cursor is left alone. -/
def elementAddress (name : String) (indexType : ValueType) (index : Lower Unit) : Lower Bool := do
  take 1
  index
  let reg ← register (← cursor)
  release 1
  convert reg indexType .integer
  match ← locate name with
  | none => return false
  | some (storage, bounds?) =>
    elementOffset reg ((bounds?.map Bounds.lo).getD 0)
    emit (.sll .t9 .t9 2)
    addPlace storage
    return true

def elementValue (name : String) (indexType : ValueType) (index : Lower Unit) : Lower Unit := do
  let destination ← register (← cursor)
  if ← elementAddress name indexType index then emit (.lw destination (.offset 0 .t9)) else pure ()

/-! ## Operations -/

/-- Evaluates two operands above the cursor. -/
def operands (left right : Lower Unit) : Lower Unit := do
  take 1
  left
  take 1
  right
  release 2

/-- A comparison, as the integer 0 or 1. -/
def compare (relation : Relation) (destination a b : Reg) (aType bType : ValueType) : Lower Unit :=
  match aType.widen bType with
  | .integer => emit (.set relation destination a b)
  | .real => do
    floatOperands a aType b bType
    let (test, flag) := floatTest relation
    emit (.compare test .f0 .f1)
    emit (.li destination 1)
    emit (.moveIf (!flag) destination .zero)

/-- A sum, difference, product or quotient of the given type. -/
def arithmetic (integer : Lower Unit) (float : FloatOp) (type : ValueType) (destination a b : Reg)
    (aType bType : ValueType) : Lower Unit :=
  match type with
  | .integer => integer
  | .real => do
    floatOperands a aType b bType
    emit (.float float .f0 .f0 .f1)
    emit (.mfc1 destination .f0)

def integerOperands (a : Reg) (aType : ValueType) (b : Reg) (bType : ValueType) : Lower Unit := do
  convert a aType .integer
  convert b bType .integer

/-- An operation on the values in two registers. -/
def apply (op : BinaryOp) (type : ValueType) (destination a b : Reg) (aType bType : ValueType) :
    Lower Unit :=
  match op with
  | .rel relation => compare relation destination a b aType bType
  | .and => do
    integerOperands a aType b bType
    emit (.alu .and destination a b)
  | .or => do
    integerOperands a aType b bType
    emit (.alu .or destination a b)
  | .div => do
    integerOperands a aType b bType
    emit (.div a b)
    emit (.mflo destination)
  | .mod => do
    integerOperands a aType b bType
    emit (.div a b)
    emit (.mfhi destination)
  | .add => arithmetic (emit (.alu .add destination a b)) .add type destination a b aType bType
  | .sub => arithmetic (emit (.alu .sub destination a b)) .sub type destination a b aType bType
  | .mul =>
    arithmetic (do emit (.mult a b); emit (.mflo destination)) .mul type destination a b aType bType
  | .divide =>
    arithmetic (do emit (.div a b); emit (.mflo destination)) .div type destination a b aType bType

def binary (op : BinaryOp) (type leftType rightType : ValueType) (left right : Lower Unit) :
    Lower Unit := do
  let base ← cursor
  operands left right
  let destination ← register base
  let a ← register (base + 1)
  let b ← register (base + 2)
  apply op type destination a b leftType rightType

def unary (op : UnaryOp) (type operandType : ValueType) (operand : Lower Unit) : Lower Unit := do
  let base ← cursor
  take 1
  operand
  release 1
  let destination ← register base
  let value ← register (base + 1)
  match op, type with
  | .neg, .integer => emit (.alu .sub destination .zero value)
  | .neg, .real =>
    emit (.mtc1 value .f0)
    emit (.negSingle .f0 .f0)
    emit (.mfc1 destination .f0)
  | .not, _ =>
    convert value operandType .integer
    emit (.set .eq destination value .zero)

/-! ## Calls -/

/-- Moves arguments from the pool, from `index` on, to the argument registers. -/
def passArguments (index : Nat) : List Reg → Lower Unit
  | [] => pure ()
  | target :: targets => do
    let reg ← register index
    emit (.move target reg)
    passArguments (index + 1) targets

/-- Calls the subprogram `name` with `count` arguments, which `arguments` evaluates for the
parameters it is given, and tells whether that was possible. -/
def call (name : String) (count : Nat) (arguments : List ValueType → Lower Unit) : Lower Bool := do
  match ← routine? name with
  | none =>
    diagnose (.undeclared name)
    return false
  | some (label, params) =>
    if Reg.arguments.length < count then
      diagnose (.tooManyArguments name count)
      return false
    else
      let base ← cursor
      arguments params
      passArguments (base + 1) (Reg.arguments.take count)
      release count
      emit (.jal label)
      return true

def callValue (name : String) (count : Nat) (arguments : List ValueType → Lower Unit) :
    Lower Unit := do
  if ← call name count arguments then
    let destination ← register (← cursor)
    emit (.move destination .v0)
  else pure ()

end PascalMips.Lower

namespace PascalMips.Expr

mutual

/-- Evaluates an expression into the register under the cursor. -/
def lower : Expr → Lower Unit
  | literal text type => Lower.literal text type
  | var name _ => Lower.variableValue name
  | element name _ index => Lower.elementValue name index.type index.lower
  | call name _ args => Lower.callValue name args.length (lowerArgs args)
  | binary op left right type => Lower.binary op type left.type right.type left.lower right.lower
  | unary op operand type => Lower.unary op type operand.type operand.lower

/-- Evaluates arguments into the registers above the cursor, converted to the types of the
parameters. -/
def lowerArgs : List Expr → List ValueType → Lower Unit
  | [], _ => pure ()
  | _ :: _, [] => pure ()
  | arg :: args, param :: params => do
    Lower.take 1
    arg.lower
    Lower.convert (← Lower.register (← Lower.cursor)) arg.type param
    lowerArgs args params

end

end PascalMips.Expr
