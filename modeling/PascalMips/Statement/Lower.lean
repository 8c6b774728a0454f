import PascalMips.Expr.Lower
import PascalMips.Statement.Basic

/-!
# Lowering statements

Choices and loops draw labels from counters of their own:

```text
        branch to elseN unless the test holds      whileN:
        first branch                                       branch to endWhileN unless the test holds
        j endIfN                                           body
elseN:                                                     j whileN
        second branch                              endWhileN:
endIfN:
```

A test that is a comparison branches on its opposite; any other test is evaluated and compared with
one.
-/

namespace PascalMips.Lower

/-- The services of the operating system in use. -/
inductive Service where
  | printInteger
  | printReal
  | readInteger
  | readReal
  | exit
  | printCharacter

def Service.code : Service → Int
  | printInteger => 1
  | printReal => 2
  | readInteger => 5
  | readReal => 6
  | exit => 10
  | printCharacter => 11

def callService (service : Service) : Lower Unit := do
  emit (.li .v0 service.code)
  emit .syscall

/-- The code of the character that ends a line. -/
def lineFeed : Int := 10

/-- Stores the value in a register. -/
def store (target : Target) (source : Reg) : Lower Unit := do
  match target with
  | .var name _ =>
    match ← locate name with
    | some (storage, _) => emit (.sw source storage.address)
    | none => pure ()
  | .element name _ index =>
    if ← elementAddress name index.type index.lower then emit (.sw source (.offset 0 .t9))
    else pure ()

/-- Jumps to `label` unless a comparison holds. -/
def compareUnless (relation : Relation) (left right : Expr) (label : Label) : Lower Unit := do
  let base ← cursor
  operands left.lower right.lower
  let a ← register (base + 1)
  let b ← register (base + 2)
  match left.type.widen right.type with
  | .integer => emit (.branch relation.negate a b label)
  | .real =>
    floatOperands a left.type b right.type
    let (test, flag) := floatTest relation
    emit (.compare test .f0 .f1)
    emit (.branchIf (!flag) label)

/-- Jumps to `label` unless a value is one. -/
def valueUnless (test : Expr) (label : Label) : Lower Unit := do
  test.lower
  let value ← register (← cursor)
  convert value test.type .integer
  emit (.li .t8 1)
  emit (.branch .ne value .t8 label)

/-- Jumps to `label` unless a test holds. -/
def branchUnless (test : Expr) (label : Label) : Lower Unit :=
  match test with
  | .binary (.rel relation) left right _ => compareUnless relation left right label
  | test => valueUnless test label

def assign (target : Target) (value : Expr) : Lower Unit := do
  value.lower
  let source ← register (← cursor)
  convert source value.type target.type
  store target source

def read (target : Target) : Lower Unit := do
  let destination ← register (← cursor)
  match target.type with
  | .integer =>
    callService .readInteger
    emit (.move destination .v0)
    store target destination
  | .real =>
    callService .readReal
    emit (.mfc1 destination .f0)
    store target destination

/-- The call that prints the value in a register. -/
def printValue (value : Reg) : ValueType → Lower Unit
  | .integer => do
    emit (.move .a0 value)
    callService .printInteger
  | .real => do
    emit (.mtc1 value .f12)
    callService .printReal

/-- Output, with the end of the line. -/
def write (value : Expr) : Lower Unit := do
  value.lower
  let reg ← register (← cursor)
  printValue reg value.type
  emit (.li .a0 lineFeed)
  callService .printCharacter

def branch (test : Expr) (yes no : Lower Unit) : Lower Unit := do
  let number ← nextIf
  branchUnless test (.otherwise number)
  yes
  emit (.j (.endIf number))
  label (.otherwise number)
  no
  label (.endIf number)

def loop (test : Expr) (body : Lower Unit) : Lower Unit := do
  let number ← nextLoop
  label (.loop number)
  branchUnless test (.endLoop number)
  body
  emit (.j (.loop number))
  label (.endLoop number)

def callProcedure (name : String) (args : List Expr) : Lower Unit := do
  let _ ← call name args.length (Expr.lowerArgs args)

end PascalMips.Lower

namespace PascalMips.Statement

mutual

def lower : Statement → Lower Unit
  | assign target value => Lower.assign target value
  | compound body => lowerAll body
  | branch test yes no => Lower.branch test yes.lower no.lower
  | loop test body => Lower.loop test body.lower
  | call name args => Lower.callProcedure name args
  | read target => Lower.read target
  | write value => Lower.write value

def lowerAll : List Statement → Lower Unit
  | [] => pure ()
  | s :: ss => do
    s.lower
    lowerAll ss

end

end PascalMips.Statement
