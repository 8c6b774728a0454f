import PascalMips.Asm.Line
import PascalMips.Lower.Storage
import PascalMips.Symbol.Table

/-!
# Lowering

Code for a statement is generated against a fixed context: the names, their places, and the
subprograms around it. It draws numbers for labels and registers from counters, and gives lines.

Values live in a pool of registers. An expression lowered with the cursor at `c` leaves its value in
register `c` of the pool and may use the registers above: it takes them and gives them back. A call
that passes more arguments than its subprogram has parameters gives back more registers than it took.
Where the cursor would go below the first register in this way, generation fails: the counters are
overdrawn from there on, and nothing that is written with them counts (`Generator.result`).
-/

namespace PascalMips

/-- What code is generated against. The path names the subprograms around it, the outermost
first. -/
structure Context where
  symbols : SymbolTable
  storage : StorageMap
  path : List String

/-- The register for the next value, the numbers of the next choice and the next loop, and whether
more registers were given back than had been taken. -/
structure Counters where
  cursor : Nat
  ifs : Nat
  loops : Nat
  overdrawn : Bool
deriving DecidableEq

namespace Counters

/-- The counters of a generator that has written nothing. -/
def start : Counters := ⟨0, 0, 0, false⟩

/-- The counters after `count` registers are taken. -/
def take (c : Counters) (count : Nat) : Counters := { c with cursor := c.cursor + count }

/-- The counters after `count` registers are given back. Counters that are overdrawn stay so. -/
def release (c : Counters) (count : Nat) : Counters :=
  { c with
    cursor := c.cursor - count
    overdrawn := c.overdrawn || decide (c.cursor < count) }

end Counters

/-- A value, the counters after it, and the lines it took. -/
structure Lowered (α : Type) where
  value : α
  counters : Counters
  lines : List Line

/-- A piece of code with a value for the generator itself. -/
def Lower (α : Type) : Type := Context → Counters → Lowered α

namespace Lower

variable {α β : Type}

instance : Monad Lower where
  pure a := fun _ c => ⟨a, c, []⟩
  bind x f := fun ctx c =>
    let first := x ctx c
    let second := f first.value ctx first.counters
    ⟨second.value, second.counters, first.lines ++ second.lines⟩

theorem pure_apply (a : α) (ctx : Context) (c : Counters) :
    (pure a : Lower α) ctx c = ⟨a, c, []⟩ := rfl

theorem bind_apply (x : Lower α) (f : α → Lower β) (ctx : Context) (c : Counters) :
    (x >>= f) ctx c =
      ⟨(f (x ctx c).value ctx (x ctx c).counters).value,
        (f (x ctx c).value ctx (x ctx c).counters).counters,
        (x ctx c).lines ++ (f (x ctx c).value ctx (x ctx c).counters).lines⟩ := rfl

/-! ## Lines -/

def line (l : Line) : Lower Unit := fun _ c => ⟨(), c, [l]⟩

def emit (i : Instr) : Lower Unit := line (.instr i)

def label (l : Label) : Lower Unit := line (.label l)

/-- A mark that something cannot be compiled. -/
def diagnose (d : Diagnostic) : Lower Unit := line (.mark d)

/-! ## Counters -/

def cursor : Lower Nat := fun _ c => ⟨c.cursor, c, []⟩

/-- Takes the next `count` registers. -/
def take (count : Nat) : Lower Unit := fun _ c => ⟨(), c.take count, []⟩

/-- Gives back the last `count` registers. -/
def release (count : Nat) : Lower Unit := fun _ c => ⟨(), c.release count, []⟩

/-- Draws the number of a choice. -/
def nextIf : Lower Nat := fun _ c => ⟨c.ifs, { c with ifs := c.ifs + 1 }, []⟩

/-- Draws the number of a loop. -/
def nextLoop : Lower Nat := fun _ c => ⟨c.loops, { c with loops := c.loops + 1 }, []⟩

/-- The register of the pool at `index`. Beyond the pool the last one is taken and the code marked
as wrong. -/
def register (index : Nat) : Lower Reg :=
  match Reg.pool[index]? with
  | some reg => pure reg
  | none => do
    diagnose .outOfRegisters
    return .s7

/-! ## Names -/

/-- The visible symbol of a name and its place, if it has one. -/
def find? (name : String) : Lower (Option (Symbol × Option Storage)) := fun ctx c =>
  ⟨(ctx.symbols.lookup? name).map fun symbol => (symbol, ctx.storage.get? symbol.id), c, []⟩

/-- Why a visible symbol without a place cannot be reached. -/
def unreachable (symbol : Symbol) : Diagnostic :=
  if symbol.binding.role = .function then .resultUnreachable symbol.name
  else .frameUnreachable symbol.name

/-- The place of the variable, array or function result of a name, and the index range of an
array. -/
def locate (name : String) : Lower (Option (Storage × Option Bounds)) := do
  match ← find? name with
  | none =>
    diagnose (.undeclared name)
    return none
  | some (symbol, none) =>
    diagnose (unreachable symbol)
    return none
  | some (symbol, some storage) => return some (storage, symbol.binding.bounds?)

/-- The label of a subprogram declared at the given depth. -/
def routineLabel (path : List String) (depth : Nat) (name : String) : Label :=
  Label.ofRoutine (path.take (depth - 1) ++ [name])

/-- The label and the types of the parameters of a subprogram. -/
def routine? (name : String) : Lower (Option (Label × List ValueType)) := fun ctx c =>
  let found := (ctx.symbols.lookupWithDepth? name).map fun (depth, symbol) =>
    (routineLabel ctx.path depth name, symbol.binding.params?.getD [])
  ⟨found, c, []⟩

/-! ## Conversions -/

/-- Converts the value in a register between the types, in place. -/
def convert (reg : Reg) : ValueType → ValueType → Lower Unit
  | .integer, .real => do
    emit (.mtc1 reg .f0)
    emit (.cvtSingle .f0 .f0)
    emit (.mfc1 reg .f0)
  | .real, .integer => do
    emit (.mtc1 reg .f0)
    emit (.cvtWord .f0 .f0)
    emit (.mfc1 reg .f0)
  | .integer, .integer => pure ()
  | .real, .real => pure ()

/-- Moves the value in a register to a floating point register, as a real. -/
def floatOperand (reg : Reg) (type : ValueType) (f : FReg) : Lower Unit := do
  emit (.mtc1 reg f)
  match type with
  | .integer => emit (.cvtSingle f f)
  | .real => pure ()

/-- Moves two operands to floating point registers, as reals. -/
def floatOperands (a : Reg) (aType : ValueType) (b : Reg) (bType : ValueType) : Lower Unit := do
  floatOperand a aType .f0
  floatOperand b bType .f1

/-- The test for a comparison of reals, and the state of the flag for which the comparison holds.
There is none for `<>`, `>` and `>=`, which hold where their opposites do not. -/
def floatTest : Relation → FloatTest × Bool
  | .eq => (.eq, true)
  | .ne => (.eq, false)
  | .lt => (.lt, true)
  | .le => (.le, true)
  | .gt => (.le, false)
  | .ge => (.lt, false)

end Lower

end PascalMips
