import PascalMips.Asm.Register
import PascalMips.Operator
import PascalMips.Single.Basic

/-!
# Instructions

The assembly instructions of generated code, some of them shorthands that an assembler expands, and
their text.
-/

namespace PascalMips

/-- A place in the code or the data. -/
inductive Label where
  /-- The start of the program. -/
  | main
  /-- A variable or a subprogram, by its text. -/
  | named (text : String)
  /-- The second branch of a choice. -/
  | otherwise (number : Nat)
  /-- The end of a choice. -/
  | endIf (number : Nat)
  /-- The test of a loop. -/
  | loop (number : Nat)
  /-- The end of a loop. -/
  | endLoop (number : Nat)
deriving DecidableEq

namespace Label

/-- The label of a global variable. -/
def ofVariable (name : String) : Label := named ("_" ++ name)

/-- The label of a subprogram, from the names of the subprograms around it and its own. -/
def ofRoutine (path : List String) : Label := named ("_" ++ "_".intercalate path)

def text : Label → String
  | main => "main"
  | named text => text
  | otherwise number => s!"else{number}"
  | endIf number => s!"endIf{number}"
  | loop number => s!"while{number}"
  | endLoop number => s!"endWhile{number}"

end Label

/-- A word in memory: a labelled one, or one at an offset from a register. -/
inductive Address where
  | label (label : Label)
  | offset (offset : Int) (base : Reg)
deriving DecidableEq

namespace Address

def text : Address → String
  | label l => l.text
  | offset n base => s!"{n}({base.text})"

end Address

/-- Operations on two general registers with the result in a third. -/
inductive AluOp where
  | add | sub | and | or
deriving DecidableEq

def AluOp.text : AluOp → String
  | add => "add"
  | sub => "sub"
  | and => "and"
  | or => "or"

/-- Operations on two singles. -/
inductive FloatOp where
  | add | sub | mul | div
deriving DecidableEq

def FloatOp.text : FloatOp → String
  | add => "add.s"
  | sub => "sub.s"
  | mul => "mul.s"
  | div => "div.s"

/-- Comparisons of singles, which set the condition flag. -/
inductive FloatTest where
  | eq | lt | le
deriving DecidableEq

def FloatTest.text : FloatTest → String
  | eq => "c.eq.s"
  | lt => "c.lt.s"
  | le => "c.le.s"

/-- The two letters that name a comparison of integers. -/
def Relation.suffix : Relation → String
  | eq => "eq"
  | ne => "ne"
  | lt => "lt"
  | le => "le"
  | gt => "gt"
  | ge => "ge"

/-- An instruction. -/
inductive Instr where
  /-- Load an integer. -/
  | li (rd : Reg) (value : Int)
  /-- Load the bits of a single. -/
  | liBits (rd : Reg) (value : Single)
  /-- Load an address. -/
  | la (rd : Reg) (label : Label)
  /-- Load a word. -/
  | lw (rd : Reg) (address : Address)
  /-- Store a word. -/
  | sw (rs : Reg) (address : Address)
  /-- Copy a register. -/
  | move (rd rs : Reg)
  /-- Compute with two registers. -/
  | alu (op : AluOp) (rd rs rt : Reg)
  /-- Add a constant. -/
  | addi (rd rs : Reg) (value : Int)
  /-- Shift left. -/
  | sll (rd rs : Reg) (amount : Nat)
  /-- Multiply into the pair `hi`, `lo`. -/
  | mult (rs rt : Reg)
  /-- Divide: the quotient into `lo`, the remainder into `hi`. -/
  | div (rs rt : Reg)
  /-- Copy `lo`. -/
  | mflo (rd : Reg)
  /-- Copy `hi`. -/
  | mfhi (rd : Reg)
  /-- Set to one if a comparison holds and to zero if not. -/
  | set (relation : Relation) (rd rs rt : Reg)
  /-- Jump if a comparison holds. -/
  | branch (relation : Relation) (rs rt : Reg) (label : Label)
  /-- Move bits to a floating point register. -/
  | mtc1 (rs : Reg) (fd : FReg)
  /-- Move bits from a floating point register. -/
  | mfc1 (rd : Reg) (fs : FReg)
  /-- Convert an integer to a single. -/
  | cvtSingle (fd fs : FReg)
  /-- Convert a single to an integer. -/
  | cvtWord (fd fs : FReg)
  /-- Compute with two singles. -/
  | float (op : FloatOp) (fd fs ft : FReg)
  /-- Negate a single. -/
  | negSingle (fd fs : FReg)
  /-- Compare two singles. -/
  | compare (test : FloatTest) (fs ft : FReg)
  /-- Copy a register if the condition flag is as given. -/
  | moveIf (flag : Bool) (rd rs : Reg)
  /-- Jump if the condition flag is as given. -/
  | branchIf (flag : Bool) (label : Label)
  /-- Jump. -/
  | j (label : Label)
  /-- Jump and keep the return address. -/
  | jal (label : Label)
  /-- Jump to the address in a register. -/
  | jr (rs : Reg)
  /-- Call the operating system. -/
  | syscall
deriving DecidableEq

/-- The digits of a word in base sixteen, eight of them. -/
def hexWord (x : Single) : String :=
  let digits := Nat.toDigits 16 x.bits.toNat
  String.ofList (List.replicate (8 - digits.length) '0' ++ digits)

namespace Instr

def text : Instr → String
  | li rd value => s!"li {rd.text}, {value}"
  | liBits rd value => s!"li {rd.text}, 0x{hexWord value}"
  | la rd label => s!"la {rd.text}, {label.text}"
  | lw rd address => s!"lw {rd.text}, {address.text}"
  | sw rs address => s!"sw {rs.text}, {address.text}"
  | move rd rs => s!"move {rd.text}, {rs.text}"
  | alu op rd rs rt => s!"{op.text} {rd.text}, {rs.text}, {rt.text}"
  | addi rd rs value => s!"addi {rd.text}, {rs.text}, {value}"
  | sll rd rs amount => s!"sll {rd.text}, {rs.text}, {amount}"
  | mult rs rt => s!"mult {rs.text}, {rt.text}"
  | div rs rt => s!"div {rs.text}, {rt.text}"
  | mflo rd => s!"mflo {rd.text}"
  | mfhi rd => s!"mfhi {rd.text}"
  | set relation rd rs rt => s!"s{relation.suffix} {rd.text}, {rs.text}, {rt.text}"
  | branch relation rs rt label => s!"b{relation.suffix} {rs.text}, {rt.text}, {label.text}"
  | mtc1 rs fd => s!"mtc1 {rs.text}, {fd.text}"
  | mfc1 rd fs => s!"mfc1 {rd.text}, {fs.text}"
  | cvtSingle fd fs => s!"cvt.s.w {fd.text}, {fs.text}"
  | cvtWord fd fs => s!"cvt.w.s {fd.text}, {fs.text}"
  | float op fd fs ft => s!"{op.text} {fd.text}, {fs.text}, {ft.text}"
  | negSingle fd fs => s!"neg.s {fd.text}, {fs.text}"
  | compare test fs ft => s!"{test.text} {fs.text}, {ft.text}"
  | moveIf true rd rs => s!"movt {rd.text}, {rs.text}"
  | moveIf false rd rs => s!"movf {rd.text}, {rs.text}"
  | branchIf true label => s!"bc1t {label.text}"
  | branchIf false label => s!"bc1f {label.text}"
  | j label => s!"j {label.text}"
  | jal label => s!"jal {label.text}"
  | jr rs => s!"jr {rs.text}"
  | syscall => "syscall"

end Instr

end PascalMips
