import Mathlib.Logic.Function.Basic
import Mathlib.Logic.Relation
import PascalMips.Asm.Line
import PascalMips.Constant

/-!
# The target machine

A MIPS32 processor in user mode, at the level of assembly lines: the general and floating point
registers that generated code names, the pair `hi`/`lo`, the condition flag, a memory of words and
the console of a SPIM simulator. `Instr.exec` is one instruction, shorthands of the assembler
included, and `Image.step` one line of a loaded program.

A step that has no result stops the machine: arithmetic overflow of `add`, `addi` and `sub`, a
quotient that the manual leaves open, an address that is not that of a word in user space, a read
past the end of the input, a jump to a label or an address that is not there, and the exit service.
-/

namespace PascalMips

/-- A machine word. -/
abbrev Word := BitVec 32

/-- What instructions change. Memory is seen through the addresses of words. -/
structure Machine where
  regs : Reg → Word
  hi : Word
  lo : Word
  fregs : FReg → Word
  flag : Bool
  memory : Word → Word
  input : List Word
  output : String

namespace Machine

/-! ## Registers -/

/-- The content of a register; `$zero` holds zero. -/
def read (m : Machine) : Reg → Word
  | .zero => 0
  | r => m.regs r

def write (m : Machine) (r : Reg) (w : Word) : Machine :=
  { m with regs := Function.update m.regs r w }

def writeFloat (m : Machine) (f : FReg) (w : Word) : Machine :=
  { m with fregs := Function.update m.fregs f w }

@[simp] theorem read_zero (m : Machine) : m.read .zero = 0 := rfl

theorem read_write (m : Machine) (r s : Reg) (w : Word) (hs : s ≠ .zero) :
    (m.write r w).read s = if s = r then w else m.read s := by
  cases s <;> first | exact absurd rfl hs | simp [read, write, Function.update_apply]

@[simp] theorem memory_write (m : Machine) (r : Reg) (w : Word) :
    (m.write r w).memory = m.memory := rfl

@[simp] theorem input_write (m : Machine) (r : Reg) (w : Word) :
    (m.write r w).input = m.input := rfl

@[simp] theorem output_write (m : Machine) (r : Reg) (w : Word) :
    (m.write r w).output = m.output := rfl

/-! ## Memory -/

/-- Whether a word can be accessed: its address is a multiple of four below kernel space. -/
def Accessible (a : Word) : Prop := 4 ∣ a.toNat ∧ a.toNat < 2147483648

instance (a : Word) : Decidable (Accessible a) := inferInstanceAs (Decidable (_ ∧ _))

def load (m : Machine) (a : Word) : Option Word :=
  if Accessible a then some (m.memory a) else none

def store (m : Machine) (a w : Word) : Option Machine :=
  if Accessible a then some { m with memory := Function.update m.memory a w } else none

end Machine

/-- A program in memory: its lines, the addresses of its data, the addresses of its lines as `jal`
keeps and `jr` reads them, and what the processor and the simulator decide, the conversion of a
single to an integer and the text of a single. -/
structure Image where
  lines : List Line
  data : Label → Word
  address : Nat → Word
  lineAt? : Word → Option Nat
  toWord : Single → Word
  showReal : Single → String
  lineAt?_address : ∀ n ≤ lines.length, lineAt? (address n) = some n

/-- Where execution goes on. -/
inductive Flow where
  | next
  | label (label : Label)
  | address (address : Word)

/-! ## Operations -/

namespace Word

/-- An integer as a word, if it has 32 bits. -/
def checked (i : Int) : Option Word := if Literal.InRange i then some (BitVec.ofInt 32 i) else none

/-- The word of a truth value. -/
def ofBool (b : Bool) : Word := if b then 1 else 0

end Word

/-- The sum, unless it overflows as signed integers do. -/
def addTrap (a b : Word) : Option Word := if a.saddOverflow b then none else some (a + b)

/-- The difference, unless it overflows as signed integers do. -/
def subTrap (a b : Word) : Option Word := if a.ssubOverflow b then none else some (a - b)

def AluOp.exec : AluOp → Word → Word → Option Word
  | add, a, b => addTrap a b
  | sub, a, b => subTrap a b
  | and, a, b => some (a &&& b)
  | or, a, b => some (a ||| b)

def FloatOp.exec : FloatOp → Single → Single → Single
  | add, a, b => a.add b
  | sub, a, b => a.sub b
  | mul, a, b => a.mul b
  | div, a, b => a.div b

def FloatTest.exec : FloatTest → Single → Single → Bool
  | eq, a, b => a.eq b
  | lt, a, b => a.lt b
  | le, a, b => a.le b

namespace Machine

/-- The word that an operand of a load or a store stands for. -/
def effective (p : Image) (m : Machine) : Address → Word
  | .label l => p.data l
  | .offset n base => m.read base + BitVec.ofInt 32 n

/-- The quotient and the remainder, cut off toward zero. The manual leaves open what becomes of a
division by zero and of the least integer by minus one. -/
def divide (m : Machine) (a b : Word) : Option Machine :=
  if b = 0 ∨ (a = BitVec.intMin 32 ∧ b = -1) then none
  else some { m with lo := a.sdiv b, hi := a.srem b }

/-- The simulator's services, by the code in `$v0`: print an integer or a single, read an integer
or a single, print a character. Exit (10) has no next state. -/
def service (p : Image) (m : Machine) : Option Machine :=
  match (m.read .v0).toNat with
  | 1 => some { m with output := m.output ++ toString (m.read .a0).toInt }
  | 2 => some { m with output := m.output ++ p.showReal ⟨m.fregs .f12⟩ }
  | 5 =>
    match m.input with
    | [] => none
    | w :: rest => some { m.write .v0 w with input := rest }
  | 6 =>
    match m.input with
    | [] => none
    | w :: rest => some { m.writeFloat .f0 w with input := rest }
  | 11 => some { m with output := m.output.push (Char.ofNat ((m.read .a0).toNat % 256)) }
  | _ => none

end Machine

/-! ## Instructions and lines -/

/-- One instruction, on the line `pc`. -/
def Instr.exec (p : Image) (pc : Nat) (m : Machine) : Instr → Option (Flow × Machine)
  | li rd value => some (.next, m.write rd (BitVec.ofInt 32 value))
  | liBits rd value => some (.next, m.write rd value.bits)
  | la rd label => some (.next, m.write rd (p.data label))
  | lw rd address => (m.load (m.effective p address)).map fun w => (.next, m.write rd w)
  | sw rs address => (m.store (m.effective p address) (m.read rs)).map (.next, ·)
  | move rd rs => some (.next, m.write rd (m.read rs))
  | alu op rd rs rt => (op.exec (m.read rs) (m.read rt)).map fun w => (.next, m.write rd w)
  | addi rd rs value =>
    (addTrap (m.read rs) (BitVec.ofInt 32 value)).map fun w => (.next, m.write rd w)
  | sll rd rs amount => some (.next, m.write rd (m.read rs <<< amount))
  | mult rs rt =>
    let product := (m.read rs).signExtend 64 * (m.read rt).signExtend 64
    some (.next, { m with lo := product.setWidth 32, hi := (product >>> 32).setWidth 32 })
  | div rs rt => (m.divide (m.read rs) (m.read rt)).map (.next, ·)
  | mflo rd => some (.next, m.write rd m.lo)
  | mfhi rd => some (.next, m.write rd m.hi)
  | set relation rd rs rt =>
    some (.next, m.write rd (Word.ofBool (relation.holds (m.read rs).toInt (m.read rt).toInt)))
  | branch relation rs rt label =>
    some (if relation.holds (m.read rs).toInt (m.read rt).toInt then .label label else .next, m)
  | mtc1 rs fd => some (.next, m.writeFloat fd (m.read rs))
  | mfc1 rd fs => some (.next, m.write rd (m.fregs fs))
  | cvtSingle fd fs => some (.next, m.writeFloat fd (Single.ofInt (m.fregs fs).toInt).bits)
  | cvtWord fd fs => some (.next, m.writeFloat fd (p.toWord ⟨m.fregs fs⟩))
  | float op fd fs ft =>
    some (.next, m.writeFloat fd (op.exec ⟨m.fregs fs⟩ ⟨m.fregs ft⟩).bits)
  | negSingle fd fs => some (.next, m.writeFloat fd (Single.neg ⟨m.fregs fs⟩).bits)
  | compare test fs ft => some (.next, { m with flag := test.exec ⟨m.fregs fs⟩ ⟨m.fregs ft⟩ })
  | moveIf flag rd rs => some (.next, if m.flag = flag then m.write rd (m.read rs) else m)
  | branchIf flag label => some (if m.flag = flag then .label label else .next, m)
  | j label => some (.label label, m)
  | jal label => some (.label label, m.write .ra (p.address (pc + 1)))
  | jr rs => some (.address (m.read rs), m)
  | syscall => (m.service p).map (.next, ·)

namespace Image

/-- The line that defines a label. -/
def find? (p : Image) (label : Label) : Option Nat := p.lines.findIdx? (· = .label label)

/-- The line that comes after line `pc`. -/
def follow (p : Image) (pc : Nat) : Flow → Option Nat
  | .next => some (pc + 1)
  | .label label => p.find? label
  | .address a => p.lineAt? a

/-- One line of the program. Lines that are no instructions are passed. -/
def step (p : Image) (pc : Nat) (m : Machine) : Option (Nat × Machine) :=
  match p.lines[pc]? with
  | none => none
  | some (.instr i) => do
    let (flow, m) ← i.exec p pc m
    return (← p.follow pc flow, m)
  | some _ => some (pc + 1, m)

/-- The machine goes from one line and state to another, by any number of steps. -/
def Reaches (p : Image) : Nat × Machine → Nat × Machine → Prop :=
  Relation.ReflTransGen fun a b => p.step a.1 a.2 = some b

end Image

end PascalMips
