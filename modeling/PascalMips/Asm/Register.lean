/-!
# Registers

The general and floating point registers of the MIPS32 processor that generated code uses.
-/

namespace PascalMips

/-- The general registers in use: eight that hold values of expressions and are saved by
subprograms, four for arguments, one for results, two for addresses, the return address, the stack
pointer and zero. -/
inductive Reg where
  | s (index : Fin 8)
  | a (index : Fin 4)
  | v0
  | t8
  | t9
  | ra
  | sp
  | zero
deriving DecidableEq

namespace Reg

def text : Reg → String
  | s index => s!"$s{index.val}"
  | a index => s!"$a{index.val}"
  | v0 => "$v0"
  | t8 => "$t8"
  | t9 => "$t9"
  | ra => "$ra"
  | sp => "$sp"
  | zero => "$zero"

/-- The registers that hold values of expressions, in the order of their use. -/
def pool : List Reg := [s 0, s 1, s 2, s 3, s 4, s 5, s 6, s 7]

/-- The registers that pass arguments, in their order. -/
def arguments : List Reg := [a 0, a 1, a 2, a 3]

/-- The last register of the pool. -/
abbrev s7 : Reg := s 7

/-- The register of the first argument. -/
abbrev a0 : Reg := a 0

end Reg

/-- The floating point registers in use: two for operands and one to print from. -/
inductive FReg where
  | f0
  | f1
  | f12
deriving DecidableEq

namespace FReg

def text : FReg → String
  | f0 => "$f0"
  | f1 => "$f1"
  | f12 => "$f12"

end FReg

end PascalMips
