import PascalMips.Asm.Instr

/-!
# Assembly text

Lines of generated assembly: instructions, labels, data, directives, and marks where something could
not be compiled.
-/

namespace PascalMips

/-- The reasons why a part of a program cannot be compiled. -/
inductive Diagnostic where
  /-- A variable of the program is not in the global scope. -/
  | missingGlobal (name : String)
  /-- A subprogram is not visible. -/
  | missingRoutine (name : String)
  /-- A subprogram has no scope of its own names. -/
  | noLocalScope (name : String)
  /-- The variables of a subprogram do not fit into offsets of 32 bits. -/
  | frameTooLarge (name : String)
  /-- A parameter beyond the argument registers. -/
  | tooManyParameters (name : String)
  /-- A name is not visible. -/
  | undeclared (name : String)
  /-- The result of a function, outside its body. -/
  | resultUnreachable (name : String)
  /-- A variable of a subprogram around the current one. -/
  | frameUnreachable (name : String)
  /-- An operand beyond the registers for values. -/
  | outOfRegisters
  /-- A text that is not an integer. -/
  | notInteger (text : String)
  /-- A text that is not a real. -/
  | notReal (text : String)
  /-- A call with more arguments than argument registers. -/
  | tooManyArguments (name : String) (count : Nat)
deriving DecidableEq

namespace Diagnostic

def message : Diagnostic → String
  | missingGlobal name => s!"global '{name}' is missing from the symbol table"
  | missingRoutine name => s!"subprogram '{name}' is missing from the symbol table"
  | noLocalScope name => s!"subprogram '{name}' has no local scope"
  | frameTooLarge name => s!"frame of '{name}' exceeds the 32-bit stack offset range"
  | tooManyParameters name => s!"'{name}' takes more than {Reg.arguments.length} arguments"
  | undeclared name => s!"'{name}' is not declared"
  | resultUnreachable name => s!"result of '{name}' is not addressable here"
  | frameUnreachable name =>
    s!"'{name}' lives in an enclosing subprogram's frame and cannot be reached"
  | outOfRegisters => s!"expression needs more than {Reg.pool.length} registers"
  | notInteger text => s!"'{text}' is not an integer"
  | notReal text => s!"'{text}' is not a real"
  | tooManyArguments name count =>
    s!"call to '{name}' passes {count} arguments, at most {Reg.arguments.length} are supported"

end Diagnostic

/-- The assembler directives in use. -/
inductive Directive where
  | data
  | text
  | globalMain
deriving DecidableEq

def Directive.render : Directive → String
  | data => ".data"
  | text => ".text"
  | globalMain => ".globl main"

/-- A line of assembly. -/
inductive Line where
  | instr (instr : Instr)
  | label (label : Label)
  /-- A labelled word of data, zero at the start. -/
  | word (label : Label)
  /-- Labelled words of data, zero at the start. -/
  | words (label : Label) (count : Nat)
  | directive (directive : Directive)
  | mark (diagnostic : Diagnostic)
deriving DecidableEq

namespace Line

def render : Line → String
  | instr i => "    " ++ i.text
  | label l => s!"{l.text}:"
  | word l => s!"{l.text}: .word 0"
  | words l count => s!"{l.text}: .word 0:{count}"
  | directive d => d.render
  | mark d => "# ERROR: " ++ d.message

/-- The diagnostic that a line marks. -/
def diagnostic? : Line → Option Diagnostic
  | mark d => some d
  | _ => none

end Line

/-- Lines as one text, each but the last followed by a line feed, and a line feed at the end. -/
def assemble (lines : List Line) : String := "\n".intercalate (lines.map Line.render) ++ "\n"

/-- The diagnostics that lines mark, in their order. -/
def diagnosticsOf (lines : List Line) : List Diagnostic := lines.filterMap Line.diagnostic?

end PascalMips
