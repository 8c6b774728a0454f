import PascalMips.Program.Fold
import PascalMips.Program.Lower
import PascalMips.Program.Source

/-!
# Compilation

From a source text to assembly. A text that is not a program fails, and a program whose generation
does; what cannot be compiled is marked in the assembly.
-/

namespace PascalMips

/-- Why there is no assembly for a source text. -/
inductive CompileError where
  | invalid (cause : ParseError)
  | failed (cause : GenerateError)

/-- The assembly of the program written in `source`, with its constants folded or not. -/
def compile (source : String) (fold : Bool) : Except CompileError String := do
  let (program, symbols) ← (parse source).mapError .invalid
  let program := if fold then program.fold else program
  let (text, _) ← (program.generate symbols).mapError .failed
  return text

end PascalMips
