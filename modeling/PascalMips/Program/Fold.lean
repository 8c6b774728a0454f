import PascalMips.Expr.Fold
import PascalMips.Program.Basic

/-!
# Folding constants in programs

All expressions of a program are folded; its shape and its declarations stay.
-/

namespace PascalMips

def Target.fold : Target → Target
  | var name type => var name type
  | element name type index => element name type index.fold

namespace Statement

mutual

/-- The statement with its expressions folded. -/
def fold : Statement → Statement
  | assign target value => assign target.fold value.fold
  | compound body => compound (foldAll body)
  | branch test yes no => branch test.fold yes.fold no.fold
  | loop test body => loop test.fold body.fold
  | call name args => call name (Expr.foldAll args)
  | read target => read target.fold
  | write value => write value.fold

/-- Statements with their expressions folded. -/
def foldAll : List Statement → List Statement
  | [] => []
  | s :: ss => s.fold :: foldAll ss

end

end Statement

namespace Subprogram

mutual

/-- The subprogram with its expressions folded. -/
def fold : Subprogram → Subprogram
  | ⟨kind, name, returns, args, vars, subprograms, body, location⟩ =>
    ⟨kind, name, returns, args, vars, foldAll subprograms, Statement.foldAll body, location⟩

/-- Subprograms with their expressions folded. -/
def foldAll : List Subprogram → List Subprogram
  | [] => []
  | s :: ss => s.fold :: foldAll ss

end

end Subprogram

def Program.fold (p : Program) : Program :=
  { p with subprograms := Subprogram.foldAll p.subprograms, body := Statement.foldAll p.body }

end PascalMips
