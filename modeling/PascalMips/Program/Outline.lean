import PascalMips.Outline
import PascalMips.Program.Basic

/-!
# Outlines of programs

The outline of a syntax tree: one line for each node, with its type where it has one. The branches
of a choice and the body of a loop stand beside their test, under headings of their own.
-/

namespace PascalMips

open Outline (node leaf)

/-- The line of a variable. -/
def Variable.outline (v : Variable) : Outline := leaf s!"Name: {v.name} ({v.type.text})"

namespace Expr

mutual

def outline : Expr → Outline
  | literal text type => leaf s!"Value: {text} ({type.text})"
  | var name type => leaf s!"Name: {name} ({type.text})"
  | element name type index => node s!"Array: {name} ({type.text})" [index.outline]
  | call name type args => node s!"Function Call: {name} ({type.text})" (outlineAll args)
  | binary op left right type =>
    node s!"Operation: {op.text} ({type.text})" [left.outline, right.outline]
  | unary op operand type => node s!"Unary Operation: {op.text} ({type.text})" [operand.outline]

def outlineAll : List Expr → List Outline
  | [] => []
  | e :: es => e.outline :: outlineAll es

end

end Expr

/-- The outline of the place a statement stores in. -/
def Target.outline : Target → Outline
  | var name type => leaf s!"Name: {name} ({type.text})"
  | element name type index => node s!"Array: {name} ({type.text})" [index.outline]

namespace Statement

mutual

/-- The outlines of a statement, side by side. -/
def outlines : Statement → List Outline
  | assign target value => [node "Assignment" [target.outline, value.outline]]
  | compound body => [node "Compound Statement" (outlinesAll body)]
  | branch test yes no =>
    [node "If" [test.outline], node "Then" yes.outlines, node "Else" no.outlines]
  | loop test body => [node "While" [test.outline], node "Do" body.outlines]
  | call name args => [node s!"Procedure Call: {name}" (Expr.outlineAll args)]
  | read target => [node "Read" [target.outline]]
  | write value => [node "Write" [value.outline]]

def outlinesAll : List Statement → List Outline
  | [] => []
  | s :: ss => s.outlines ++ outlinesAll ss

end

end Statement

namespace Subprogram

def heading (kind : RoutineKind) (name : String) (returns : Option ValueType) : String :=
  match kind, returns with
  | .function, some type => s!"Function: {name} returns {type.text}"
  | _, _ => s!"Procedure: {name}"

mutual

def outline : Subprogram → Outline
  | ⟨kind, name, returns, args, vars, subprograms, body, _⟩ =>
    node (heading kind name returns)
      [node "Arguments" (args.map Variable.outline),
        node "Declarations" (vars.map Variable.outline),
        node "SubProgramDeclarations" (outlineAll subprograms),
        node "Compound Statement" (Statement.outlinesAll body)]

def outlineAll : List Subprogram → List Outline
  | [] => []
  | s :: ss => s.outline :: outlineAll ss

end

end Subprogram

namespace Program

def outline (p : Program) : Outline :=
  node s!"Program: {p.name}"
    [node "Declarations" (p.vars.map Variable.outline),
      node "SubProgramDeclarations" (Subprogram.outlineAll p.subprograms),
      node "Compound Statement" (Statement.outlinesAll p.body)]

def dump (p : Program) : String := p.outline.render

end Program

end PascalMips
