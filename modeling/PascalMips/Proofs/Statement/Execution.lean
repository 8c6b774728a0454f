import PascalMips.Proofs.Expr.Typing
import PascalMips.Proofs.Lower.Memory
import PascalMips.Statement.Basic

/-!
# What statements do

`Statement.Runs` is the terminating execution of a statement, from a store and an input to a store,
the rest of the input and an output. It is a relation and has no rule for a statement that does not
finish, and none where an expression has no value, an index is out of range or the input has ended.
A test holds if its value is one.
-/

namespace PascalMips

/-- The values of variables, and the numbers still to be read. -/
structure State where
  store : Store
  input : List Word

/-- The cell that a statement stores to. -/
def Target.cell? (env : Env) : Target → Option Cell
  | var name _ => some (.var name)
  | element name _ index => do
    let i := index.type.toInteger env (← index.eval env)
    let _ ← env.element name i
    return .element name i.toInt

namespace Statement

section Runs

variable (t : SymbolTable) (toWord : Single → Word)

/-- The statement runs from a state to a state and prints a text. -/
inductive Runs : Statement → State → State → String → Prop
  | assign {target : Target} {value : Expr} {s : State} {v : Word} {cell : Cell}
      (hvalue : value.eval (s.store.env t toWord) = some v)
      (hcell : target.cell? (s.store.env t toWord) = some cell) :
      Runs (.assign target value) s { s with store := Function.update s.store cell v } ""
  | compound_nil {s : State} : Runs (.compound []) s s ""
  | compound_cons {first : Statement} {rest : List Statement} {s s' s'' : State} {o o' : String}
      (hfirst : Runs first s s' o) (hrest : Runs (.compound rest) s' s'' o') :
      Runs (.compound (first :: rest)) s s'' (o ++ o')
  | branch_yes {test : Expr} {yes no : Statement} {s s' : State} {o : String}
      (htest : test.eval (s.store.env t toWord) = some 1) (hyes : Runs yes s s' o) :
      Runs (.branch test yes no) s s' o
  | branch_no {test : Expr} {yes no : Statement} {s s' : State} {o : String} {v : Word}
      (htest : test.eval (s.store.env t toWord) = some v) (hv : v ≠ 1) (hno : Runs no s s' o) :
      Runs (.branch test yes no) s s' o
  | loop_done {test : Expr} {body : Statement} {s : State} {v : Word}
      (htest : test.eval (s.store.env t toWord) = some v) (hv : v ≠ 1) :
      Runs (.loop test body) s s ""
  | loop_next {test : Expr} {body : Statement} {s s' s'' : State} {o o' : String}
      (htest : test.eval (s.store.env t toWord) = some 1) (hbody : Runs body s s' o)
      (hloop : Runs (.loop test body) s' s'' o') : Runs (.loop test body) s s'' (o ++ o')
  | read {target : Target} {σ : Store} {w : Word} {rest : List Word} {cell : Cell}
      (hcell : target.cell? (σ.env t toWord) = some cell) :
      Runs (.read target) ⟨σ, w :: rest⟩ ⟨Function.update σ cell w, rest⟩ ""
  | write {value : Expr} {s : State} {v : Word}
      (hvalue : value.eval (s.store.env t toWord) = some v) :
      Runs (.write value) s s (toString v.toInt ++ "\n")

end Runs

/-! ## Well-formed statements -/

mutual

/-- `P` holds of a statement and of every statement in it. -/
def All (P : Statement → Prop) : Statement → Prop
  | assign target value => P (assign target value)
  | compound body => P (compound body) ∧ AllOf P body
  | branch test yes no => P (branch test yes no) ∧ yes.All P ∧ no.All P
  | loop test body => P (loop test body) ∧ body.All P
  | call name args => P (call name args)
  | read target => P (read target)
  | write value => P (write value)

/-- `P` holds of statements and of every statement in them. -/
def AllOf (P : Statement → Prop) : List Statement → Prop
  | [] => True
  | s :: ss => s.All P ∧ AllOf P ss

end

mutual

/-- Whether `P` holds of a statement and all in it can be computed. -/
instance decidableAll (P : Statement → Prop) [DecidablePred P] :
    (s : Statement) → Decidable (s.All P)
  | assign target value => inferInstanceAs (Decidable (P (assign target value)))
  | compound body =>
    have := decidableAllOf P body
    inferInstanceAs (Decidable (P (compound body) ∧ AllOf P body))
  | branch test yes no =>
    have := decidableAll P yes
    have := decidableAll P no
    inferInstanceAs (Decidable (P (branch test yes no) ∧ yes.All P ∧ no.All P))
  | loop test body =>
    have := decidableAll P body
    inferInstanceAs (Decidable (P (loop test body) ∧ body.All P))
  | call name args => inferInstanceAs (Decidable (P (call name args)))
  | read target => inferInstanceAs (Decidable (P (read target)))
  | write value => inferInstanceAs (Decidable (P (write value)))

instance decidableAllOf (P : Statement → Prop) [DecidablePred P] :
    (ss : List Statement) → Decidable (AllOf P ss)
  | [] => .isTrue trivial
  | s :: ss =>
    have := decidableAll P s
    have := decidableAllOf P ss
    inferInstanceAs (Decidable (s.All P ∧ AllOf P ss))

end

end Statement

namespace Target

/-- A target is visible as a variable, an array or a function of its type, and its index is well
typed. -/
def WellTyped (t : SymbolTable) : Target → Prop
  | var name type => ∃ symbol, t.lookup? name = some symbol ∧
      (symbol.binding = .scalar type ∨ ∃ params, symbol.binding = .function type params)
  | element name type index =>
    (∃ symbol bounds, t.lookup? name = some symbol ∧ symbol.binding = .array type bounds) ∧
      index.WellTyped t

/-- A target for integers, with an index of integers only and without calls. -/
def Integral : Target → Prop
  | var _ type => type = .integer
  | element _ type index => type = .integer ∧ index.Integral

end Target

namespace Statement

/-- The targets and expressions of a statement itself, not those of statements in it, are well
typed. A call has as many arguments as the procedure has parameters. -/
def IsWellTyped (t : SymbolTable) : Statement → Prop
  | assign target value => target.WellTyped t ∧ value.WellTyped t
  | compound _ => True
  | branch test _ _ => test.WellTyped t
  | loop test _ => test.WellTyped t
  | call name args => Expr.AllOf (fun d => d.IsVisible t ∧ d.HasDerivedType) args ∧
      ∃ symbol params, t.lookup? name = some symbol ∧ symbol.binding = .procedure params ∧
        args.length = params.length
  | read target => target.WellTyped t
  | write value => value.WellTyped t

/-- The targets and expressions of a statement itself are of integers only, without calls, and it is
no call. -/
def IsIntegral : Statement → Prop
  | assign target value => target.Integral ∧ value.Integral
  | compound _ => True
  | branch test _ _ => test.Integral
  | loop test _ => test.Integral
  | call _ _ => False
  | read target => target.Integral
  | write value => value.Integral

/-- All targets and expressions in a statement are well typed. -/
def WellTyped (t : SymbolTable) (s : Statement) : Prop := s.All (IsWellTyped t)

/-- A statement of integers only, without calls. -/
def Integral (s : Statement) : Prop := s.All IsIntegral

end Statement

end PascalMips
