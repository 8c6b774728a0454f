import PascalMips.Program.Fold
import PascalMips.Proofs.Expr.Fold
import PascalMips.Proofs.Parser.Checked

/-!
# Uses of names

Code depends on how the names of arrays and subprograms resolve. The uses of them in a statement are
listed in the order of the text. Folding keeps this list, because what it evaluates has literals for
operands; and in a statement that was read from a text every use agrees with a declaration
(`Use.Agrees`).
-/

namespace PascalMips

/-- An element of an array, or a call with a number of arguments. -/
inductive Use where
  | element (name : String)
  | call (name : String) (count : Nat)

namespace Expr

mutual

/-- The uses of arrays and subprograms in an expression. -/
def uses : Expr → List Use
  | literal _ _ => []
  | var _ _ => []
  | element name _ index => .element name :: index.uses
  | call name _ args => .call name args.length :: usesAll args
  | binary _ left right _ => left.uses ++ right.uses
  | unary _ operand _ => operand.uses

def usesAll : List Expr → List Use
  | [] => []
  | e :: es => e.uses ++ usesAll es

end

/-- Constants use nothing. -/
theorem uses_of_constant? {e : Expr} {c : Constant} (h : e.constant? = some c) : e.uses = [] := by
  cases e with
  | literal text type => rw [uses]
  | var => cases h
  | element => cases h
  | call => cases h
  | binary => cases h
  | unary => cases h

mutual

/-- Folding keeps the uses of an expression. -/
theorem uses_fold : ∀ e : Expr, e.fold.uses = e.uses
  | literal .. => by rw [fold]
  | var .. => by rw [fold]
  | element _ _ index => by rw [fold, uses, uses, uses_fold index]
  | call _ _ args => by rw [fold, uses, uses, length_foldAll, usesAll_foldAll args]
  | binary op left right type => by
    rw [fold, uses, ← uses_fold left, ← uses_fold right]
    cases h : evaluate? op left.fold right.fold with
    | none => rw [Option.getD_none, uses]
    | some e =>
      obtain ⟨_, _, c, hl, hr, -, rfl⟩ := exists_of_evaluate? h
      rw [Option.getD_some, uses_of_constant? hl, uses_of_constant? hr, ofLiteral, uses]
      rfl
  | unary _ operand _ => by rw [fold, uses, uses, uses_fold operand]

theorem usesAll_foldAll : ∀ es : List Expr, usesAll (foldAll es) = usesAll es
  | [] => by rw [foldAll]
  | e :: es => by rw [foldAll, usesAll, usesAll, uses_fold e, usesAll_foldAll es]

end

end Expr

namespace Target

def uses : Target → List Use
  | var _ _ => []
  | element name _ index => .element name :: index.uses

theorem uses_fold (t : Target) : t.fold.uses = t.uses := by
  cases t with
  | var => rfl
  | element name type index => rw [fold, uses, uses, index.uses_fold]

end Target

namespace Statement

mutual

/-- The uses of arrays and subprograms in a statement. -/
def uses : Statement → List Use
  | assign target value => value.uses ++ target.uses
  | compound body => usesAll body
  | branch test yes no => test.uses ++ (yes.uses ++ no.uses)
  | loop test body => test.uses ++ body.uses
  | call name args => .call name args.length :: Expr.usesAll args
  | read target => target.uses
  | write value => value.uses

def usesAll : List Statement → List Use
  | [] => []
  | s :: ss => s.uses ++ usesAll ss

end

mutual

theorem uses_fold : ∀ s : Statement, s.fold.uses = s.uses
  | assign target value => by rw [fold, uses, uses, value.uses_fold, target.uses_fold]
  | compound body => by rw [fold, uses, uses, usesAll_foldAll body]
  | branch test yes no => by
    rw [fold, uses, uses, test.uses_fold, uses_fold yes, uses_fold no]
  | loop test body => by rw [fold, uses, uses, test.uses_fold, uses_fold body]
  | call name args => by rw [fold, uses, uses, Expr.length_foldAll, Expr.usesAll_foldAll]
  | read target => by rw [fold, uses, uses, target.uses_fold]
  | write value => by rw [fold, uses, uses, value.uses_fold]

/-- Folding keeps the uses of statements. -/
theorem usesAll_foldAll : ∀ ss : List Statement, usesAll (foldAll ss) = usesAll ss
  | [] => by rw [foldAll]
  | s :: ss => by rw [foldAll, usesAll, usesAll, uses_fold s, usesAll_foldAll ss]

end

end Statement

/-! ## Uses agree with declarations -/

/-- The name is declared as what it is used for: an array, or a subprogram with as many parameters as
there are arguments. -/
def Use.Agrees (t : SymbolTable) : Use → Prop
  | element name => ∃ symbol type bounds, t.lookup? name = some symbol ∧
      symbol.binding = .array type bounds
  | call name count => ∃ symbol params, t.lookup? name = some symbol ∧
      symbol.binding.params? = some params ∧ params.length = count

section

variable {t : SymbolTable} {enclosing : List String} {u : Use}

mutual

/-- The uses in a checked expression agree with the table, by induction over expressions. -/
theorem Expr.agrees_of_mem_uses : ∀ {e : Expr}, e.All (IsChecked t) → u ∈ e.uses → u.Agrees t
  | literal .., _, hu => by rw [uses] at hu; cases hu
  | var .., _, hu => by rw [uses] at hu; cases hu
  | element name type index, ⟨⟨⟨symbol, bounds, hlookup, hbinding⟩, _⟩, hindex⟩, hu => by
    rw [uses] at hu
    rcases List.mem_cons.1 hu with rfl | hu
    · exact ⟨symbol, type, bounds, hlookup, hbinding⟩
    · exact agrees_of_mem_uses hindex hu
  | call name type args, ⟨⟨⟨symbol, params, hlookup, hbinding, hlength⟩, _⟩, hargs⟩, hu => by
    rw [uses] at hu
    rcases List.mem_cons.1 hu with rfl | hu
    · exact ⟨symbol, params, hlookup, by rw [hbinding]; rfl, hlength.symm⟩
    · exact agrees_of_mem_usesAll hargs hu
  | binary .., ⟨_, hleft, hright⟩, hu => by
    rw [uses] at hu
    rcases List.mem_append.1 hu with hu | hu
    · exact agrees_of_mem_uses hleft hu
    · exact agrees_of_mem_uses hright hu
  | unary .., ⟨_, hoperand⟩, hu => by
    rw [uses] at hu
    exact agrees_of_mem_uses hoperand hu

theorem Expr.agrees_of_mem_usesAll : ∀ {es : List Expr}, AllOf (IsChecked t) es →
    u ∈ usesAll es → u.Agrees t
  | [], _, hu => by rw [usesAll] at hu; cases hu
  | _ :: _, ⟨he, hes⟩, hu => by
    rw [usesAll] at hu
    rcases List.mem_append.1 hu with hu | hu
    · exact agrees_of_mem_uses he hu
    · exact agrees_of_mem_usesAll hes hu

end

/-- The uses in a checked place agree with the table. -/
theorem Target.agrees_of_mem_uses {target : Target} (h : target.Checked t enclosing)
    (hu : u ∈ target.uses) : u.Agrees t := by
  cases target with
  | var => cases hu
  | element name type index =>
    obtain ⟨⟨symbol, bounds, hlookup, hbinding⟩, hindex⟩ := h
    rcases List.mem_cons.1 hu with rfl | hu
    · exact ⟨symbol, type, bounds, hlookup, hbinding⟩
    · exact Expr.agrees_of_mem_uses hindex hu

mutual

/-- The uses in a checked statement agree with the table, by induction over statements. -/
theorem Statement.agrees_of_mem_uses : ∀ {s : Statement}, s.All (IsChecked t enclosing) →
    u ∈ s.uses → u.Agrees t
  | assign .., ⟨htarget, hvalue⟩, hu => by
    rw [uses] at hu
    rcases List.mem_append.1 hu with hu | hu
    · exact Expr.agrees_of_mem_uses hvalue hu
    · exact Target.agrees_of_mem_uses htarget hu
  | compound _, ⟨_, hbody⟩, hu => by
    rw [uses] at hu
    exact agrees_of_mem_usesAll hbody hu
  | branch .., ⟨htest, hyes, hno⟩, hu => by
    rw [uses] at hu
    rcases List.mem_append.1 hu with hu | hu
    · exact Expr.agrees_of_mem_uses htest hu
    · rcases List.mem_append.1 hu with hu | hu
      · exact agrees_of_mem_uses hyes hu
      · exact agrees_of_mem_uses hno hu
  | loop .., ⟨htest, hbody⟩, hu => by
    rw [uses] at hu
    rcases List.mem_append.1 hu with hu | hu
    · exact Expr.agrees_of_mem_uses htest hu
    · exact agrees_of_mem_uses hbody hu
  | call .., ⟨hargs, symbol, params, hlookup, hbinding, hlength⟩, hu => by
    rw [uses] at hu
    rcases List.mem_cons.1 hu with rfl | hu
    · exact ⟨symbol, params, hlookup, by rw [hbinding]; rfl, hlength.symm⟩
    · exact Expr.agrees_of_mem_usesAll hargs hu
  | read _, htarget, hu => by
    rw [uses] at hu
    exact Target.agrees_of_mem_uses htarget hu
  | write _, hvalue, hu => by
    rw [uses] at hu
    exact Expr.agrees_of_mem_uses hvalue hu

/-- The uses in checked statements agree with the table. -/
theorem Statement.agrees_of_mem_usesAll : ∀ {ss : List Statement},
    AllOf (IsChecked t enclosing) ss → u ∈ usesAll ss → u.Agrees t
  | [], _, hu => by rw [usesAll] at hu; cases hu
  | _ :: _, ⟨hs, hss⟩, hu => by
    rw [usesAll] at hu
    rcases List.mem_append.1 hu with hu | hu
    · exact agrees_of_mem_uses hs hu
    · exact agrees_of_mem_usesAll hss hu

end

end

end PascalMips
