import PascalMips.Program.Fold
import PascalMips.Proofs.Expr.Fold
import PascalMips.Proofs.Lower.Milder

/-!
# Folding and diagnostics

Folding an expression makes its code milder, wherever it is written (`Expr.milder_fold`): the
operation that becomes a literal asks for the register of its result, which the literal asks for as
well, and for those of its operands.

So does folding a test (`Lower.milder_branchUnless`), though the code of a comparison leaves the
register at the cursor alone and the literal that it is folded to is taken to that register: a
comparison asks for registers above the cursor, and if the one at the cursor is missing, so are
those. Hence folded statements are milder (`Statement.milder_foldAll`).
-/

namespace PascalMips

namespace Lower

/-! ## Registers -/

/-- The marks of code that asks for the register at an index of the pool. -/
def registerMarks (i : Nat) : List Diagnostic := if i < 8 then [] else [.outOfRegisters]

theorem marks_of_register (i : Nat) (ctx : Context) (c : Counters) :
    diagnosticsOf (register i ctx c).lines = registerMarks i := by
  unfold registerMarks
  split
  · next h =>
    rw [register_of_eq (show i = (⟨i, h⟩ : Fin 8).val from rfl)]
    rfl
  · next h =>
    rw [register_of_none (List.getElem?_eq_none (Nat.not_lt.1 h))]
    rfl

/-- Where a register is missing, the next one is as well. -/
theorem registerMarks_sublist (i : Nat) : (registerMarks i).Sublist (registerMarks (i + 1)) := by
  unfold registerMarks
  split
  · exact List.nil_sublist _
  · rw [if_neg (by omega)]

theorem marks_of_literal {text : String} {type : ValueType} {a : Constant}
    (h : Constant.ofLiteral? text type = some a) (ctx : Context) (c : Counters) :
    diagnosticsOf (literal text type ctx c).lines = registerMarks c.cursor := by
  cases type with
  | integer =>
    obtain ⟨i, hi, -⟩ := Option.map_eq_some_iff.1 h
    simp only [literal, bind_apply, cursor_apply, hi, diagnosticsOf_append, marks_of_register]
    exact List.append_nil _
  | real =>
    obtain ⟨x, hx, -⟩ := Option.map_eq_some_iff.1 h
    simp only [literal, bind_apply, cursor_apply, hx, diagnosticsOf_append, marks_of_register]
    exact List.append_nil _

/-! ## Literals in place of operations -/

variable {op : BinaryOp} {relation : Relation} {left right e : Expr}

/-- The literal asks for no register but that of the result. -/
theorem milder_of_evaluate? (h : Expr.evaluate? op left right = some e) (type s t : ValueType) :
    Milder e.lower (binary op type s t left.lower right.lower) := by
  obtain ⟨_, _, _, _, _, _, _, _, _, rfl, rfl, rfl, -, -, hread⟩ := Expr.literals_of_evaluate? h
  intro ctx c
  refine ⟨rfl, ?_, ?_⟩
  · simp only [counters_binary, Expr.lower, still_literal _ _ _ _, Counters.take_take]
    exact (Counters.release_take c 2).symm
  · simp only [Expr.lower, marks_of_literal hread, binary, bind_apply, cursor_apply,
      diagnosticsOf_append, marks_of_register]
    exact (List.sublist_append_left _ _).trans
      ((List.sublist_append_right _ _).trans (List.sublist_append_right _ _))

/-- The test of the literal asks twice for the register at the cursor, the comparison twice for the
one above it. -/
theorem milder_valueUnless_of_evaluate? (h : Expr.evaluate? (.rel relation) left right = some e)
    (label : Label) : Milder (valueUnless e label) (compareUnless relation left right label) := by
  intro ctx c
  have hmilder := milder_of_evaluate? h .integer left.type right.type ctx c
  obtain ⟨text₁, type₁, text₂, type₂, text, type, _, _, _, rfl, rfl, rfl, hleft, hright, hread⟩ :=
    Expr.literals_of_evaluate? h
  have hcounters (test : Expr) : (branchUnless test label ctx c).counters =
      (test.lower ctx c).counters := counters_branchUnless test label
  have hcompare := hcounters (.binary (.rel relation) (.literal text₁ type₁)
    (.literal text₂ type₂) .integer)
  refine ⟨rfl, (hcounters (.literal text type)).trans (hmilder.counters.trans hcompare.symm), ?_⟩
  simp only [valueUnless, compareUnless, operands, Expr.lower, bind_apply, cursor_apply, take_apply,
    release_apply, still_literal _ _ _ _, still_register _ _ _, diagnosticsOf_append,
    marks_of_literal hread, marks_of_literal hleft, marks_of_literal hright, marks_of_register,
    (quiet_convert _ _ _).marks, List.append_assoc]
  have hnext := registerMarks_sublist c.cursor
  have hlast : (registerMarks c.cursor ++ []).Sublist (registerMarks (c.cursor + 1)) := by
    rw [List.append_nil]
    exact hnext
  exact hnext.append
    (hlast.trans ((List.sublist_append_left _ _).trans (List.sublist_append_right _ _)))

end Lower

/-! ## Expressions -/

namespace Expr

mutual

/-- The code of a folded expression is milder than that of the expression. -/
theorem milder_fold : ∀ e : Expr, Lower.Milder e.fold.lower e.lower
  | literal .. => by
    rw [fold]
    exact .refl _
  | var .. => by
    rw [fold]
    exact .refl _
  | element name type index => by
    rw [fold, lower, lower]
    exact Lower.milder_elementValue name _ _ (milder_fold index)
  | call name type args => by
    rw [fold, lower, lower, length_foldAll]
    exact Lower.milder_callValue name _ fun params => milder_foldAll args params
  | binary op left right type => by
    have hoperands := Lower.milder_binary op type left.type left.fold.type right.type
      right.fold.type (milder_fold left) (milder_fold right)
    rw [lower]
    cases hv : evaluate? op left.fold right.fold with
    | none =>
      rw [fold_of_none type hv, lower]
      exact hoperands
    | some e =>
      rw [fold_of_some type hv]
      exact (Lower.milder_of_evaluate? hv type _ _).trans hoperands
  | unary op operand type => by
    rw [fold, lower, lower]
    exact Lower.milder_unary op type _ _ (milder_fold operand)

theorem milder_foldAll : ∀ (args : List Expr) (params : List ValueType),
    Lower.Milder (lowerArgs (foldAll args) params) (lowerArgs args params)
  | [], _ => by
    rw [foldAll]
    exact .refl _
  | _ :: _, [] => by
    rw [foldAll, lowerArgs, lowerArgs]
    exact .refl _
  | arg :: args, param :: params => by
    rw [foldAll, lowerArgs, lowerArgs]
    refine .after _ fun _ => (milder_fold arg).bind fun _ => .after _ fun _ => .after _ fun r => ?_
    exact ((Lower.quiet_convert r _ _).milder (Lower.quiet_convert r _ _)).bind fun _ =>
      milder_foldAll args params

end

end Expr

/-! ## Tests -/

namespace Lower

/-- Folding a test makes its code milder. -/
theorem milder_branchUnless (test : Expr) (label : Label) :
    Milder (branchUnless test.fold label) (branchUnless test label) := by
  have hvalue := milder_valueUnless label test.milder_fold
  cases test with
  | binary op left right type =>
    cases hv : Expr.evaluate? op left.fold right.fold with
    | none =>
      rw [Expr.fold_of_none type hv] at hvalue ⊢
      cases op with
      | rel relation =>
        exact milder_compareUnless relation label left.milder_fold right.milder_fold
      | _ => exact hvalue
    | some e =>
      rw [Expr.fold_of_some type hv] at hvalue ⊢
      obtain ⟨_, _, _, _, text, type', _, _, _, -, -, rfl, -, -, -⟩ := Expr.literals_of_evaluate? hv
      cases op with
      | rel relation =>
        exact (milder_valueUnless_of_evaluate? hv label).trans
          (milder_compareUnless relation label left.milder_fold right.milder_fold)
      | _ => exact hvalue
  | _ =>
    rw [Expr.fold] at hvalue ⊢
    exact hvalue

/-! ## Statements -/

theorem milder_store (target : Target) (source : Reg) :
    Milder (store target.fold source) (store target source) := by
  cases target with
  | var => exact .refl _
  | element name type index =>
    exact (milder_elementAddress name _ _ index.milder_fold).bind fun _ => .refl _

theorem milder_assign (target : Target) (value : Expr) :
    Milder (assign target.fold value.fold) (assign target value) :=
  value.milder_fold.bind fun _ => .after _ fun _ => .after _ fun _ =>
    ((quiet_convert ..).milder (quiet_convert ..)).bind fun _ => milder_store target _

theorem milder_read (target : Target) : Milder (read target.fold) (read target) := by
  have htype : target.fold.type = target.type := by cases target <;> rfl
  refine .after _ fun _ => .after _ fun destination => ?_
  rw [htype]
  cases target.type with
  | integer => exact .after _ fun _ => .after _ fun _ => milder_store target destination
  | real => exact .after _ fun _ => .after _ fun _ => milder_store target destination

end Lower

namespace Statement

open Lower

mutual

/-- The code of a folded statement is milder than that of the statement. -/
theorem milder_fold : ∀ s : Statement, Milder s.fold.lower s.lower
  | assign target value => by
    rw [fold, lower, lower]
    exact milder_assign target value
  | compound body => by
    rw [fold, lower, lower]
    exact milder_foldAll body
  | branch test yes no => by
    rw [fold, lower, lower]
    refine .after _ fun number => (milder_branchUnless test _).bind fun _ =>
      (milder_fold yes).bind fun _ => .after _ fun _ => .after _ fun _ => ?_
    exact (milder_fold no).bind fun _ => .refl _
  | loop test body => by
    rw [fold, lower, lower]
    refine .after _ fun number => .after _ fun _ => (milder_branchUnless test _).bind fun _ => ?_
    exact (milder_fold body).bind fun _ => .refl _
  | call name args => by
    rw [fold, lower, lower, callProcedure, Expr.length_foldAll]
    exact (milder_call name _ (Expr.milder_foldAll args)).bind fun _ => .refl _
  | read target => by
    rw [fold, lower, lower]
    exact milder_read target
  | write value => by
    rw [fold, lower, lower]
    exact milder_write value.milder_fold

theorem milder_foldAll : ∀ ss : List Statement, Milder (lowerAll (foldAll ss)) (lowerAll ss)
  | [] => by
    rw [foldAll]
    exact .refl _
  | s :: ss => by
    rw [foldAll, lowerAll, lowerAll]
    exact (milder_fold s).bind fun _ => milder_foldAll ss

end

end Statement

end PascalMips
