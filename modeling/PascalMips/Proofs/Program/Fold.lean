import Mathlib.Data.List.Forall2
import PascalMips.Program.Fold
import PascalMips.Proofs.Expr.Fold

/-!
# Folding keeps programs

A program is its skeleton, what is left of it without its expressions, and its expressions in their
order. Folding keeps the skeleton (names, declarations, locations, nesting, the structure of
statements and the numbers of arguments) and folds each expression in its place.
-/

namespace PascalMips

/-! ## Skeleton and expressions -/

namespace Target

def mapExpr (f : Expr → Expr) : Target → Target
  | var name type => var name type
  | element name type index => element name type (f index)

def exprs : Target → List Expr
  | var _ _ => []
  | element _ _ index => [index]

end Target

namespace Statement

mutual

/-- The statement with its expressions changed. -/
def mapExpr (f : Expr → Expr) : Statement → Statement
  | assign target value => assign (target.mapExpr f) (f value)
  | compound body => compound (mapExprs f body)
  | branch test yes no => branch (f test) (yes.mapExpr f) (no.mapExpr f)
  | loop test body => loop (f test) (body.mapExpr f)
  | call name args => call name (args.map f)
  | read target => read (target.mapExpr f)
  | write value => write (f value)

def mapExprs (f : Expr → Expr) : List Statement → List Statement
  | [] => []
  | s :: ss => s.mapExpr f :: mapExprs f ss

end

mutual

/-- The expressions of a statement, not those inside expressions. -/
def exprs : Statement → List Expr
  | assign target value => target.exprs ++ [value]
  | compound body => exprsOf body
  | branch test yes no => test :: (yes.exprs ++ no.exprs)
  | loop test body => test :: body.exprs
  | call _ args => args
  | read target => target.exprs
  | write value => [value]

def exprsOf : List Statement → List Expr
  | [] => []
  | s :: ss => s.exprs ++ exprsOf ss

end

end Statement

namespace Subprogram

mutual

def mapExpr (f : Expr → Expr) : Subprogram → Subprogram
  | ⟨kind, name, returns, args, vars, subprograms, body, location⟩ =>
    ⟨kind, name, returns, args, vars, mapExprs f subprograms, Statement.mapExprs f body, location⟩

def mapExprs (f : Expr → Expr) : List Subprogram → List Subprogram
  | [] => []
  | s :: ss => s.mapExpr f :: mapExprs f ss

end

mutual

def exprs : Subprogram → List Expr
  | ⟨_, _, _, _, _, subprograms, body, _⟩ => exprsOf subprograms ++ Statement.exprsOf body

def exprsOf : List Subprogram → List Expr
  | [] => []
  | s :: ss => s.exprs ++ exprsOf ss

end

end Subprogram

namespace Program

def mapExpr (f : Expr → Expr) (p : Program) : Program :=
  { p with
    subprograms := Subprogram.mapExprs f p.subprograms
    body := Statement.mapExprs f p.body }

/-- The expressions of a program, from its subprograms and its body. -/
def exprs (p : Program) : List Expr := Subprogram.exprsOf p.subprograms ++ Statement.exprsOf p.body

/-- A program without its expressions: a literal stands for each. -/
def skeleton (p : Program) : Program := p.mapExpr fun _ => .literal "" .integer

end Program

/-! ## Folding is a change of expressions -/

theorem Expr.foldAll_eq_map (es : List Expr) : foldAll es = es.map fold := by
  induction es with
  | nil => rfl
  | cons e es ih => rw [foldAll, List.map_cons, ih]

theorem Target.fold_eq_mapExpr (t : Target) : t.fold = t.mapExpr Expr.fold := by cases t <;> rfl

namespace Statement

mutual

/-- Folding a statement folds each of its expressions. -/
theorem fold_eq_mapExpr : ∀ s : Statement, s.fold = s.mapExpr Expr.fold
  | assign target value => by rw [fold, mapExpr, target.fold_eq_mapExpr]
  | compound body => by rw [fold, mapExpr, foldAll_eq_mapExprs body]
  | branch test yes no => by rw [fold, mapExpr, fold_eq_mapExpr yes, fold_eq_mapExpr no]
  | loop test body => by rw [fold, mapExpr, fold_eq_mapExpr body]
  | call name args => by rw [fold, mapExpr, Expr.foldAll_eq_map]
  | read target => by rw [fold, mapExpr, target.fold_eq_mapExpr]
  | write value => by rw [fold, mapExpr]

theorem foldAll_eq_mapExprs : ∀ ss : List Statement, foldAll ss = mapExprs Expr.fold ss
  | [] => by rw [foldAll, mapExprs]
  | s :: ss => by rw [foldAll, mapExprs, fold_eq_mapExpr s, foldAll_eq_mapExprs ss]

end

mutual

/-- Two changes of expressions are one. -/
theorem mapExpr_mapExpr (f g : Expr → Expr) :
    ∀ s : Statement, (s.mapExpr f).mapExpr g = s.mapExpr (g ∘ f)
  | assign target value => by cases target <;> simp [mapExpr, Target.mapExpr]
  | compound body => by simp [mapExpr, mapExprs_mapExprs f g body]
  | branch test yes no => by simp [mapExpr, mapExpr_mapExpr f g yes, mapExpr_mapExpr f g no]
  | loop test body => by simp [mapExpr, mapExpr_mapExpr f g body]
  | call name args => by simp [mapExpr]
  | read target => by cases target <;> simp [mapExpr, Target.mapExpr]
  | write value => by simp [mapExpr]

theorem mapExprs_mapExprs (f g : Expr → Expr) :
    ∀ ss : List Statement, mapExprs g (mapExprs f ss) = mapExprs (g ∘ f) ss
  | [] => by simp [mapExprs]
  | s :: ss => by simp [mapExprs, mapExpr_mapExpr f g s, mapExprs_mapExprs f g ss]

end

mutual

/-- After a change, the expressions of a statement are the changed ones, in the same order. -/
theorem exprs_mapExpr (f : Expr → Expr) : ∀ s : Statement, (s.mapExpr f).exprs = s.exprs.map f
  | assign target value => by cases target <;> simp [mapExpr, exprs, Target.mapExpr, Target.exprs]
  | compound body => by simp [mapExpr, exprs, exprsOf_mapExprs f body]
  | branch test yes no => by simp [mapExpr, exprs, exprs_mapExpr f yes, exprs_mapExpr f no]
  | loop test body => by simp [mapExpr, exprs, exprs_mapExpr f body]
  | call name args => by simp [mapExpr, exprs]
  | read target => by cases target <;> simp [mapExpr, exprs, Target.mapExpr, Target.exprs]
  | write value => by simp [mapExpr, exprs]

theorem exprsOf_mapExprs (f : Expr → Expr) :
    ∀ ss : List Statement, exprsOf (mapExprs f ss) = (exprsOf ss).map f
  | [] => by simp [mapExprs, exprsOf]
  | s :: ss => by simp [mapExprs, exprsOf, exprs_mapExpr f s, exprsOf_mapExprs f ss]

end

end Statement

namespace Subprogram

mutual

/-- Folding a subprogram folds the expressions in it and in those nested in it. -/
theorem fold_eq_mapExpr : ∀ s : Subprogram, s.fold = s.mapExpr Expr.fold
  | ⟨_, _, _, _, _, subprograms, body, _⟩ => by
    rw [fold, mapExpr, foldAll_eq_mapExprs subprograms, Statement.foldAll_eq_mapExprs]

theorem foldAll_eq_mapExprs : ∀ ss : List Subprogram, foldAll ss = mapExprs Expr.fold ss
  | [] => by rw [foldAll, mapExprs]
  | s :: ss => by rw [foldAll, mapExprs, fold_eq_mapExpr s, foldAll_eq_mapExprs ss]

end

mutual

theorem mapExpr_mapExpr (f g : Expr → Expr) :
    ∀ s : Subprogram, (s.mapExpr f).mapExpr g = s.mapExpr (g ∘ f)
  | ⟨_, _, _, _, _, subprograms, body, _⟩ => by
    simp [mapExpr, mapExprs_mapExprs f g subprograms, Statement.mapExprs_mapExprs]

theorem mapExprs_mapExprs (f g : Expr → Expr) :
    ∀ ss : List Subprogram, mapExprs g (mapExprs f ss) = mapExprs (g ∘ f) ss
  | [] => by simp [mapExprs]
  | s :: ss => by simp [mapExprs, mapExpr_mapExpr f g s, mapExprs_mapExprs f g ss]

end

mutual

/-- After a change, the expressions of a subprogram are the changed ones, in the same order. -/
theorem exprs_mapExpr (f : Expr → Expr) : ∀ s : Subprogram, (s.mapExpr f).exprs = s.exprs.map f
  | ⟨_, _, _, _, _, subprograms, body, _⟩ => by
    simp [mapExpr, exprs, exprsOf_mapExprs f subprograms, Statement.exprsOf_mapExprs]

theorem exprsOf_mapExprs (f : Expr → Expr) :
    ∀ ss : List Subprogram, exprsOf (mapExprs f ss) = (exprsOf ss).map f
  | [] => by simp [mapExprs, exprsOf]
  | s :: ss => by simp [mapExprs, exprsOf, exprs_mapExpr f s, exprsOf_mapExprs f ss]

end

end Subprogram

namespace Program

theorem fold_eq_mapExpr (p : Program) : p.fold = p.mapExpr Expr.fold := by
  rw [fold, mapExpr, Subprogram.foldAll_eq_mapExprs, Statement.foldAll_eq_mapExprs]

theorem skeleton_mapExpr (f : Expr → Expr) (p : Program) : (p.mapExpr f).skeleton = p.skeleton := by
  simp only [skeleton, mapExpr, Subprogram.mapExprs_mapExprs, Statement.mapExprs_mapExprs]
  rfl

/-- After a change, the expressions of a program are the changed ones, in the same order. -/
theorem exprs_mapExpr (f : Expr → Expr) (p : Program) : (p.mapExpr f).exprs = p.exprs.map f := by
  simp [exprs, mapExpr, Subprogram.exprsOf_mapExprs, Statement.exprsOf_mapExprs]

/-- Folding keeps the skeleton of a program and, at every position of every expression, type and
meaning; the folded program again has the types that follow from operands everywhere. -/
theorem fold_preserves {p : Program} (h : ∀ e ∈ p.exprs, e.All Expr.IsSound) :
    p.fold.skeleton = p.skeleton ∧ List.Forall₂ Expr.Preserves p.exprs p.fold.exprs ∧
      ∀ e ∈ p.fold.exprs, e.All Expr.HasDerivedType := by
  rw [fold_eq_mapExpr, exprs_mapExpr]
  refine ⟨skeleton_mapExpr _ p, ?_, ?_⟩
  · rw [List.forall₂_map_right_iff, List.forall₂_same]
    exact fun e he => Expr.preserves_fold (h e he)
  · intro e he
    obtain ⟨d, hd, rfl⟩ := List.mem_map.1 he
    exact (Expr.sound_fold (h d hd)).1.imp fun _ hsound => hsound.1

/-- `x := 1 + 2 * 3; write(y / 0); write(f(0.1 + 0.2, 2 < 1.5))`, in a procedure `p`. -/
def sampleProgram : Program where
  name := "sample"
  vars := [⟨"x", .integer⟩, ⟨"y", .integer⟩]
  subprograms := [⟨.procedure, "p", none, [], [], [], [
    .assign (.var "x" .integer)
      (.binary .add (.literal "1" .integer)
        (.binary .mul (.literal "2" .integer) (.literal "3" .integer) .integer) .integer),
    .write (.binary .divide (.var "y" .integer) (.literal "0" .integer) .integer),
    .write (.call "f" .real [
      .binary .add (.literal "0.1" .real) (.literal "0.2" .real) .real,
      .binary (.rel .lt) (.literal "2" .integer) (.literal "1.5" .real) .integer])], ⟨1, 1⟩⟩]
  body := []
  location := ⟨1, 1⟩

theorem sampleProgram_fold_preserves :
    sampleProgram.fold.exprs =
        [.literal "7" .integer,
          .binary .divide (.var "y" .integer) (.literal "0" .integer) .integer,
          .call "f" .real [.literal "0.3" .real, .literal "0" .integer]] ∧
      sampleProgram.fold.skeleton = sampleProgram.skeleton ∧
      List.Forall₂ Expr.Preserves sampleProgram.exprs sampleProgram.fold.exprs ∧
      ∀ e ∈ sampleProgram.fold.exprs, e.All Expr.HasDerivedType :=
  ⟨by decide +kernel, fold_preserves (by decide +kernel)⟩

end Program

end PascalMips
