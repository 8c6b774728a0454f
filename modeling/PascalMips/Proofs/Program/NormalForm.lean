import PascalMips.Proofs.Program.Fold

/-!
# Folding leaves nothing to fold

An expression is settled if no operation in it has a value. Folding gives settled expressions,
whatever the types and the literals are: operands are folded first, and an operation on them either
becomes a literal, which is settled, or has no value and stays (`Expr.settled_fold`). A settled
expression is its own folding (`Expr.fold_eq_self_iff`), so folding once is enough.
-/

namespace PascalMips

namespace Expr

/-- The node is not an operation that has a value. -/
def IsSettled : Expr → Prop
  | binary op left right _ => evaluate? op left right = none
  | _ => True

/-- What an operation comes to is a literal, in which there is nothing to fold. -/
theorem settled_of_evaluate? {op : BinaryOp} {left right e : Expr}
    (h : evaluate? op left right = some e) : e.All IsSettled := by
  obtain ⟨_, _, value, -, -, -, rfl⟩ := exists_of_evaluate? h
  trivial

mutual

/-- A folded expression is settled: operands are folded before their operation, and what could be
evaluated was. -/
theorem settled_fold : ∀ e : Expr, e.fold.All IsSettled
  | literal .. => by
    rw [fold]
    trivial
  | var .. => by
    rw [fold]
    trivial
  | element name type index => by
    rw [fold]
    exact ⟨trivial, settled_fold index⟩
  | call name type args => by
    rw [fold]
    exact ⟨trivial, settled_foldAll args⟩
  | binary op left right type => by
    rw [fold]
    cases hvalue : evaluate? op left.fold right.fold with
    | none => exact ⟨hvalue, settled_fold left, settled_fold right⟩
    | some e => exact settled_of_evaluate? hvalue
  | unary op operand type => by
    rw [fold]
    exact ⟨trivial, settled_fold operand⟩

theorem settled_foldAll : ∀ es : List Expr, AllOf IsSettled (foldAll es)
  | [] => trivial
  | e :: es => ⟨settled_fold e, settled_foldAll es⟩

end

mutual

/-- Folding a settled expression changes nothing. -/
theorem fold_of_settled : ∀ {e : Expr}, e.All IsSettled → e.fold = e
  | literal .., _ => by rw [fold]
  | var .., _ => by rw [fold]
  | element name type index, h => by rw [fold, fold_of_settled h.2]
  | call name type args, h => by rw [fold, foldAll_of_settled h.2]
  | binary op left right type, h => by
    have hvalue : evaluate? op left right = none := h.1
    rw [fold, fold_of_settled h.2.1, fold_of_settled h.2.2, hvalue]
    rfl
  | unary op operand type, h => by rw [fold, fold_of_settled h.2]

theorem foldAll_of_settled : ∀ {es : List Expr}, AllOf IsSettled es → foldAll es = es
  | [], _ => by rw [foldAll]
  | e :: es, h => by rw [foldAll, fold_of_settled h.1, foldAll_of_settled h.2]

end

/-- The expressions that folding leaves alone are those in which no operation has a value. -/
theorem fold_eq_self_iff {e : Expr} : e.fold = e ↔ e.All IsSettled := by
  constructor
  · intro h
    rw [← h]
    exact settled_fold e
  · exact fold_of_settled

end Expr

/-! ## Changes of expressions that change nothing -/

theorem Target.mapExpr_eq_self {f : Expr → Expr} {t : Target} (h : ∀ e ∈ t.exprs, f e = e) :
    t.mapExpr f = t := by
  cases t with
  | var => rfl
  | element name type index => rw [mapExpr, h index List.mem_cons_self]

namespace Statement

mutual

/-- A change that leaves all expressions of a statement as they are leaves the statement. -/
theorem mapExpr_eq_self {f : Expr → Expr} : ∀ {s : Statement}, (∀ e ∈ s.exprs, f e = e) →
    s.mapExpr f = s
  | assign target value, h => by
    obtain ⟨htarget, hvalue⟩ := List.forall_mem_append.1 h
    rw [mapExpr, Target.mapExpr_eq_self htarget, hvalue value List.mem_cons_self]
  | compound body, h => by rw [mapExpr, mapExprs_eq_self h]
  | branch test yes no, h => by
    obtain ⟨htest, hboth⟩ := List.forall_mem_cons.1 h
    obtain ⟨hyes, hno⟩ := List.forall_mem_append.1 hboth
    rw [mapExpr, htest, mapExpr_eq_self hyes, mapExpr_eq_self hno]
  | loop test body, h => by
    obtain ⟨htest, hbody⟩ := List.forall_mem_cons.1 h
    rw [mapExpr, htest, mapExpr_eq_self hbody]
  | call name args, h => by
    have hargs : args.map f = args := (List.map_congr_left h).trans (List.map_id' args)
    rw [mapExpr, hargs]
  | read target, h => by rw [mapExpr, Target.mapExpr_eq_self h]
  | write value, h => by rw [mapExpr, h value List.mem_cons_self]

theorem mapExprs_eq_self {f : Expr → Expr} : ∀ {ss : List Statement},
    (∀ e ∈ exprsOf ss, f e = e) → mapExprs f ss = ss
  | [], _ => by rw [mapExprs]
  | s :: ss, h => by
    obtain ⟨hs, hss⟩ := List.forall_mem_append.1 h
    rw [mapExprs, mapExpr_eq_self hs, mapExprs_eq_self hss]

end

end Statement

namespace Subprogram

mutual

theorem mapExpr_eq_self {f : Expr → Expr} : ∀ {s : Subprogram}, (∀ e ∈ s.exprs, f e = e) →
    s.mapExpr f = s
  | ⟨_, _, _, _, _, subprograms, body, _⟩, h => by
    obtain ⟨hsubs, hbody⟩ := List.forall_mem_append.1 h
    rw [mapExpr, mapExprs_eq_self hsubs, Statement.mapExprs_eq_self hbody]

theorem mapExprs_eq_self {f : Expr → Expr} : ∀ {ss : List Subprogram},
    (∀ e ∈ exprsOf ss, f e = e) → mapExprs f ss = ss
  | [], _ => by rw [mapExprs]
  | s :: ss, h => by
    obtain ⟨hs, hss⟩ := List.forall_mem_append.1 h
    rw [mapExprs, mapExpr_eq_self hs, mapExprs_eq_self hss]

end

end Subprogram

namespace Program

theorem mapExpr_eq_self {f : Expr → Expr} {p : Program} (h : ∀ e ∈ p.exprs, f e = e) :
    p.mapExpr f = p := by
  obtain ⟨hsubs, hbody⟩ := List.forall_mem_append.1 h
  rw [mapExpr, Subprogram.mapExprs_eq_self hsubs, Statement.mapExprs_eq_self hbody]

theorem settled_of_mem_exprs_fold {p : Program} {e : Expr} (h : e ∈ p.fold.exprs) :
    e.All Expr.IsSettled := by
  rw [fold_eq_mapExpr, exprs_mapExpr] at h
  obtain ⟨d, -, rfl⟩ := List.mem_map.1 h
  exact Expr.settled_fold d

/-- Folding a folded program changes nothing, and nowhere in its expressions is there an operation
on literals that has a value. -/
theorem fold_settles (p : Program) : p.fold.fold = p.fold ∧
    ∀ e ∈ p.fold.exprs, ∀ (path : List Nat) (op : BinaryOp) (left right : Expr) (type : ValueType),
      e.at? path = some (.binary op left right type) → Expr.evaluate? op left right = none := by
  constructor
  · rw [fold_eq_mapExpr p.fold]
    apply mapExpr_eq_self
    intro e he
    exact Expr.fold_eq_self_iff.2 (settled_of_mem_exprs_fold he)
  · intro e he path op left right type hat
    have hsettled := (settled_of_mem_exprs_fold he).at hat
    exact hsettled.self

/-- A quotient by zero and a sum that overflows stay, with their operands folded. -/
example : (Expr.binary .add (.binary .div (.literal "7" .integer) (.literal "0" .integer) .integer)
      (.binary .add (.literal "2147483647" .integer)
        (.binary .mul (.literal "2" .integer) (.literal "3" .integer) .integer) .integer)
      .integer).fold =
    .binary .add (.binary .div (.literal "7" .integer) (.literal "0" .integer) .integer)
      (.binary .add (.literal "2147483647" .integer) (.literal "6" .integer) .integer)
      .integer := by
  decide +kernel

end Program

end PascalMips
