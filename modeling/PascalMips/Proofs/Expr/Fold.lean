import PascalMips.Expr.Fold
import PascalMips.Proofs.Constant
import PascalMips.Proofs.Expr.Typing

/-!
# Folding keeps the meaning of expressions

If operations have the types that follow from their operands and literals are ones that a program
can write, then folding an expression keeps its type and, in every environment, its value or that it
has none; and the folded expression is of that form again (`sound_fold`). This holds at every
position (`preserves_fold`): a position of the folded expression is one of the original, and what
stands there is the same node with its operands folded, or the literal of an operation.
-/

namespace PascalMips.Expr

/-! ## Positions -/

/-- The operand, argument or index of a number. -/
def child? : Expr → Nat → Option Expr
  | element _ _ index, 0 => some index
  | call _ _ args, i => args[i]?
  | binary _ left _ _, 0 => some left
  | binary _ _ right _, 1 => some right
  | unary _ operand _, 0 => some operand
  | _, _ => none

/-- The expression at a position, given as the numbers of children from the root on. -/
def at? (e : Expr) : List Nat → Option Expr
  | [] => some e
  | i :: path => (e.child? i).bind fun d => d.at? path

theorem AllOf.getElem {P : Expr → Prop} {es : List Expr} (h : AllOf P es) {i : Nat} {d : Expr}
    (hd : es[i]? = some d) : d.All P := by
  induction es generalizing i with
  | nil => cases hd
  | cons e es ih =>
    cases i with
    | zero =>
      cases hd
      exact h.1
    | succ i => exact ih h.2 hd

/-- What holds of all nodes of an expression holds of all nodes of a part. -/
theorem All.child {P : Expr → Prop} {e d : Expr} {i : Nat} (h : e.All P)
    (hd : e.child? i = some d) : d.All P := by
  unfold child? at hd
  split at hd
  · cases hd
    exact h.2
  · exact h.2.getElem hd
  · cases hd
    exact h.2.1
  · cases hd
    exact h.2.2
  · cases hd
    exact h.2
  · cases hd

theorem All.at {P : Expr → Prop} {path : List Nat} {e d : Expr} (h : e.All P)
    (hd : e.at? path = some d) : d.All P := by
  induction path generalizing e with
  | nil =>
    cases hd
    exact h
  | cons i path ih =>
    obtain ⟨b, hb, hd⟩ := Option.bind_eq_some_iff.1 hd
    exact ih (h.child hb) hd

theorem getElem?_foldAll (es : List Expr) (i : Nat) : (foldAll es)[i]? = es[i]?.map fold := by
  induction es generalizing i with
  | nil => simp [foldAll]
  | cons e es ih =>
    rw [foldAll]
    cases i with
    | zero => rfl
    | succ i => exact ih i

theorem length_foldAll (es : List Expr) : (foldAll es).length = es.length := by
  induction es with
  | nil => rfl
  | cons e es ih => rw [foldAll, List.length_cons, List.length_cons, ih]

/-- An operation is evaluated only on two constants, by the operation on them. -/
theorem exists_of_evaluate? {op : BinaryOp} {left right e : Expr}
    (h : evaluate? op left right = some e) : ∃ a b c, left.constant? = some a ∧
      right.constant? = some b ∧ Constant.apply op a b = some c ∧ e = ofLiteral c.text := by
  unfold evaluate? at h
  simp only [Option.bind_eq_bind, Option.bind_eq_some_iff] at h
  obtain ⟨a, ha, b, hb, c, hc, he⟩ := h
  exact ⟨a, b, c, ha, hb, hc, (Option.some.inj he).symm⟩

/-- An operation that has a value is one on two literals and becomes a literal, and all three can be
read. -/
theorem literals_of_evaluate? {op : BinaryOp} {left right e : Expr}
    (h : evaluate? op left right = some e) : ∃ text₁ type₁ text₂ type₂ text type a b c,
      left = literal text₁ type₁ ∧ right = literal text₂ type₂ ∧ e = literal text type ∧
      Constant.ofLiteral? text₁ type₁ = some a ∧ Constant.ofLiteral? text₂ type₂ = some b ∧
      Constant.ofLiteral? text type = some c := by
  obtain ⟨a, b, c, ha, hb, hc, rfl⟩ := exists_of_evaluate? h
  have hread := Constant.ofLiteral?_text (Constant.valid_of_apply hc)
  rw [← Constant.ofLiteral_text] at hread
  cases left with
  | literal text₁ type₁ =>
    cases right with
    | literal text₂ type₂ => exact ⟨_, _, _, _, _, _, a, b, c, rfl, rfl, rfl, ha, hb, hread⟩
    | _ => cases hb
  | _ => cases ha

theorem fold_of_some {op : BinaryOp} {left right e : Expr} (type : ValueType)
    (h : evaluate? op left.fold right.fold = some e) : (binary op left right type).fold = e := by
  rw [fold, h]
  rfl

theorem fold_of_none {op : BinaryOp} {left right : Expr} (type : ValueType)
    (h : evaluate? op left.fold right.fold = none) :
    (binary op left right type).fold = binary op left.fold right.fold type := by
  rw [fold, h]
  rfl

/-- A part of a folded expression is the folded part of the expression. A node that was folded to a
literal has no parts. -/
theorem child?_fold {e d : Expr} {i : Nat} (h : e.fold.child? i = some d) :
    ∃ b, e.child? i = some b ∧ b.fold = d := by
  cases e with
  | literal => cases h
  | var => cases h
  | element name type index =>
    rw [fold] at h
    cases i with
    | zero => exact ⟨index, rfl, Option.some.inj h⟩
    | succ => cases h
  | call name type args =>
    rw [fold, child?, getElem?_foldAll] at h
    exact Option.map_eq_some_iff.1 h
  | binary op left right type =>
    rw [fold] at h
    cases hv : evaluate? op left.fold right.fold with
    | some e =>
      rw [hv] at h
      obtain ⟨_, _, _, _, _, _, rfl⟩ := exists_of_evaluate? hv
      cases h
    | none =>
      rw [hv] at h
      match i with
      | 0 => exact ⟨left, rfl, Option.some.inj h⟩
      | 1 => exact ⟨right, rfl, Option.some.inj h⟩
      | _ + 2 => cases h
  | unary op operand type =>
    rw [fold] at h
    cases i with
    | zero => exact ⟨operand, rfl, Option.some.inj h⟩
    | succ => cases h

/-- What stands at a position of a folded expression is the folding of what stood there. -/
theorem at?_fold {path : List Nat} {e d : Expr} (h : e.fold.at? path = some d) :
    ∃ b, e.at? path = some b ∧ b.fold = d := by
  induction path generalizing e with
  | nil => exact ⟨e, rfl, Option.some.inj h⟩
  | cons i path ih =>
    obtain ⟨c, hc, hd⟩ := Option.bind_eq_some_iff.1 h
    obtain ⟨b, hb, rfl⟩ := child?_fold hc
    obtain ⟨a, ha, hfold⟩ := ih hd
    exact ⟨a, Option.bind_eq_some_iff.2 ⟨b, hb, ha⟩, hfold⟩

/-! ## Literals and constants -/

/-- A literal that the parser lets through is a valid constant. -/
theorem valid_of_isReadable {text : String} {type : ValueType} {c : Constant}
    (h : (literal text type).IsReadable) (hc : Constant.ofLiteral? text type = some c) :
    c.Valid := by
  obtain ⟨rfl, hnumber⟩ := h
  unfold Parse.isNumber at hnumber
  cases htype : ValueType.ofLiteral text with
  | integer =>
    rw [htype] at hc
    obtain ⟨i, hi, rfl⟩ := Option.map_eq_some_iff.1 hc
    exact Literal.inRange_of_integer? hi
  | real =>
    rw [htype] at hc hnumber
    obtain ⟨r, hr, rfl⟩ := Option.map_eq_some_iff.1 hc
    rw [hr] at hnumber
    exact hnumber

/-- A valid constant is written as a literal that the parser would let through. -/
theorem isReadable_ofLiteral_text {c : Constant} (h : c.Valid) :
    (ofLiteral c.text).IsReadable := by
  refine ⟨rfl, ?_⟩
  have hc := Constant.ofLiteral?_text h
  unfold Parse.isNumber
  rw [Constant.ofLiteral_text]
  cases c with
  | integer i =>
    obtain ⟨j, hj, -⟩ := Option.map_eq_some_iff.1 hc
    exact Option.isSome_iff_exists.2 ⟨j, hj⟩
  | real r =>
    obtain ⟨q, hq, heq⟩ := Option.map_eq_some_iff.1 hc
    cases heq
    exact (Option.any_eq_true _ _).2 ⟨r, hq, h⟩

/-! ## Soundness -/

/-- An operation has the type that follows from its operands, and a literal is one that a program
can write. -/
def IsSound (e : Expr) : Prop := e.HasDerivedType ∧ e.IsReadable

instance : DecidablePred IsSound := fun e =>
  inferInstanceAs (Decidable (e.HasDerivedType ∧ e.IsReadable))

/-- The literal that replaces an operation has its type and its value. -/
theorem evaluate?_sound {op : BinaryOp} {left right e : Expr} (hl : left.IsSound)
    (hr : right.IsSound) (h : evaluate? op left right = some e) :
    e.All IsSound ∧ e.type = op.resultType left.type right.type ∧
      ∀ env, e.eval env = (binary op left right e.type).eval env := by
  obtain ⟨a, b, c, ha, hb, hc, rfl⟩ := exists_of_evaluate? h
  cases left with
  | literal s type =>
    cases right with
    | literal t type' =>
      have hcomputes := Constant.computes_apply (valid_of_isReadable hl.2 ha)
        (valid_of_isReadable hr.2 hb) hc
      have htype : (ofLiteral c.text).type = c.type := Constant.ofLiteral_text c
      refine ⟨⟨trivial, isReadable_ofLiteral_text hcomputes.valid⟩, ?_, fun env => ?_⟩
      · rw [htype, hcomputes.type, Constant.type_of_ofLiteral? ha, Constant.type_of_ofLiteral? hb]
        rfl
      · have hvalue := hcomputes.value env
        rw [Constant.type_of_ofLiteral? ha, Constant.type_of_ofLiteral? hb] at hvalue
        have hword : (ofLiteral c.text).eval env = some c.word := by
          rw [ofLiteral, eval, Constant.ofLiteral_text]
          exact Constant.literalValue_eq (Constant.ofLiteral?_text hcomputes.valid)
        rw [hword, htype]
        simp only [eval, Constant.literalValue_eq ha, Constant.literalValue_eq hb,
          Option.bind_eq_bind, Option.bind_some]
        exact hvalue.symm
    | _ => cases hb
  | _ => cases ha

mutual

/-- Folding keeps the form of an expression, its type and its value. -/
theorem sound_fold : ∀ {e : Expr}, e.All IsSound →
    e.fold.All IsSound ∧ e.fold.type = e.type ∧ ∀ env, e.fold.eval env = e.eval env
  | literal .., h => ⟨h, rfl, fun _ => rfl⟩
  | var .., h => ⟨h, rfl, fun _ => rfl⟩
  | element name type index, h => by
    obtain ⟨hall, htype, heval⟩ := sound_fold h.2
    refine ⟨⟨⟨trivial, trivial⟩, hall⟩, rfl, fun env => ?_⟩
    rw [fold, eval, eval, htype, heval]
  | call name type args, h => by
    obtain ⟨hall, heval⟩ := sound_foldAll h.2
    refine ⟨⟨⟨trivial, trivial⟩, hall⟩, rfl, fun env => ?_⟩
    rw [fold, eval, eval, heval]
  | binary op left right type, h => by
    obtain ⟨hl, htypel, hevall⟩ := sound_fold h.2.1
    obtain ⟨hr, htyper, hevalr⟩ := sound_fold h.2.2
    have htype : type = op.resultType left.type right.type := h.1.1
    have heval (env : Env) : (binary op left.fold right.fold type).eval env =
        (binary op left right type).eval env := by
      rw [eval, eval, htypel, htyper, hevall, hevalr]
    rw [fold]
    cases hv : evaluate? op left.fold right.fold with
    | none =>
      refine ⟨⟨⟨?_, trivial⟩, hl, hr⟩, rfl, heval⟩
      show type = op.resultType left.fold.type right.fold.type
      rw [htypel, htyper, htype]
    | some e =>
      obtain ⟨hsound, hresult, hvalue⟩ := evaluate?_sound hl.self hr.self hv
      rw [htypel, htyper, ← htype] at hresult
      refine ⟨hsound, hresult, fun env => ?_⟩
      rw [Option.getD_some, hvalue, hresult, heval]
  | unary op operand type, h => by
    obtain ⟨hall, htype, heval⟩ := sound_fold h.2
    refine ⟨⟨⟨?_, trivial⟩, hall⟩, rfl, fun env => ?_⟩
    · show type = op.resultType operand.fold.type
      rw [htype]
      exact h.1.1
    · rw [fold, eval, eval, htype, heval]

/-- Folding keeps arguments sound, and their values. -/
theorem sound_foldAll : ∀ {es : List Expr}, AllOf IsSound es →
    AllOf IsSound (foldAll es) ∧ ∀ env, evalAll env (foldAll es) = evalAll env es
  | [], _ => ⟨trivial, fun _ => rfl⟩
  | e :: es, h => by
    obtain ⟨hall, htype, heval⟩ := sound_fold h.1
    obtain ⟨halls, hevals⟩ := sound_foldAll h.2
    refine ⟨⟨hall, halls⟩, fun env => ?_⟩
    rw [foldAll, evalAll, evalAll, htype, heval, hevals]

end

/-! ## What stands at a position -/

/-- The two expressions are the same node, up to operands and arguments, or the first is an
operation of two operands and the second a literal. -/
def SameNode : Expr → Expr → Prop
  | literal a s, literal b t => a = b ∧ s = t
  | var a s, var b t => a = b ∧ s = t
  | element a s _, element b t _ => a = b ∧ s = t
  | call a s xs, call b t ys => a = b ∧ s = t ∧ xs.length = ys.length
  | binary o _ _ s, binary p _ _ t => o = p ∧ s = t
  | binary _ _ _ _, literal _ _ => True
  | unary o _ s, unary p _ t => o = p ∧ s = t
  | _, _ => False

/-- Every position of `e'` is one of `e`, with the same node or the literal of an operation, of the
same type, and with the same value or none in every environment. -/
def Preserves (e e' : Expr) : Prop :=
  ∀ path d', e'.at? path = some d' → ∃ d, e.at? path = some d ∧ d.SameNode d' ∧ d'.type = d.type ∧
    ∀ env, d'.eval env = d.eval env

/-- Folding keeps the kind of a node, or makes a literal of an operation. -/
theorem sameNode_fold (e : Expr) : e.SameNode e.fold := by
  cases e with
  | binary op left right type =>
    rw [fold]
    cases hv : evaluate? op left.fold right.fold with
    | none => exact ⟨rfl, rfl⟩
    | some e =>
      obtain ⟨_, _, _, _, _, _, rfl⟩ := exists_of_evaluate? hv
      trivial
  | call name type args => exact ⟨rfl, rfl, (length_foldAll args).symm⟩
  | _ => exact ⟨rfl, rfl⟩

/-- A sound expression is preserved by folding it. -/
theorem preserves_fold {e : Expr} (h : e.All IsSound) : Preserves e e.fold := by
  intro path d' hd'
  obtain ⟨d, hd, rfl⟩ := at?_fold hd'
  obtain ⟨-, htype, heval⟩ := sound_fold (h.at hd)
  exact ⟨d, hd, sameNode_fold d, htype, heval⟩

end PascalMips.Expr
