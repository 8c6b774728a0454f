import PascalMips.Proofs.Lower.Cursor

/-!
# Code with fewer diagnostics

Two pieces of code side by side. One is milder than the other if it comes to the same value and the
same counters and its diagnostics are some of those of the other, in their order. Instructions do
not matter for this, so code that only writes instructions can be exchanged freely (`Quiet`). Each
construct of expressions and statements is milder if its parts are, whatever the types are that it
converts between.
-/

namespace PascalMips

@[simp] theorem diagnosticsOf_append (xs ys : List Line) :
    diagnosticsOf (xs ++ ys) = diagnosticsOf xs ++ diagnosticsOf ys := List.filterMap_append

@[simp] theorem diagnosticsOf_label_cons (l : Label) (xs : List Line) :
    diagnosticsOf (.label l :: xs) = diagnosticsOf xs := rfl

/-- The same comes of `y` as of `x`, and the marks of `y` are some of the marks of `x`, in their
order. -/
structure Lowered.Milder {α : Type} (y x : Lowered α) : Prop where
  value : y.value = x.value
  counters : y.counters = x.counters
  marks : (diagnosticsOf y.lines).Sublist (diagnosticsOf x.lines)

theorem Lowered.Milder.refl {α : Type} (x : Lowered α) : x.Milder x := ⟨rfl, rfl, .refl _⟩

theorem Lowered.Milder.trans {α : Type} {x y z : Lowered α} (h : z.Milder y) (h' : y.Milder x) :
    z.Milder x :=
  ⟨h.value.trans h'.value, h.counters.trans h'.counters, h.marks.trans h'.marks⟩

namespace Lower

variable {α β : Type}

/-- Wherever the code is written, `y` is milder than `x`. -/
def Milder (y x : Lower α) : Prop := ∀ ctx c, (y ctx c).Milder (x ctx c)

theorem Milder.refl (x : Lower α) : Milder x x := fun _ _ => .refl _

theorem Milder.trans {x y z : Lower α} (h : Milder z y) (h' : Milder y x) : Milder z x :=
  fun ctx c => (h ctx c).trans (h' ctx c)

/-- A sequence whose parts are milder where they are written. -/
theorem milder_bind_apply {x y : Lower α} {f g : α → Lower β} {ctx : Context} {c : Counters}
    (h : (y ctx c).Milder (x ctx c))
    (hf : (g (x ctx c).value ctx (x ctx c).counters).Milder
      (f (x ctx c).value ctx (x ctx c).counters)) :
    ((y >>= g) ctx c).Milder ((x >>= f) ctx c) := by
  rw [bind_apply, bind_apply, h.value, h.counters]
  refine ⟨hf.value, hf.counters, ?_⟩
  simp only [diagnosticsOf_append]
  exact h.marks.append hf.marks

/-- One piece of code after the other: both parts may be exchanged for milder ones, since values and
counters are the same. -/
theorem Milder.bind {x y : Lower α} {f g : α → Lower β} (h : Milder y x)
    (hf : ∀ a, Milder (g a) (f a)) : Milder (y >>= g) (x >>= f) :=
  fun ctx c => milder_bind_apply (h ctx c) (hf _ _ _)

/-- A sequence with the same first part. -/
theorem Milder.after (x : Lower α) {f g : α → Lower β} (hf : ∀ a, Milder (g a) (f a)) :
    Milder (x >>= g) (x >>= f) :=
  (Milder.refl x).bind hf

/-- A choice of milder code is milder. -/
theorem milder_ite {p : Prop} [Decidable p] {x x' y y' : Lower α} (hx : Milder x' x)
    (hy : Milder y' y) : Milder (if p then x' else y') (if p then x else y) := by
  by_cases hp : p
  · rw [if_pos hp, if_pos hp]
    exact hx
  · rw [if_neg hp, if_neg hp]
    exact hy

/-! ## Code without marks -/

/-- The code leaves the counters alone and has no marks. -/
structure Quiet (x : Lower Unit) : Prop where
  still : Still x
  marks : ∀ ctx c, diagnosticsOf (x ctx c).lines = []

theorem Quiet.milder {x y : Lower Unit} (hy : Quiet y) (hx : Quiet x) : Milder y x := by
  intro ctx c
  have hmarks := (hy.marks ctx c).trans (hx.marks ctx c).symm
  exact ⟨rfl, (hy.still ctx c).trans (hx.still ctx c).symm, hmarks ▸ .refl _⟩

theorem quiet_emit (i : Instr) : Quiet (emit i) := ⟨still_emit i, fun _ _ => rfl⟩

/-- Quiet code, one piece after the other, is quiet. -/
theorem Quiet.bind {x : Lower Unit} {f : Unit → Lower Unit} (hx : Quiet x)
    (hf : ∀ a, Quiet (f a)) : Quiet (x >>= f) := by
  refine ⟨hx.still.bind fun a => (hf a).still, fun ctx c => ?_⟩
  rw [bind_apply, diagnosticsOf_append, hx.marks, (hf _).marks]
  rfl

theorem quiet_convert (r : Reg) (s t : ValueType) : Quiet (convert r s t) :=
  ⟨still_convert r s t, fun _ _ => by cases s <;> cases t <;> rfl⟩

theorem quiet_floatOperands (a b : Reg) (s t : ValueType) : Quiet (floatOperands a s b t) :=
  ⟨still_floatOperands a b s t, fun _ _ => by cases s <;> cases t <;> rfl⟩

theorem quiet_apply (op : BinaryOp) (type : ValueType) (d a b : Reg) (s t : ValueType) :
    Quiet (apply op type d a b s t) :=
  ⟨still_apply op type d a b s t,
    fun _ _ => by cases op <;> cases type <;> cases s <;> cases t <;> rfl⟩

theorem quiet_printValue (r : Reg) (t : ValueType) : Quiet (printValue r t) := by
  cases t with
  | integer => exact (quiet_emit _).bind fun _ => (quiet_emit _).bind fun _ => quiet_emit _
  | real => exact (quiet_emit _).bind fun _ => (quiet_emit _).bind fun _ => quiet_emit _

/-! ## Expressions -/

variable {left left' right right' index index' operand operand' : Lower Unit}

/-- The address of an element is milder if its index is. The type of the index decides on a
conversion only, which is quiet. -/
theorem milder_elementAddress (name : String) (s s' : ValueType) (h : Milder index' index) :
    Milder (elementAddress name s' index') (elementAddress name s index) := by
  refine .after _ fun _ => h.bind fun _ => .after _ fun _ => .after _ fun r => .after _ fun _ => ?_
  exact ((quiet_convert r s' .integer).milder (quiet_convert r s .integer)).bind fun _ => .refl _

theorem milder_elementValue (name : String) (s s' : ValueType) (h : Milder index' index) :
    Milder (elementValue name s' index') (elementValue name s index) :=
  .after _ fun _ => .after _ fun _ => (milder_elementAddress name s s' h).bind fun _ => .refl _

theorem milder_operands (hl : Milder left' left) (hr : Milder right' right) :
    Milder (operands left' right') (operands left right) :=
  .after _ fun _ => hl.bind fun _ => .after _ fun _ => hr.bind fun _ => .refl _

/-- An operation is milder if its operands are, whatever types they have. -/
theorem milder_binary (op : BinaryOp) (type s s' t t' : ValueType) (hl : Milder left' left)
    (hr : Milder right' right) :
    Milder (binary op type s' t' left' right') (binary op type s t left right) :=
  .after _ fun _ => (milder_operands hl hr).bind fun _ => .after _ fun _ => .after _ fun _ =>
    .after _ fun _ => (quiet_apply ..).milder (quiet_apply ..)

theorem milder_unary (op : UnaryOp) (type s s' : ValueType) (h : Milder operand' operand) :
    Milder (unary op type s' operand') (unary op type s operand) := by
  refine .after _ fun _ => .after _ fun _ => h.bind fun _ => .after _ fun _ => .after _ fun _ =>
    .after _ fun r => ?_
  cases op with
  | neg => cases type <;> exact .refl _
  | not =>
    exact ((quiet_convert r s' .integer).milder (quiet_convert r s .integer)).bind fun _ => .refl _

/-- A call is milder if its arguments are. The look-up of the name is the same for both. -/
theorem milder_call (name : String) (count : Nat) {args args' : List ValueType → Lower Unit}
    (h : ∀ params, Milder (args' params) (args params)) :
    Milder (call name count args') (call name count args) := by
  refine .after _ fun found => ?_
  cases found with
  | none => exact .refl _
  | some callee =>
    exact milder_ite (.refl _) (.after _ fun _ => (h callee.2).bind fun _ => .refl _)

theorem milder_callValue (name : String) (count : Nat) {args args' : List ValueType → Lower Unit}
    (h : ∀ params, Milder (args' params) (args params)) :
    Milder (callValue name count args') (callValue name count args) :=
  (milder_call name count h).bind fun _ => .refl _

/-! ## Statements -/

variable {e e' l l' r r' : Expr}

theorem milder_valueUnless (label : Label) (h : Milder e'.lower e.lower) :
    Milder (valueUnless e' label) (valueUnless e label) :=
  h.bind fun _ => .after _ fun _ => .after _ fun reg =>
    ((quiet_convert reg e'.type .integer).milder (quiet_convert reg e.type .integer)).bind
      fun _ => .refl _

/-- A test that compares is milder if its sides are. Integers and reals are compared by different
instructions, and none of them is marked. -/
theorem milder_compareUnless (relation : Relation) (label : Label) (hl : Milder l'.lower l.lower)
    (hr : Milder r'.lower r.lower) :
    Milder (compareUnless relation l' r' label) (compareUnless relation l r label) := by
  refine .after _ fun _ => (milder_operands hl hr).bind fun _ => .after _ fun a =>
    .after _ fun b => ?_
  have hfloat (s t : ValueType) : Quiet (floatOperands a s b t >>= fun _ =>
      emit (.compare (floatTest relation).1 .f0 .f1) >>= fun _ =>
        emit (.branchIf (!(floatTest relation).2) label)) :=
    (quiet_floatOperands a b s t).bind fun _ => (quiet_emit _).bind fun _ => quiet_emit _
  refine Quiet.milder ?_ ?_
  · cases l'.type.widen r'.type with
    | integer => exact quiet_emit _
    | real => exact hfloat _ _
  · cases l.type.widen r.type with
    | integer => exact quiet_emit _
    | real => exact hfloat _ _

theorem milder_write (h : Milder e'.lower e.lower) : Milder (write e') (write e) :=
  h.bind fun _ => .after _ fun _ => .after _ fun _ =>
    ((quiet_printValue _ _).milder (quiet_printValue _ _)).bind fun _ => .refl _

end Lower

end PascalMips
