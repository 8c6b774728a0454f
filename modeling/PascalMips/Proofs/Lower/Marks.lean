import PascalMips.Proofs.Lower.Basic
import PascalMips.Statement.Lower

/-!
# What lowered code is marked with

Apart from registers, code needs three things that may be missing: the value of a literal, the place
of a name, and a subprogram to call that takes its arguments in registers. The needs of an
expression or a statement are listed in `needs`, and every mark in its code but that for missing
registers stands for one of them that is not met (`Statement.marks_lowerAll`).
-/

namespace PascalMips

/-- Something that code cannot do without. -/
inductive Need where
  | number (text : String) (type : ValueType)
  | place (name : String)
  | call (name : String) (count : Nat)

/-- The need is not met in the context, and this is how code is marked then. -/
inductive Need.Marks (ctx : Context) : Need → Diagnostic → Prop
  | integer {text : String} (h : Literal.integer? text = none) :
      Marks ctx (.number text .integer) (.notInteger text)
  | real {text : String} (h : Literal.real? text = none) :
      Marks ctx (.number text .real) (.notReal text)
  | name {x : String} (h : ctx.symbols.lookup? x = none) : Marks ctx (.place x) (.undeclared x)
  | place {x : String} {symbol : Symbol} (h : ctx.symbols.lookup? x = some symbol)
      (hplace : ctx.storage.get? symbol.id = none) :
      Marks ctx (.place x) (Lower.unreachable symbol)
  | routine {x : String} {count : Nat} (h : ctx.symbols.lookupWithDepth? x = none) :
      Marks ctx (.call x count) (.undeclared x)
  | arguments {x : String} {count : Nat} (h : Reg.arguments.length < count) :
      Marks ctx (.call x count) (.tooManyArguments x count)

/-- The diagnostics of code are those that its lines are marked with. -/
theorem mem_diagnosticsOf {d : Diagnostic} {lines : List Line} :
    d ∈ diagnosticsOf lines ↔ .mark d ∈ lines := by
  unfold diagnosticsOf
  rw [List.mem_filterMap]
  constructor
  · rintro ⟨line, hline, hd⟩
    cases line with
    | mark e =>
      obtain rfl := Option.some.inj hd
      exact hline
    | _ => cases hd
  · exact fun h => ⟨_, h, rfl⟩

/-! ## Needs of expressions and statements -/

namespace Expr

mutual

def needs : Expr → List Need
  | literal text type => [.number text type]
  | var name _ => [.place name]
  | element name _ index => .place name :: index.needs
  | call name _ args => .call name args.length :: needsAll args
  | binary _ left right _ => left.needs ++ right.needs
  | unary _ operand _ => operand.needs

def needsAll : List Expr → List Need
  | [] => []
  | e :: es => e.needs ++ needsAll es

end

end Expr

def Target.needs : Target → List Need
  | var name _ => [.place name]
  | element name _ index => .place name :: index.needs

namespace Statement

mutual

def needs : Statement → List Need
  | assign target value => value.needs ++ target.needs
  | compound body => needsAll body
  | branch test yes no => test.needs ++ (yes.needs ++ no.needs)
  | loop test body => test.needs ++ body.needs
  | call name args => .call name args.length :: Expr.needsAll args
  | read target => target.needs
  | write value => value.needs

def needsAll : List Statement → List Need
  | [] => []
  | s :: ss => s.needs ++ needsAll ss

end

end Statement

/-! ## Code and its marks -/

namespace Lower

variable {α β : Type} {ctx : Context} {needs : List Need}

/-- In the context `ctx` every mark in the code stands for a missing register or for one of `needs`
that is not met. -/
def MarksFor (ctx : Context) (needs : List Need) (x : Lower α) : Prop :=
  ∀ c d, .mark d ∈ (x ctx c).lines → d = .outOfRegisters ∨ ∃ need ∈ needs, need.Marks ctx d

theorem marks_pure (a : α) : MarksFor ctx needs (pure a) := fun _ _ hd => nomatch hd

/-- One piece of code after the other has the marks of both. -/
theorem marks_bind {x : Lower α} {f : α → Lower β} (hx : MarksFor ctx needs x)
    (hf : ∀ a, MarksFor ctx needs (f a)) : MarksFor ctx needs (x >>= f) := by
  intro c d hd
  rcases List.mem_append.1 hd with hd | hd
  · exact hx c d hd
  · exact hf _ _ d hd

theorem marks_emit (i : Instr) : MarksFor ctx needs (emit i) := by
  intro c d hd
  cases List.mem_singleton.1 hd

theorem marks_label (l : Label) : MarksFor ctx needs (label l) := by
  intro c d hd
  cases List.mem_singleton.1 hd

/-- A mark for a need that is not met is one of those allowed. -/
theorem marks_diagnose {d : Diagnostic} {need : Need} (hneed : need ∈ needs)
    (h : need.Marks ctx d) : MarksFor ctx needs (diagnose d) := by
  intro c e he
  cases List.mem_singleton.1 he
  exact .inr ⟨need, hneed, h⟩

theorem marks_cursor : MarksFor ctx needs cursor := fun _ _ hd => nomatch hd

theorem marks_take (count : Nat) : MarksFor ctx needs (take count) := fun _ _ hd => nomatch hd

theorem marks_release (count : Nat) : MarksFor ctx needs (release count) := fun _ _ hd => nomatch hd

theorem marks_nextIf : MarksFor ctx needs nextIf := fun _ _ hd => nomatch hd

theorem marks_nextLoop : MarksFor ctx needs nextLoop := fun _ _ hd => nomatch hd

/-- Registers are the one thing that may be missing without being a need. -/
theorem marks_register (i : Nat) : MarksFor ctx needs (register i) := by
  intro c d hd
  exact .inl (mark_mem_register.1 hd).1

/-- A name is marked if it is not found, or if what is found has no place here. -/
theorem marks_locate {name : String} (hneed : .place name ∈ needs) :
    MarksFor ctx needs (locate name) := by
  intro c d hd
  simp only [locate, bind_apply, find?] at hd
  cases hs : ctx.symbols.lookup? name with
  | none =>
    rw [hs] at hd
    cases List.mem_singleton.1 hd
    exact .inr ⟨_, hneed, .name hs⟩
  | some symbol =>
    cases hp : ctx.storage.get? symbol.id with
    | none =>
      rw [hs, Option.map_some, hp] at hd
      cases List.mem_singleton.1 hd
      exact .inr ⟨_, hneed, .place hs hp⟩
    | some storage =>
      rw [hs, Option.map_some, hp] at hd
      cases hd

/-! ### Values and elements -/

theorem marks_convert (reg : Reg) (s t : ValueType) : MarksFor ctx needs (convert reg s t) := by
  cases s <;> cases t
  · exact marks_pure ()
  · exact marks_bind (marks_emit _) fun _ => marks_bind (marks_emit _) fun _ => marks_emit _
  · exact marks_bind (marks_emit _) fun _ => marks_bind (marks_emit _) fun _ => marks_emit _
  · exact marks_pure ()

theorem marks_floatOperands (a b : Reg) (s t : ValueType) :
    MarksFor ctx needs (floatOperands a s b t) := by
  have hoperand (reg : Reg) (type : ValueType) (f : FReg) :
      MarksFor ctx needs (floatOperand reg type f) := by
    refine marks_bind (marks_emit _) fun _ => ?_
    cases type with
    | integer => exact marks_emit _
    | real => exact marks_pure ()
  exact marks_bind (hoperand _ _ _) fun _ => hoperand _ _ _

/-- A literal is marked if it is no number of its type. -/
theorem marks_literal {text : String} {type : ValueType} (hneed : .number text type ∈ needs) :
    MarksFor ctx needs (literal text type) := by
  refine marks_bind marks_cursor fun _ => marks_bind (marks_register _) fun _ => ?_
  cases type with
  | integer =>
    dsimp only
    split
    · exact marks_emit _
    · next hnone => exact marks_diagnose hneed (.integer hnone)
  | real =>
    dsimp only
    split
    · exact marks_emit _
    · next hnone => exact marks_diagnose hneed (.real hnone)

theorem marks_variableValue {name : String} (hneed : .place name ∈ needs) :
    MarksFor ctx needs (variableValue name) := by
  refine marks_bind marks_cursor fun _ => marks_bind (marks_register _) fun _ =>
    marks_bind (marks_locate hneed) fun found => ?_
  cases found with
  | some place => exact marks_emit _
  | none => exact marks_pure ()

theorem marks_elementOffset (reg : Reg) (lo : Int) : MarksFor ctx needs (elementOffset reg lo) := by
  unfold elementOffset
  split
  · exact marks_emit _
  · split
    · exact marks_emit _
    · exact marks_bind (marks_emit _) fun _ => marks_emit _

theorem marks_addPlace (place : Storage) : MarksFor ctx needs (addPlace place) := by
  cases place with
  | global label => exact marks_bind (marks_emit _) fun _ => marks_emit _
  | stack offset =>
    refine marks_bind (marks_emit _) fun _ => ?_
    split
    · exact marks_pure ()
    · exact marks_emit _

/-- An element needs its array and what its index needs. -/
theorem marks_elementAddress {name : String} {type : ValueType} {index : Lower Unit}
    (hneed : .place name ∈ needs) (h : MarksFor ctx needs index) :
    MarksFor ctx needs (elementAddress name type index) := by
  refine marks_bind (marks_take _) fun _ => marks_bind h fun _ => marks_bind marks_cursor fun _ =>
    marks_bind (marks_register _) fun _ => marks_bind (marks_release _) fun _ =>
      marks_bind (marks_convert _ _ _) fun _ => marks_bind (marks_locate hneed) fun found => ?_
  cases found with
  | none => exact marks_pure false
  | some place =>
    exact marks_bind (marks_elementOffset _ _) fun _ => marks_bind (marks_emit _) fun _ =>
      marks_bind (marks_addPlace _) fun _ => marks_pure true

/-- An access to an element, if its address was found. -/
theorem marks_touch {name : String} {type : ValueType} {index : Lower Unit}
    (hneed : .place name ∈ needs) (h : MarksFor ctx needs index) (i : Instr) :
    MarksFor ctx needs
      (elementAddress name type index >>= fun found => if found then emit i else pure ()) := by
  refine marks_bind (marks_elementAddress hneed h) fun found => ?_
  split
  · exact marks_emit i
  · exact marks_pure ()

/-! ### Operations and calls -/

theorem marks_operands {left right : Lower Unit} (hl : MarksFor ctx needs left)
    (hr : MarksFor ctx needs right) : MarksFor ctx needs (operands left right) :=
  marks_bind (marks_take _) fun _ => marks_bind hl fun _ => marks_bind (marks_take _) fun _ =>
    marks_bind hr fun _ => marks_release _

theorem marks_arithmetic {integer : Lower Unit} (h : MarksFor ctx needs integer) (op : FloatOp)
    (type : ValueType) (destination a b : Reg) (s t : ValueType) :
    MarksFor ctx needs (arithmetic integer op type destination a b s t) := by
  cases type with
  | integer => exact h
  | real =>
    exact marks_bind (marks_floatOperands _ _ _ _) fun _ => marks_bind (marks_emit _) fun _ =>
      marks_emit _

theorem marks_integerOperands (a b : Reg) (s t : ValueType) :
    MarksFor ctx needs (integerOperands a s b t) :=
  marks_bind (marks_convert _ _ _) fun _ => marks_convert _ _ _

theorem marks_compare (relation : Relation) (destination a b : Reg) (s t : ValueType) :
    MarksFor ctx needs (compare relation destination a b s t) := by
  unfold compare
  split
  · exact marks_emit _
  · exact marks_bind (marks_floatOperands _ _ _ _) fun _ => marks_bind (marks_emit _) fun _ =>
      marks_bind (marks_emit _) fun _ => marks_emit _

/-- Operators need nothing but registers. -/
theorem marks_apply (op : BinaryOp) (type : ValueType) (destination a b : Reg) (s t : ValueType) :
    MarksFor ctx needs (apply op type destination a b s t) := by
  have hpair (i j : Instr) : MarksFor ctx needs (emit i >>= fun _ => emit j) :=
    marks_bind (marks_emit i) fun _ => marks_emit j
  cases op with
  | rel relation => exact marks_compare _ _ _ _ _ _
  | and => exact marks_bind (marks_integerOperands _ _ _ _) fun _ => marks_emit _
  | or => exact marks_bind (marks_integerOperands _ _ _ _) fun _ => marks_emit _
  | div => exact marks_bind (marks_integerOperands _ _ _ _) fun _ => hpair _ _
  | mod => exact marks_bind (marks_integerOperands _ _ _ _) fun _ => hpair _ _
  | add => exact marks_arithmetic (marks_emit _) _ _ _ _ _ _ _
  | sub => exact marks_arithmetic (marks_emit _) _ _ _ _ _ _ _
  | mul => exact marks_arithmetic (hpair _ _) _ _ _ _ _ _ _
  | divide => exact marks_arithmetic (hpair _ _) _ _ _ _ _ _ _

theorem marks_binary {left right : Lower Unit} (hl : MarksFor ctx needs left)
    (hr : MarksFor ctx needs right) (op : BinaryOp) (type s t : ValueType) :
    MarksFor ctx needs (binary op type s t left right) :=
  marks_bind marks_cursor fun _ => marks_bind (marks_operands hl hr) fun _ =>
    marks_bind (marks_register _) fun _ => marks_bind (marks_register _) fun _ =>
      marks_bind (marks_register _) fun _ => marks_apply _ _ _ _ _ _ _

theorem marks_unary {operand : Lower Unit} (h : MarksFor ctx needs operand) (op : UnaryOp)
    (type t : ValueType) : MarksFor ctx needs (unary op type t operand) := by
  refine marks_bind marks_cursor fun _ => marks_bind (marks_take _) fun _ => marks_bind h fun _ =>
    marks_bind (marks_release _) fun _ => marks_bind (marks_register _) fun _ =>
      marks_bind (marks_register _) fun _ => ?_
  split
  · exact marks_emit _
  · exact marks_bind (marks_emit _) fun _ => marks_bind (marks_emit _) fun _ => marks_emit _
  · exact marks_bind (marks_convert _ _ _) fun _ => marks_emit _

theorem marks_passArguments (targets : List Reg) (index : Nat) :
    MarksFor ctx needs (passArguments index targets) := by
  induction targets generalizing index with
  | nil => exact marks_pure ()
  | cons target targets ih =>
    exact marks_bind (marks_register _) fun _ => marks_bind (marks_emit _) fun _ => ih _

/-- After the look-up of a subprogram, the code for a name that is not found may use that. -/
theorem marks_routine {name : String} {f : Option (Label × List ValueType) → Lower β}
    (hnone : ctx.symbols.lookupWithDepth? name = none → MarksFor ctx needs (f none))
    (hsome : ∀ found, MarksFor ctx needs (f (some found))) :
    MarksFor ctx needs (routine? name >>= f) := by
  intro c d hd
  rw [bind_apply] at hd
  simp only [routine?, List.nil_append] at hd
  cases hfind : ctx.symbols.lookupWithDepth? name with
  | none =>
    rw [hfind] at hd
    exact hnone hfind c d hd
  | some found =>
    rw [hfind] at hd
    exact hsome _ c d hd

/-- A call is marked if the name is not found or the arguments do not fit into registers. -/
theorem marks_call {name : String} {count : Nat} {arguments : List ValueType → Lower Unit}
    (hneed : .call name count ∈ needs) (h : ∀ params, MarksFor ctx needs (arguments params)) :
    MarksFor ctx needs (call name count arguments) := by
  refine marks_routine (fun hnone => ?_) fun found => ?_
  · exact marks_bind (marks_diagnose hneed (.routine hnone)) fun _ => marks_pure false
  · dsimp only
    split
    · next hcount =>
      exact marks_bind (marks_diagnose hneed (.arguments hcount)) fun _ => marks_pure false
    · exact marks_bind marks_cursor fun _ => marks_bind (h _) fun _ =>
        marks_bind (marks_passArguments _ _) fun _ => marks_bind (marks_release _) fun _ =>
          marks_bind (marks_emit _) fun _ => marks_pure true

theorem marks_callValue {name : String} {count : Nat} {arguments : List ValueType → Lower Unit}
    (hneed : .call name count ∈ needs) (h : ∀ params, MarksFor ctx needs (arguments params)) :
    MarksFor ctx needs (callValue name count arguments) := by
  refine marks_bind (marks_call hneed h) fun called => ?_
  split
  · exact marks_bind marks_cursor fun _ => marks_bind (marks_register _) fun _ => marks_emit _
  · exact marks_pure ()

end Lower

/-! ## Expressions -/

namespace Expr

open Lower

variable {ctx : Context} {needs : List Need}

mutual

/-- Every mark in the code of an expression stands for one of its needs or for a register, by
induction over expressions. -/
theorem marks_lower : ∀ {e : Expr}, e.needs ⊆ needs → MarksFor ctx needs e.lower
  | literal text type, h => marks_literal (h List.mem_cons_self)
  | var name _, h => marks_variableValue (h List.mem_cons_self)
  | element name _ index, h => by
    rw [Expr.needs, List.cons_subset] at h
    exact marks_bind marks_cursor fun _ => marks_bind (marks_register _) fun _ =>
      marks_touch h.1 (marks_lower h.2) _
  | call name _ args, h => by
    rw [Expr.needs, List.cons_subset] at h
    exact marks_callValue h.1 fun params => marks_lowerArgs h.2 params
  | binary op left right type, h => by
    rw [Expr.needs, List.append_subset] at h
    exact marks_binary (marks_lower h.1) (marks_lower h.2) _ _ _ _
  | unary op operand type, h => by
    rw [Expr.needs] at h
    exact marks_unary (marks_lower h) _ _ _

/-- So does every mark in the code of arguments, whatever their parameters are. -/
theorem marks_lowerArgs : ∀ {es : List Expr}, needsAll es ⊆ needs → ∀ params,
    MarksFor ctx needs (lowerArgs es params)
  | [], _, _ => marks_pure ()
  | _ :: _, _, [] => marks_pure ()
  | e :: es, h, param :: params => by
    rw [needsAll, List.append_subset] at h
    exact marks_bind (marks_take _) fun _ => marks_bind (marks_lower h.1) fun _ =>
      marks_bind marks_cursor fun _ => marks_bind (marks_register _) fun _ =>
        marks_bind (marks_convert _ _ _) fun _ => marks_lowerArgs h.2 params

end

end Expr

/-! ## Statements -/

namespace Lower

variable {ctx : Context} {needs : List Need}

theorem marks_callService (service : Service) : MarksFor ctx needs (callService service) :=
  marks_bind (marks_emit _) fun _ => marks_emit _

/-- A place needs its name, and what its index needs. -/
theorem marks_store {target : Target} (h : target.needs ⊆ needs) (source : Reg) :
    MarksFor ctx needs (store target source) := by
  cases target with
  | var name type =>
    refine marks_bind (marks_locate (h List.mem_cons_self)) fun found => ?_
    cases found with
    | some place => exact marks_emit _
    | none => exact marks_pure ()
  | element name type index =>
    rw [Target.needs, List.cons_subset] at h
    exact marks_touch h.1 (Expr.marks_lower h.2) _

/-- A test needs what it is made of. A comparison is lowered without its operator, whose operands
need the same. -/
theorem marks_branchUnless {test : Expr} (h : test.needs ⊆ needs) (label : Label) :
    MarksFor ctx needs (branchUnless test label) := by
  unfold branchUnless
  split
  · rw [Expr.needs, List.append_subset] at h
    refine marks_bind marks_cursor fun _ =>
      marks_bind (marks_operands (Expr.marks_lower h.1) (Expr.marks_lower h.2)) fun _ =>
        marks_bind (marks_register _) fun _ => marks_bind (marks_register _) fun _ => ?_
    split
    · exact marks_emit _
    · exact marks_bind (marks_floatOperands _ _ _ _) fun _ => marks_bind (marks_emit _) fun _ =>
        marks_emit _
  · exact marks_bind (Expr.marks_lower h) fun _ => marks_bind marks_cursor fun _ =>
      marks_bind (marks_register _) fun _ => marks_bind (marks_convert _ _ _) fun _ =>
        marks_bind (marks_emit _) fun _ => marks_emit _

theorem marks_read {target : Target} (h : target.needs ⊆ needs) :
    MarksFor ctx needs (read target) := by
  refine marks_bind marks_cursor fun _ => marks_bind (marks_register _) fun _ => ?_
  split
  · exact marks_bind (marks_callService _) fun _ => marks_bind (marks_emit _) fun _ =>
      marks_store h _
  · exact marks_bind (marks_callService _) fun _ => marks_bind (marks_emit _) fun _ =>
      marks_store h _

theorem marks_write {value : Expr} (h : value.needs ⊆ needs) : MarksFor ctx needs (write value) := by
  have hprint (reg : Reg) (type : ValueType) : MarksFor ctx needs (printValue reg type) := by
    cases type with
    | integer => exact marks_bind (marks_emit _) fun _ => marks_callService _
    | real => exact marks_bind (marks_emit _) fun _ => marks_callService _
  exact marks_bind (Expr.marks_lower h) fun _ => marks_bind marks_cursor fun _ =>
    marks_bind (marks_register _) fun _ => marks_bind (hprint _ _) fun _ =>
      marks_bind (marks_emit _) fun _ => marks_callService _

end Lower

namespace Statement

open Lower

variable {ctx : Context} {needs : List Need}

mutual

/-- Every mark in the code of a statement stands for one of its needs or for a register. -/
theorem marks_lower : ∀ {s : Statement}, s.needs ⊆ needs → MarksFor ctx needs s.lower
  | assign target value, h => by
    rw [Statement.needs, List.append_subset] at h
    exact marks_bind (Expr.marks_lower h.1) fun _ => marks_bind marks_cursor fun _ =>
      marks_bind (marks_register _) fun _ => marks_bind (marks_convert _ _ _) fun _ =>
        marks_store h.2 _
  | compound body, h => by
    rw [Statement.needs] at h
    exact marks_lowerAll h
  | branch test yes no, h => by
    rw [Statement.needs, List.append_subset, List.append_subset] at h
    exact marks_bind marks_nextIf fun _ => marks_bind (marks_branchUnless h.1 _) fun _ =>
      marks_bind (marks_lower h.2.1) fun _ => marks_bind (marks_emit _) fun _ =>
        marks_bind (marks_label _) fun _ => marks_bind (marks_lower h.2.2) fun _ => marks_label _
  | loop test body, h => by
    rw [Statement.needs, List.append_subset] at h
    exact marks_bind marks_nextLoop fun _ => marks_bind (marks_label _) fun _ =>
      marks_bind (marks_branchUnless h.1 _) fun _ => marks_bind (marks_lower h.2) fun _ =>
        marks_bind (marks_emit _) fun _ => marks_label _
  | call name args, h => by
    rw [Statement.needs, List.cons_subset] at h
    exact marks_bind (marks_call h.1 fun params => Expr.marks_lowerArgs h.2 params) fun _ =>
      marks_pure ()
  | read target, h => marks_read h
  | write value, h => marks_write h

theorem marks_lowerAll : ∀ {ss : List Statement}, needsAll ss ⊆ needs →
    MarksFor ctx needs (lowerAll ss)
  | [], _ => marks_pure ()
  | s :: ss, h => by
    rw [needsAll, List.append_subset] at h
    exact marks_bind (marks_lower h.1) fun _ => marks_lowerAll h.2

end

end Statement

end PascalMips
