import PascalMips.Proofs.Lower.Basic
import PascalMips.Statement.Lower

/-!
# Where lowering moves the counters

Most steps of lowering leave the counters alone (`Still`). The others evaluate operands, an index or
arguments above the cursor and give the registers back afterwards: two, one, or as many as there are
arguments.
-/

namespace PascalMips

/-- The label and the parameters of the subprogram that a call with `count` arguments is made to, if
it can be made. -/
def Context.callee? (ctx : Context) (name : String) (count : Nat) :
    Option (Label × List ValueType) :=
  if Reg.arguments.length < count then none
  else (ctx.symbols.lookupWithDepth? name).map fun found =>
    (Lower.routineLabel ctx.path found.1 name, found.2.binding.params?.getD [])

/-! ## Code that leaves the counters alone -/

namespace Lower

variable {α β : Type} {ctx : Context} {c : Counters}

/-- The code leaves the counters as they are. -/
def Still (x : Lower α) : Prop := ∀ ctx c, (x ctx c).counters = c

theorem still_pure (a : α) : Still (pure a : Lower α) := fun _ _ => rfl

theorem Still.bind {x : Lower α} {f : α → Lower β} (hx : Still x) (hf : ∀ a, Still (f a)) :
    Still (x >>= f) := by
  intro ctx c
  rw [bind_apply, hf, hx]

theorem still_emit (i : Instr) : Still (emit i) := fun _ _ => rfl

theorem still_diagnose (d : Diagnostic) : Still (diagnose d) := fun _ _ => rfl

theorem still_cursor : Still cursor := fun _ _ => rfl

theorem still_register (i : Nat) : Still (register i) := fun _ _ => counters_register i

theorem still_locate (name : String) : Still (locate name) := fun _ _ => counters_locate name

theorem still_convert (r : Reg) (s t : ValueType) : Still (convert r s t) := by
  cases s <;> cases t <;> exact fun _ _ => rfl

theorem still_floatOperands (a b : Reg) (s t : ValueType) : Still (floatOperands a s b t) := by
  cases s <;> cases t <;> exact fun _ _ => rfl

/-- The counters do not depend on whether the literal is a number. -/
theorem still_literal (text : String) (type : ValueType) : Still (literal text type) := by
  refine still_cursor.bind fun _ => (still_register _).bind fun _ => ?_
  cases type with
  | integer =>
    dsimp only
    split
    · exact still_emit _
    · exact still_diagnose _
  | real =>
    dsimp only
    split
    · exact still_emit _
    · exact still_diagnose _

theorem still_variableValue (name : String) : Still (variableValue name) := by
  refine still_cursor.bind fun _ => (still_register _).bind fun _ =>
    (still_locate _).bind fun found => ?_
  split
  · exact still_emit _
  · exact still_pure _

theorem still_elementOffset (r : Reg) (lo : Int) : Still (elementOffset r lo) := by
  unfold elementOffset
  split
  · exact still_emit _
  · split
    · exact still_emit _
    · exact (still_emit _).bind fun _ => still_emit _

theorem still_addPlace (s : Storage) : Still (addPlace s) := by
  cases s with
  | global label => exact (still_emit _).bind fun _ => still_emit _
  | stack offset =>
    refine (still_emit _).bind fun _ => ?_
    split
    · exact still_pure _
    · exact still_emit _

/-- Operators compute in registers that were taken before. -/
theorem still_apply (op : BinaryOp) (type : ValueType) (d a b : Reg) (s t : ValueType) :
    Still (apply op type d a b s t) := by
  cases op <;> cases type <;> cases s <;> cases t <;> exact fun _ _ => rfl

theorem still_passArguments (i : Nat) (targets : List Reg) : Still (passArguments i targets) := by
  induction targets generalizing i with
  | nil => exact still_pure _
  | cons r rs ih =>
    exact (still_register _).bind fun _ => (still_emit _).bind fun _ => ih (i + 1)

theorem still_callService (service : Service) : Still (callService service) :=
  (still_emit _).bind fun _ => still_emit _

/-! ## Where the cursor goes -/

/-- An index is evaluated one register above, which is given back. That the array has no place makes
no difference. -/
theorem counters_elementAddress (name : String) (type : ValueType) (index : Lower Unit) :
    (elementAddress name type index ctx c).counters =
      (index ctx (c.take 1)).counters.release 1 := by
  simp only [elementAddress, bind_apply, take_apply, release_apply, cursor_apply, still_register _ _ _,
    still_convert _ _ _ _ _, still_locate _ _ _, value_locate]
  rcases ctx.place? name with _ | ⟨storage, bounds?⟩
  · rfl
  · simp only [bind_apply, still_elementOffset _ _ _ _, still_emit _ _ _, still_addPlace _ _ _]
    rfl

theorem counters_elementValue (name : String) (type : ValueType) (index : Lower Unit) :
    (elementValue name type index ctx c).counters = (index ctx (c.take 1)).counters.release 1 := by
  simp only [elementValue, bind_apply, cursor_apply, still_register _ _ _]
  rw [← counters_elementAddress name type index]
  split <;> rfl

/-- Operands are evaluated one above the other, and both registers are given back. -/
theorem counters_operands (left right : Lower Unit) : (operands left right ctx c).counters =
    (right ctx ((left ctx (c.take 1)).counters.take 1)).counters.release 2 :=
  rfl

/-- An operator adds nothing to what its operands do to the counters. -/
theorem counters_binary (op : BinaryOp) (type s t : ValueType) (left right : Lower Unit) :
    (binary op type s t left right ctx c).counters =
      (right ctx ((left ctx (c.take 1)).counters.take 1)).counters.release 2 := by
  simp only [binary, bind_apply, cursor_apply, still_register _ _ _, still_apply _ _ _ _ _ _ _ _ _,
    counters_operands]

theorem counters_unary (op : UnaryOp) (type t : ValueType) (operand : Lower Unit) :
    (unary op type t operand ctx c).counters = (operand ctx (c.take 1)).counters.release 1 := by
  simp only [unary, bind_apply, cursor_apply, take_apply, release_apply, still_register _ _ _]
  split
  · rfl
  · rfl
  · simp only [bind_apply, still_convert _ _ _ _ _, still_emit _ _ _]

/-- A call that cannot be made is marked. -/
theorem call_of_none {name : String} {count : Nat} (arguments : List ValueType → Lower Unit)
    (h : ctx.callee? name count = none) :
    ∃ d, call name count arguments ctx c = ⟨false, c, [.mark d]⟩ := by
  unfold Context.callee? at h
  simp only [call, bind_apply, routine?]
  cases hfind : ctx.symbols.lookupWithDepth? name with
  | none => exact ⟨_, rfl⟩
  | some found =>
    rw [hfind, Option.map_some] at h
    by_cases hcount : Reg.arguments.length < count
    · simp only [Option.map_some, if_pos hcount]
      exact ⟨_, rfl⟩
    · rw [if_neg hcount] at h
      cases h

/-- A call evaluates arguments for the parameters of the subprogram, passes as many registers as it
has arguments, and gives them back. -/
theorem call_of_some {name : String} {count : Nat} {label : Label} {params : List ValueType}
    (arguments : List ValueType → Lower Unit) (h : ctx.callee? name count = some (label, params)) :
    call name count arguments ctx c = ⟨true, (arguments params ctx c).counters.release count,
      (arguments params ctx c).lines ++ ((passArguments (c.cursor + 1) (Reg.arguments.take count) ctx
        (arguments params ctx c).counters).lines ++ [.instr (.jal label)])⟩ := by
  unfold Context.callee? at h
  split at h
  · cases h
  · next hcount =>
    obtain ⟨found, hfind, heq⟩ := Option.map_eq_some_iff.1 h
    cases heq
    simp only [call, bind_apply, routine?, hfind, Option.map_some, if_neg hcount, cursor_apply,
      release_apply, emit_apply, still_passArguments _ _ _ _]
    rfl

/-- Fetching the result of a call takes no register but the one at the cursor. -/
theorem counters_callValue (name : String) (count : Nat) (arguments : List ValueType → Lower Unit) :
    (callValue name count arguments ctx c).counters =
      (call name count arguments ctx c).counters := by
  simp only [callValue, bind_apply]
  split
  · simp only [bind_apply, cursor_apply, still_register _ _ _, still_emit _ _ _]
  · rfl

theorem counters_callProcedure (name : String) (args : List Expr) :
    (callProcedure name args ctx c).counters =
      (call name args.length (Expr.lowerArgs args) ctx c).counters :=
  rfl

/-- A store to an element evaluates its index. -/
theorem counters_store_element (name : String) (type : ValueType) (index : Expr) (source : Reg) :
    (store (.element name type index) source ctx c).counters =
      (index.lower ctx (c.take 1)).counters.release 1 := by
  simp only [store, bind_apply]
  rw [← counters_elementAddress name index.type]
  split <;> rfl

theorem counters_store_var (name : String) (type : ValueType) (source : Reg) :
    (store (.var name type) source ctx c).counters = c := by
  simp only [store, bind_apply, still_locate _ _ _, value_locate]
  rcases ctx.place? name with _ | ⟨storage, bounds?⟩ <;> rfl

/-- The test of a choice or a loop moves the cursor as its value does. -/
theorem counters_branchUnless (test : Expr) (label : Label) :
    (branchUnless test label ctx c).counters = (test.lower ctx c).counters := by
  unfold branchUnless
  split
  · next relation left right type =>
    rw [Expr.lower, counters_binary]
    simp only [compareUnless, bind_apply, cursor_apply, still_register _ _ _, counters_operands]
    cases left.type.widen right.type with
    | integer => rfl
    | real => simp only [bind_apply, still_floatOperands _ _ _ _ _ _, still_emit _ _ _]
  · simp only [valueUnless, bind_apply, cursor_apply, still_register _ _ _, still_convert _ _ _ _ _,
      still_emit _ _ _]

/-- An assignment moves the counters as its value and its store do. From which register is stored
does not matter. -/
theorem counters_assign (target : Target) (value : Expr) (ctx : Context) (c : Counters) :
    ∃ source, (assign target value ctx c).counters =
      (store target source ctx (value.lower ctx c).counters).counters := by
  simp only [assign, bind_apply, cursor_apply, still_register _ _ _, still_convert _ _ _ _ _]
  exact ⟨_, rfl⟩

theorem counters_read (target : Target) (ctx : Context) (c : Counters) :
    ∃ source, (read target ctx c).counters = (store target source ctx c).counters := by
  simp only [read, bind_apply, cursor_apply, still_register _ _ _]
  cases target.type with
  | integer => exact ⟨_, rfl⟩
  | real => exact ⟨_, rfl⟩

/-- Writing moves the counters as the value does. -/
theorem counters_write (value : Expr) :
    (write value ctx c).counters = (value.lower ctx c).counters := by
  have hprint (r : Reg) (t : ValueType) : Still (printValue r t) := by
    cases t with
    | integer => exact (still_emit _).bind fun _ => still_callService _
    | real => exact (still_emit _).bind fun _ => still_callService _
  simp only [write, bind_apply, cursor_apply, still_register _ _ _, hprint _ _ _ _, still_emit _ _ _,
    still_callService _ _ _]

end Lower

end PascalMips
