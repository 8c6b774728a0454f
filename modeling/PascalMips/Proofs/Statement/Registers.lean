import PascalMips.Proofs.Lower.Chunks
import PascalMips.Proofs.Lower.Marks
import PascalMips.Proofs.Lower.Milder
import PascalMips.Proofs.Statement.Cursor

/-!
# Registers that code asks for

How many registers of the pool a tree takes can be read off it (`Expr.registers`,
`Statement.registers`): operands, an index and arguments are evaluated one after the other above the
register of the value. Code is marked for a missing register only if the tree takes more than there
are (`Statement.fits_lowerAll`).
-/

namespace PascalMips

/-! ## Registers of trees -/

namespace Expr

mutual

/-- The registers that an expression takes, from the one of its value on. -/
def registers : Expr → Nat
  | literal _ _ => 1
  | var _ _ => 1
  | element _ _ index => index.registers + 1
  | call _ _ args => max 1 (registersAll args)
  | binary _ left right _ => max (left.registers + 1) (right.registers + 2)
  | unary _ operand _ => operand.registers + 1

/-- The registers that arguments take, from the one below the first of them on. -/
def registersAll : List Expr → Nat
  | [] => 0
  | e :: es => max e.registers (registersAll es) + 1

end

/-- Every expression takes a register, for its value. -/
theorem registers_pos (e : Expr) : 0 < e.registers := by
  cases e with
  | literal => exact Nat.one_pos
  | var => exact Nat.one_pos
  | call => exact Nat.lt_of_lt_of_le Nat.one_pos (Nat.le_max_left ..)
  | element => exact Nat.succ_pos _
  | binary => exact Nat.lt_of_lt_of_le (Nat.succ_pos _) (Nat.le_max_left ..)
  | unary => exact Nat.succ_pos _

/-- Arguments take a register each, and the one below the first of them. -/
theorem length_lt_registersAll : ∀ {es : List Expr}, es ≠ [] → es.length < registersAll es
  | [], h => absurd rfl h
  | [e], _ => by
    have := e.registers_pos
    rw [registersAll, List.length_singleton]
    omega
  | e :: e' :: es, _ => by
    have := length_lt_registersAll (List.cons_ne_nil e' es)
    rw [registersAll, List.length_cons]
    omega

end Expr

def Target.registers : Target → Nat
  | var _ _ => 0
  | element _ _ index => index.registers + 1

namespace Statement

mutual

/-- The registers that a statement takes. -/
def registers : Statement → Nat
  | assign target value => max value.registers target.registers
  | compound body => registersAll body
  | branch test yes no => max test.registers (max yes.registers no.registers)
  | loop test body => max test.registers body.registers
  | call _ args => Expr.registersAll args
  | read target => max 1 target.registers
  | write value => value.registers

/-- The registers that statements take, of which each gives them back. -/
def registersAll : List Statement → Nat
  | [] => 0
  | s :: ss => max s.registers (registersAll ss)

end

end Statement

/-! ## Code within a number of registers -/

namespace Lower

variable {α β : Type} {ctx : Context} {c : Counters} {top : Nat}

/-- Code that is never marked for a missing register. -/
def Unpooled (x : Lower α) : Prop := ∀ ctx c, .mark .outOfRegisters ∉ (x ctx c).lines

/-- Code made of pieces that never lack a register never lacks one. -/
theorem Unpooled.bind {x : Lower α} {f : α → Lower β} (hx : Unpooled x) (hf : ∀ a, Unpooled (f a)) :
    Unpooled (x >>= f) := by
  intro ctx c hmark
  rcases List.mem_append.1 hmark with hmark | hmark
  · exact hx ctx c hmark
  · exact hf _ ctx _ hmark

theorem Quiet.unpooled {x : Lower Unit} (h : Quiet x) : Unpooled x := by
  intro ctx c hmark
  have hmem := mem_diagnosticsOf.2 hmark
  rw [h.marks] at hmem
  cases hmem

theorem unpooled_pure (a : α) : Unpooled (pure a : Lower α) := fun _ _ hmark => nomatch hmark

theorem unpooled_cursor : Unpooled cursor := fun _ _ hmark => nomatch hmark

theorem unpooled_take (count : Nat) : Unpooled (take count) := fun _ _ hmark => nomatch hmark

theorem unpooled_release (count : Nat) : Unpooled (release count) := fun _ _ hmark => nomatch hmark

theorem unpooled_nextIf : Unpooled nextIf := fun _ _ hmark => nomatch hmark

theorem unpooled_nextLoop : Unpooled nextLoop := fun _ _ hmark => nomatch hmark

theorem unpooled_emit (i : Instr) : Unpooled (emit i) := (quiet_emit i).unpooled

theorem unpooled_label (l : Label) : Unpooled (label l) :=
  fun _ _ hmark => nomatch List.mem_singleton.1 hmark

theorem unpooled_diagnose {d : Diagnostic} (h : d ≠ .outOfRegisters) : Unpooled (diagnose d) := by
  intro ctx c hmark
  cases List.mem_singleton.1 hmark
  exact h rfl

theorem unpooled_routine? (name : String) : Unpooled (routine? name) := fun _ _ hmark => nomatch hmark

/-- Looking up a place may be marked, but not for a register. -/
theorem unpooled_locate (name : String) : Unpooled (locate name) := by
  have hfind : Unpooled (find? name) := fun _ _ hmark => nomatch hmark
  refine hfind.bind fun found => ?_
  rcases found with _ | ⟨symbol, _ | storage⟩
  · exact (unpooled_diagnose (by nofun)).bind fun _ => unpooled_pure _
  · refine (unpooled_diagnose ?_).bind fun _ => unpooled_pure _
    unfold unreachable
    split <;> nofun
  · exact unpooled_pure _

/-- Code that is instructions only, whatever they are. -/
theorem unpooled_of_lines {x : Lower α} {instrs : List Instr}
    (h : ∀ ctx c, (x ctx c).lines = instrLines instrs) : Unpooled x := by
  intro ctx c hmark
  rw [h] at hmark
  obtain ⟨i, -, hline⟩ := List.mem_map.1 hmark
  cases hline

theorem unpooled_elementOffset (r : Reg) (lo : Int) : Unpooled (elementOffset r lo) :=
  unpooled_of_lines fun _ => lines_elementOffset r lo

theorem unpooled_addPlace (place : Storage) : Unpooled (addPlace place) :=
  unpooled_of_lines fun _ => lines_addPlace place

/-- Where the code is marked for a missing register, the pool has fewer than `top`. -/
def Fits (x : Lower α) (ctx : Context) (c : Counters) (top : Nat) : Prop :=
  .mark .outOfRegisters ∈ (x ctx c).lines → Reg.pool.length < top

theorem Unpooled.fits {x : Lower α} (h : Unpooled x) : Fits x ctx c top :=
  fun hmark => absurd hmark (h ctx c)

theorem Fits.mono {x : Lower α} {top' : Nat} (h : Fits x ctx c top) (hle : top ≤ top') :
    Fits x ctx c top' :=
  fun hmark => Nat.lt_of_lt_of_le (h hmark) hle

/-- One piece of code after the other fits if each fits from where it starts. -/
theorem fits_bind {x : Lower α} {f : α → Lower β} (hx : Fits x ctx c top)
    (hf : Fits (f (x ctx c).value) ctx (x ctx c).counters top) : Fits (x >>= f) ctx c top := by
  intro hmark
  rcases List.mem_append.1 hmark with hmark | hmark
  · exact hx hmark
  · exact hf hmark

theorem fits_cursor {f : Nat → Lower β} (h : Fits (f c.cursor) ctx c top) :
    Fits (cursor >>= f) ctx c top :=
  fits_bind unpooled_cursor.fits h

theorem fits_take {count : Nat} {f : Unit → Lower β} (h : Fits (f ()) ctx (c.take count) top) :
    Fits (take count >>= f) ctx c top :=
  fits_bind (unpooled_take count).fits h

theorem fits_routine? {name : String} {f : Option (Label × List ValueType) → Lower β}
    (h : ∀ found, Fits (f found) ctx c top) : Fits (routine? name >>= f) ctx c top :=
  fits_bind (unpooled_routine? name).fits (h _)

/-- A register below the bound is there, or the bound is beyond the pool. -/
theorem fits_register {i : Nat} (h : i < top) : Fits (register i) ctx c top :=
  fun hmark => Nat.lt_of_le_of_lt (mark_mem_register.1 hmark).2 h

/-- A register at the index, and code after it. -/
theorem fits_ask {i : Nat} {f : Reg → Lower β} (h : i < top) (hf : ∀ r, Fits (f r) ctx c top) :
    Fits (register i >>= f) ctx c top := by
  refine fits_bind (fits_register h) ?_
  rw [still_register]
  exact hf _

/-! ### Values -/

/-- A literal takes the register at the cursor. -/
theorem fits_literal (text : String) (type : ValueType) :
    Fits (literal text type) ctx c (c.cursor + 1) := by
  refine fits_cursor (fits_ask (Nat.lt_succ_self _) fun destination => ?_)
  cases type with
  | integer =>
    dsimp only
    split
    · exact (unpooled_emit _).fits
    · exact (unpooled_diagnose (by nofun)).fits
  | real =>
    dsimp only
    split
    · exact (unpooled_emit _).fits
    · exact (unpooled_diagnose (by nofun)).fits

theorem fits_variableValue (name : String) :
    Fits (variableValue name) ctx c (c.cursor + 1) := by
  refine fits_cursor (fits_ask (Nat.lt_succ_self _) fun destination =>
    ((unpooled_locate name).bind fun found => ?_).fits)
  cases found with
  | some place => exact unpooled_emit _
  | none => exact unpooled_pure ()

/-- The address of an element takes what its index takes, and the register that the index ends in.
-/
theorem fits_elementAddress {name : String} {type : ValueType} {index : Lower Unit}
    (h : Fits index ctx (c.take 1) top) (hcursor : (index ctx (c.take 1)).counters.cursor < top) :
    Fits (elementAddress name type index) ctx c top := by
  refine fits_take (fits_bind h (fits_cursor (fits_ask hcursor fun reg =>
    ((unpooled_release 1).bind fun _ => (quiet_convert _ _ _).unpooled.bind fun _ =>
      (unpooled_locate name).bind fun found => ?_).fits)))
  cases found with
  | none => exact unpooled_pure false
  | some place =>
    exact (unpooled_elementOffset _ _).bind fun _ => (unpooled_emit _).bind fun _ =>
      (unpooled_addPlace _).bind fun _ => unpooled_pure true

/-- An access to an element, if its address was found. -/
theorem fits_touch {name : String} {type : ValueType} {index : Lower Unit}
    (h : Fits index ctx (c.take 1) top) (hcursor : (index ctx (c.take 1)).counters.cursor < top)
    (i : Instr) : Fits
      (elementAddress name type index >>= fun found => if found then emit i else pure ()) ctx c top := by
  refine fits_bind (fits_elementAddress h hcursor) (Unpooled.fits ?_)
  split
  · exact unpooled_emit i
  · exact unpooled_pure ()

/-! ### Operations and calls -/

/-- Operands take what each of them takes, one above the other. -/
theorem fits_operands {left right : Lower Unit} (hl : Fits left ctx (c.take 1) top)
    (hr : Fits right ctx ((left ctx (c.take 1)).counters.take 1) top) :
    Fits (operands left right) ctx c top :=
  fits_take (fits_bind hl (fits_take (fits_bind hr (unpooled_release 2).fits)))

/-- An operation takes three registers at least: for its value and its operands. -/
theorem fits_binary {left right : Lower Unit} {op : BinaryOp} {type s t : ValueType}
    (h : Fits (operands left right) ctx c top) (htop : c.cursor + 2 < top) :
    Fits (binary op type s t left right) ctx c top :=
  fits_cursor (fits_bind h (fits_ask (by omega) fun _ => fits_ask (by omega) fun _ =>
    fits_ask htop fun _ => (quiet_apply _ _ _ _ _ _ _).unpooled.fits))

theorem fits_unary {operand : Lower Unit} {op : UnaryOp} {type t : ValueType}
    (h : Fits operand ctx (c.take 1) top) (htop : c.cursor + 1 < top) :
    Fits (unary op type t operand) ctx c top := by
  refine fits_cursor (fits_take (fits_bind h (fits_bind (unpooled_release 1).fits
    (fits_ask (by omega) fun _ => fits_ask htop fun _ => Unpooled.fits ?_))))
  split
  · exact unpooled_emit _
  · exact (unpooled_emit _).bind fun _ => (unpooled_emit _).bind fun _ => unpooled_emit _
  · exact (quiet_convert _ _ _).unpooled.bind fun _ => unpooled_emit _

/-- Arguments are passed from a row of registers. -/
theorem fits_passArguments {index : Nat} (targets : List Reg) (h : index + targets.length ≤ top) :
    Fits (passArguments index targets) ctx c top := by
  induction targets generalizing index with
  | nil => exact (unpooled_pure ()).fits
  | cons target targets ih =>
    rw [List.length_cons] at h
    exact fits_ask (by omega) fun _ => fits_bind (unpooled_emit _).fits (ih (by omega))

/-- A call takes what its arguments take. They may be fewer than the call has, if the subprogram has
fewer parameters; the bound holds all the same. -/
theorem fits_call {name : String} {count : Nat} {arguments : List ValueType → Lower Unit}
    (h : ∀ params, Fits (arguments params) ctx c top) (htop : 0 < count → c.cursor + count < top) :
    Fits (call name count arguments) ctx c top := by
  refine fits_routine? fun found => ?_
  cases found with
  | none => exact ((unpooled_diagnose (by nofun)).bind fun _ => unpooled_pure false).fits
  | some callee =>
    dsimp only
    split
    · exact ((unpooled_diagnose (by nofun)).bind fun _ => unpooled_pure false).fits
    · refine fits_cursor (fits_bind (h callee.2) (fits_bind ?_ ((unpooled_release count).bind fun _ =>
        (unpooled_emit _).bind fun _ => unpooled_pure true).fits))
      by_cases hcount : 0 < count
      · have hlength := List.length_take_le count Reg.arguments
        have := htop hcount
        exact fits_passArguments _ (by omega)
      · rw [Nat.eq_zero_of_not_pos hcount, List.take_zero]
        exact (unpooled_pure ()).fits

end Lower

/-! ## Expressions -/

namespace Expr

open Lower

variable {ctx : Context}

/-- Operands of an operation, in registers above the one of its value. -/
theorem fits_operands {left right : Expr}
    (hleft : ∀ c, Fits left.lower ctx c (c.cursor + left.registers))
    (hright : ∀ c, Fits right.lower ctx c (c.cursor + right.registers)) (c : Counters) :
    Fits (operands left.lower right.lower) ctx c
      (c.cursor + max (left.registers + 1) (right.registers + 2)) := by
  have hcursor := left.cursor_lower_le ctx (c.take 1)
  refine Lower.fits_operands ((hleft _).mono ?_) ((hright _).mono ?_)
  · rw [Counters.cursor_take]
    omega
  · rw [Counters.cursor_take] at hcursor ⊢
    omega

/-- A call fits where its arguments do, which take more registers than there are of them. -/
theorem fits_call {name : String} {args : List Expr} {c : Counters}
    (h : ∀ params, Fits (lowerArgs args params) ctx c (c.cursor + registersAll args)) :
    Fits (Lower.call name args.length (lowerArgs args)) ctx c (c.cursor + registersAll args) := by
  refine Lower.fits_call h fun hpos => ?_
  have := length_lt_registersAll (List.ne_nil_of_length_pos hpos)
  omega

/-- The index of an element is evaluated above the cursor. -/
theorem fits_index {name : String} {type : ValueType} {index : Expr}
    (h : ∀ c, Fits index.lower ctx c (c.cursor + index.registers)) (c : Counters) (i : Instr) :
    Fits (elementAddress name type index.lower >>= fun found => if found then emit i else pure ())
      ctx c (c.cursor + (index.registers + 1)) := by
  have hcursor := index.cursor_lower_le ctx (c.take 1)
  have hpos := index.registers_pos
  rw [Counters.cursor_take] at hcursor
  refine fits_touch ((h _).mono ?_) (by omega) i
  rw [Counters.cursor_take]
  omega

mutual

/-- An expression takes no more registers than are counted for it, from any cursor, by induction
over expressions. -/
theorem fits_lower : ∀ (e : Expr) (c : Counters), Fits e.lower ctx c (c.cursor + e.registers)
  | literal text type, c => by
    rw [lower, registers]
    exact fits_literal text type
  | var name _, c => by
    rw [lower, registers]
    exact fits_variableValue name
  | element name _ index, c => by
    rw [lower, registers]
    exact fits_cursor (fits_ask (by omega) fun _ => fits_index (fits_lower index) c _)
  | call name _ args, c => by
    have hcall : Fits (Lower.call name args.length (lowerArgs args)) ctx c
        (c.cursor + registersAll args) := fits_call fun params => fits_lowerArgs args params c
    have hcursor : (Lower.call name args.length (lowerArgs args) ctx c).counters.cursor ≤ c.cursor :=
      (moves_traceCall fun params => moves_traceArgs args params c).le
    rw [lower, registers]
    refine fits_bind (hcall.mono (by omega)) ?_
    split
    · exact fits_cursor (fits_ask (by omega) fun _ => (unpooled_emit _).fits)
    · exact (unpooled_pure ()).fits
  | binary op left right type, c => by
    have hpos := right.registers_pos
    rw [lower, registers]
    exact fits_binary (fits_operands (fits_lower left) (fits_lower right) c) (by omega)
  | unary op operand type, c => by
    have hoperand := fits_lower operand (c.take 1)
    have hpos := operand.registers_pos
    rw [Counters.cursor_take] at hoperand
    rw [lower, registers]
    exact fits_unary (hoperand.mono (by omega)) (by omega)

/-- So do arguments, whatever their parameters are. -/
theorem fits_lowerArgs : ∀ (args : List Expr) (params : List ValueType) (c : Counters),
    Fits (lowerArgs args params) ctx c (c.cursor + registersAll args)
  | [], _, c => by
    rw [lowerArgs]
    exact (unpooled_pure ()).fits
  | _ :: _, [], c => by
    rw [lowerArgs]
    exact (unpooled_pure ()).fits
  | arg :: args, param :: params, c => by
    have harg := fits_lower arg (c.take 1)
    have hargs := fits_lowerArgs args params (arg.lower ctx (c.take 1)).counters
    have hcursor := arg.cursor_lower_le ctx (c.take 1)
    have hpos := arg.registers_pos
    rw [Counters.cursor_take] at harg hcursor
    rw [lowerArgs, registersAll]
    refine fits_take (fits_bind (harg.mono (by omega)) (fits_cursor (fits_ask (by omega) fun _ =>
      fits_bind (quiet_convert _ _ _).unpooled.fits ?_)))
    rw [still_convert]
    exact hargs.mono (by omega)

end

end Expr

/-! ## Statements -/

namespace Lower

variable {ctx : Context} {c : Counters} {top : Nat}

theorem unpooled_callService (service : Service) : Unpooled (callService service) :=
  (unpooled_emit _).bind fun _ => unpooled_emit _

/-- A store takes what the index of its place takes. -/
theorem fits_store {target : Target} (source : Reg) (h : c.cursor + target.registers ≤ top) :
    Fits (store target source) ctx c top := by
  cases target with
  | var name type =>
    refine ((unpooled_locate name).bind fun found => ?_).fits
    cases found with
    | some place => exact unpooled_emit _
    | none => exact unpooled_pure ()
  | element name type index => exact (Expr.fits_index index.fits_lower c _).mono h

/-- A test takes what it takes as a value. A comparison leaves out the register of its value, but
its operands stand where they would. -/
theorem fits_branchUnless (test : Expr) (label : Label) :
    Fits (branchUnless test label) ctx c (c.cursor + test.registers) := by
  have hvalue : Fits (valueUnless test label) ctx c (c.cursor + test.registers) := by
    have hpos := test.registers_pos
    have hcursor := test.cursor_lower_le ctx c
    exact fits_bind (test.fits_lower c) (fits_cursor (fits_ask (by omega) fun _ =>
      ((quiet_convert _ _ _).unpooled.bind fun _ => (unpooled_emit _).bind fun _ =>
        unpooled_emit _).fits))
  unfold branchUnless
  split
  · next relation left right type =>
    have hpos := right.registers_pos
    rw [Expr.registers]
    refine fits_cursor (fits_bind (Expr.fits_operands left.fits_lower right.fits_lower c)
      (fits_ask (by omega) fun _ => fits_ask (by omega) fun _ => Unpooled.fits ?_))
    split
    · exact unpooled_emit _
    · exact (quiet_floatOperands _ _ _ _).unpooled.bind fun _ => (unpooled_emit _).bind fun _ =>
        unpooled_emit _
  · exact hvalue

theorem fits_assign (target : Target) (value : Expr) :
    Fits (assign target value) ctx c (c.cursor + max value.registers target.registers) := by
  have hpos := value.registers_pos
  have hcursor := value.cursor_lower_le ctx c
  refine fits_bind ((value.fits_lower c).mono (by omega)) (fits_cursor (fits_ask (by omega) fun _ =>
    fits_bind (quiet_convert _ _ _).unpooled.fits ?_))
  rw [still_convert]
  exact fits_store _ (by omega)

/-- What is read takes a register, and the index of its place may take more. -/
theorem fits_read (target : Target) :
    Fits (read target) ctx c (c.cursor + max 1 target.registers) := by
  have hstore (destination : Reg) (i : Instr) (service : Service) : Fits (callService service >>=
      fun _ => emit i >>= fun _ => store target destination) ctx c
        (c.cursor + max 1 target.registers) :=
    fits_bind (unpooled_callService service).fits (fits_bind (unpooled_emit i).fits
      (fits_store destination (Nat.add_le_add_left (Nat.le_max_right ..) _)))
  refine fits_cursor (fits_ask (by omega) fun destination => ?_)
  split
  · exact hstore destination _ _
  · exact hstore destination _ _

theorem fits_write (value : Expr) : Fits (write value) ctx c (c.cursor + value.registers) := by
  have hpos := value.registers_pos
  have hcursor := value.cursor_lower_le ctx c
  exact fits_bind (value.fits_lower c) (fits_cursor (fits_ask (by omega) fun _ =>
    ((quiet_printValue _ _).unpooled.bind fun _ => (unpooled_emit _).bind fun _ =>
      unpooled_callService _).fits))

end Lower

namespace Statement

open Lower

variable {ctx : Context}

mutual

/-- A statement takes no more registers than are counted for it, from the first one on. The parts of
a statement each start there, since the cursor rests at zero between them. -/
theorem fits_lower : ∀ (s : Statement) {c : Counters}, c.cursor = 0 →
    Fits s.lower ctx c s.registers
  | assign target value, c, hc => by
    rw [lower, registers]
    exact (fits_assign target value).mono (by omega)
  | compound body, c, hc => by
    rw [lower, registers]
    exact fits_lowerAll body hc
  | branch test yes no, c, hc => by
    have hc₁ := test.rests_lower ctx (c := { c with ifs := c.ifs + 1 }) hc
    have hc₂ := yes.rests_lower ctx hc₁
    rw [lower, registers]
    refine fits_bind unpooled_nextIf.fits (fits_bind ((fits_branchUnless test _).mono ?_) ?_)
    · show c.cursor + test.registers ≤ _
      omega
    rw [counters_branchUnless]
    exact fits_bind ((fits_lower yes hc₁).mono (by omega)) (fits_bind (unpooled_emit _).fits
      (fits_bind (unpooled_label _).fits (fits_bind ((fits_lower no hc₂).mono (by omega))
        (unpooled_label _).fits)))
  | loop test body, c, hc => by
    have hc₁ := test.rests_lower ctx (c := { c with loops := c.loops + 1 }) hc
    rw [lower, registers]
    refine fits_bind unpooled_nextLoop.fits (fits_bind (unpooled_label _).fits
      (fits_bind ((fits_branchUnless test _).mono ?_) ?_))
    · show c.cursor + test.registers ≤ _
      omega
    rw [counters_branchUnless]
    exact fits_bind ((fits_lower body hc₁).mono (by omega))
      ((unpooled_emit _).bind fun _ => unpooled_label _).fits
  | call name args, c, hc => by
    have hcall : Fits (Lower.call name args.length (Expr.lowerArgs args)) ctx c
        (c.cursor + Expr.registersAll args) :=
      Expr.fits_call fun params => Expr.fits_lowerArgs args params c
    rw [lower, registers]
    exact fits_bind (hcall.mono (by omega)) (unpooled_pure ()).fits
  | read target, c, hc => by
    rw [lower, registers]
    exact (fits_read target).mono (by omega)
  | write value, c, hc => by
    rw [lower, registers]
    exact (fits_write value).mono (by omega)

/-- Statements that start at the first register are marked for a missing one only if they take more
than there are. -/
theorem fits_lowerAll : ∀ (ss : List Statement) {c : Counters}, c.cursor = 0 →
    Fits (lowerAll ss) ctx c (registersAll ss)
  | [], c, _ => by
    rw [lowerAll]
    exact (unpooled_pure ()).fits
  | s :: ss, c, hc => by
    have hs := s.rests_lower ctx hc
    rw [lowerAll, registersAll]
    exact fits_bind ((fits_lower s hc).mono (by omega)) ((fits_lowerAll ss hs).mono (by omega))

end

end Statement

end PascalMips
