import PascalMips.Proofs.Lower.Cursor
import PascalMips.Proofs.Lower.Labels
import PascalMips.Proofs.Machine.Calls
import PascalMips.Proofs.Statement.Uses

/-!
# Lowered code in chunks

Lines of lowered code come in chunks that do one thing each (`Chunk`): a plain instruction, a label,
a jump, a load or a store of a variable, an access to an element of an array, a call. Only the
access to an element takes several lines. Code for expressions has no jumps, and what code for
statements jumps to is among its own labels (`Statement.closed_lowerAll`).
-/

namespace PascalMips

/-! ## Instructions -/

namespace Instr

/-- The instruction goes on to the next line, names no label, and leaves memory and the stack
pointer alone. -/
def IsPlain : Instr → Prop
  | li rd _ => rd ≠ .sp
  | liBits rd _ => rd ≠ .sp
  | lw rd (.offset _ _) => rd ≠ .sp
  | move rd _ => rd ≠ .sp
  | alu _ rd _ _ => rd ≠ .sp
  | addi rd _ _ => rd ≠ .sp
  | sll rd _ _ => rd ≠ .sp
  | mflo rd => rd ≠ .sp
  | mfhi rd => rd ≠ .sp
  | set _ rd _ _ => rd ≠ .sp
  | mfc1 rd _ => rd ≠ .sp
  | moveIf _ rd _ => rd ≠ .sp
  | mult _ _ => True
  | div _ _ => True
  | mtc1 _ _ => True
  | cvtSingle _ _ => True
  | cvtWord _ _ => True
  | float _ _ _ _ => True
  | negSingle _ _ => True
  | compare _ _ _ => True
  | syscall => True
  | la _ _ => False
  | lw _ (.label _) => False
  | sw _ _ => False
  | branch _ _ _ _ => False
  | branchIf _ _ => False
  | j _ => False
  | jal _ => False
  | jr _ => False

/-- The instruction reads or writes the word at the address register. -/
inductive Touches : Instr → Prop
  | load (n : Fin 8) : Touches (lw (.s n) (.offset 0 .t9))
  | store (n : Fin 8) : Touches (sw (.s n) (.offset 0 .t9))

end Instr

/-! ## Accesses to elements -/

/-- The instructions that leave the offset of an element, in elements, in the address register. -/
def offsetInstrs (index : Reg) (lo : Int) : List Instr :=
  if lo = 0 then [.move .t9 index]
  else if Literal.InRange (-lo) then [.addi .t9 index (-lo)]
  else [.li .t9 lo, .alu .sub .t9 index .t9]

/-- The instructions that add the place of an array to the address register. -/
def placeInstrs : Storage → List Instr
  | .global label => [.la .t8 label, .alu .add .t9 .t9 .t8]
  | .stack offset => .alu .add .t9 .t9 .sp :: if offset = 0 then [] else [.addi .t9 .t9 offset]

/-- The instructions that leave the address of an element in the address register. -/
def addressInstrs (index : Reg) (lo : Int) (place : Storage) : List Instr :=
  offsetInstrs index lo ++ .sll .t9 .t9 2 :: placeInstrs place

/-- Computing an address goes from line to line. -/
theorem isStraight_of_mem_addressInstrs {index : Reg} {lo : Int} {place : Storage} :
    ∀ i ∈ addressInstrs index lo place, i.IsStraight := by
  simp only [addressInstrs, List.forall_mem_append, List.forall_mem_cons]
  refine ⟨?_, trivial, ?_⟩
  · unfold offsetInstrs
    split
    · exact List.forall_mem_singleton.2 trivial
    · split
      · exact List.forall_mem_singleton.2 trivial
      · exact List.forall_mem_cons.2 ⟨trivial, List.forall_mem_singleton.2 trivial⟩
  · cases place with
    | global label => exact List.forall_mem_cons.2 ⟨trivial, List.forall_mem_singleton.2 trivial⟩
    | stack offset =>
      refine List.forall_mem_cons.2 ⟨trivial, ?_⟩
      split
      · exact List.forall_mem_nil _
      · exact List.forall_mem_singleton.2 trivial

/-- Instructions as lines. -/
def instrLines (is : List Instr) : List Line := is.map .instr

/-- The lowest index of an array. -/
def lowerBound (bounds? : Option Bounds) : Int := (bounds?.map Bounds.lo).getD 0

/-! ## Chunks -/

/-- One thing that the code of a body does in the context `ctx`, where `uses` are the uses of arrays
and subprograms in the body and jumps go to `targets`. -/
inductive Chunk (ctx : Context) (uses : List Use) (targets : Label → Prop) : List Line → Prop
  | mark (d : Diagnostic) : Chunk ctx uses targets [.mark d]
  | label (l : Label) : Chunk ctx uses targets [.label l]
  | plain {i : Instr} (h : i.IsPlain) : Chunk ctx uses targets [.instr i]
  | jump {i : Instr} {l : Label} (h : i.jump? = some l) (hl : targets l) :
      Chunk ctx uses targets [.instr i]
  | load {x : String} {place : Storage} {bounds? : Option Bounds} (n : Fin 8)
      (hplace : ctx.place? x = some (place, bounds?)) :
      Chunk ctx uses targets [.instr (.lw (.s n) place.address)]
  | store {x : String} {place : Storage} {bounds? : Option Bounds} (rs : Reg)
      (hplace : ctx.place? x = some (place, bounds?)) :
      Chunk ctx uses targets [.instr (.sw rs place.address)]
  | element {x : String} {place : Storage} {bounds? : Option Bounds} {i : Instr} (n : Fin 8)
      (huse : .element x ∈ uses) (hplace : ctx.place? x = some (place, bounds?)) (hi : i.Touches) :
      Chunk ctx uses targets
        (instrLines (addressInstrs (.s n) (lowerBound bounds?) place ++ [i]))
  | call {x : String} {count : Nat} {l : Label} {params : List ValueType}
      (huse : .call x count ∈ uses) (hcallee : ctx.callee? x count = some (l, params)) :
      Chunk ctx uses targets [.instr (.jal l)]

/-- The lines are chunks, one after the other. -/
def Chunked (ctx : Context) (uses : List Use) (targets : Label → Prop) (lines : List Line) : Prop :=
  ∃ chunks : List (List Line), (∀ xs ∈ chunks, Chunk ctx uses targets xs) ∧ chunks.flatten = lines

section Chunked

variable {ctx : Context} {uses : List Use} {targets : Label → Prop} {xs ys : List Line}

/-- A chunk may be one of code with more targets. -/
theorem Chunk.mono {targets' : Label → Prop} (h : Chunk ctx uses targets xs)
    (ht : ∀ l, targets l → targets' l) : Chunk ctx uses targets' xs := by
  cases h with
  | mark d => exact .mark d
  | label l => exact .label l
  | plain h => exact .plain h
  | jump h hl => exact .jump h (ht _ hl)
  | load n hplace => exact .load n hplace
  | store rs hplace => exact .store rs hplace
  | element n huse hplace hi => exact .element n huse hplace hi
  | call huse hcallee => exact .call huse hcallee

/-- A chunk is straight, a jump or a call. -/
theorem Chunk.kind_cases (h : Chunk ctx uses targets xs) : (∀ line ∈ xs, line.IsStraight) ∨
    (∃ i l, xs = [.instr i] ∧ i.jump? = some l ∧ targets l) ∨
    ∃ x count l params, xs = [.instr (.jal l)] ∧ .call x count ∈ uses ∧
      ctx.callee? x count = some (l, params) := by
  cases h with
  | jump h hl => exact .inr (.inl ⟨_, _, rfl, h, hl⟩)
  | call huse hcallee => exact .inr (.inr ⟨_, _, _, _, rfl, huse, hcallee⟩)
  | @plain i h =>
    refine .inl (List.forall_mem_singleton.2 ?_)
    cases i with
    | branch | branchIf | j | jal | jr => cases h
    | _ => trivial
  | element n huse hplace hi =>
    refine .inl (List.forall_mem_map.2 (List.forall_mem_append.2
      ⟨isStraight_of_mem_addressInstrs, List.forall_mem_singleton.2 ?_⟩))
    cases hi <;> trivial
  | _ => exact .inl (List.forall_mem_singleton.2 trivial)

theorem Chunk.chunked (h : Chunk ctx uses targets xs) : Chunked ctx uses targets xs :=
  ⟨[xs], List.forall_mem_singleton.2 h, List.flatten_singleton⟩

namespace Chunked

theorem nil : Chunked ctx uses targets [] := ⟨[], nofun, rfl⟩

/-- Code in chunks, one after the other, is code in chunks. -/
theorem append (hx : Chunked ctx uses targets xs) (hy : Chunked ctx uses targets ys) :
    Chunked ctx uses targets (xs ++ ys) := by
  obtain ⟨first, hfirst, rfl⟩ := hx
  obtain ⟨second, hsecond, rfl⟩ := hy
  exact ⟨first ++ second, List.forall_mem_append.2 ⟨hfirst, hsecond⟩, List.flatten_append⟩

theorem cons {line : Line} (h : Chunk ctx uses targets [line]) (hy : Chunked ctx uses targets ys) :
    Chunked ctx uses targets (line :: ys) := h.chunked.append hy

theorem mono {targets' : Label → Prop} (h : Chunked ctx uses targets xs)
    (ht : ∀ l, targets l → targets' l) : Chunked ctx uses targets' xs := by
  obtain ⟨chunks, hchunks, hflat⟩ := h
  exact ⟨chunks, fun ys hys => (hchunks ys hys).mono ht, hflat⟩

end Chunked

end Chunked

/-! ## Code in chunks -/

namespace Lower

instance : LawfulMonad Lower :=
  LawfulMonad.mk' Lower
    (fun x => by
      funext ctx c
      show (x >>= fun a => pure (id a)) ctx c = x ctx c
      rw [bind_apply, pure_apply, List.append_nil]
      rfl)
    (fun _ _ => rfl)
    (fun x f g => by
      funext ctx c
      simp only [bind_apply, List.append_assoc])

variable {α β : Type} {ctx : Context} {uses : List Use} {targets : Label → Prop}

/-- In the context `ctx` the code comes in chunks and has a value that satisfies `Q`. -/
def Emits (ctx : Context) (uses : List Use) (targets : Label → Prop) (x : Lower α)
    (Q : α → Prop) : Prop :=
  ∀ c, Chunked ctx uses targets (x ctx c).lines ∧ Q (x ctx c).value

/-- In the context `ctx` the code comes in chunks. -/
abbrev EmitsChunks (ctx : Context) (uses : List Use) (targets : Label → Prop) (x : Lower α) :
    Prop :=
  Emits ctx uses targets x fun _ => True

theorem emits_pure {a : α} {Q : α → Prop} (h : Q a) : Emits ctx uses targets (pure a) Q :=
  fun _ => ⟨.nil, h⟩

/-- One piece of code after the other: the second may use what is known of the value of the first.
-/
theorem emits_bind {x : Lower α} {f : α → Lower β} {Q : α → Prop} {R : β → Prop}
    (hx : Emits ctx uses targets x Q) (hf : ∀ a, Q a → Emits ctx uses targets (f a) R) :
    Emits ctx uses targets (x >>= f) R := by
  intro c
  obtain ⟨hlines, hvalue⟩ := hx c
  obtain ⟨hlines', hvalue'⟩ := hf _ hvalue (x ctx c).counters
  exact ⟨hlines.append hlines', hvalue'⟩

theorem emits_line {l : Line} (h : Chunk ctx uses targets [l]) :
    EmitsChunks ctx uses targets (line l) := fun _ => ⟨h.chunked, trivial⟩

theorem emits_plain {i : Instr} (h : i.IsPlain) : EmitsChunks ctx uses targets (emit i) :=
  emits_line (.plain h)

theorem emits_diagnose (d : Diagnostic) : EmitsChunks ctx uses targets (diagnose d) :=
  emits_line (.mark d)

theorem emits_cursor : EmitsChunks ctx uses targets cursor := fun _ => ⟨.nil, trivial⟩

theorem emits_take (count : Nat) : EmitsChunks ctx uses targets (take count) :=
  fun _ => ⟨.nil, trivial⟩

theorem emits_release (count : Nat) : EmitsChunks ctx uses targets (release count) :=
  fun _ => ⟨.nil, trivial⟩

/-- Registers come from the pool. -/
theorem emits_register (i : Nat) :
    Emits ctx uses targets (register i) fun r => ∃ n, r = .s n := by
  intro c
  cases h : Reg.pool[i]? with
  | none =>
    rw [register_of_none h]
    exact ⟨(Chunk.mark _).chunked, 7, rfl⟩
  | some r =>
    rw [register_of_some h]
    refine ⟨.nil, ?_⟩
    have hmem : r ∈ Reg.pool := List.mem_of_getElem? h
    simp only [Reg.pool, List.mem_cons, List.not_mem_nil, or_false] at hmem
    rcases hmem with h | h | h | h | h | h | h | h <;> exact ⟨_, h⟩

/-- Looking up a place writes at most a mark. The place is the one of the context. -/
theorem emits_locate (name : String) :
    Emits ctx uses targets (locate name) (· = ctx.place? name) := by
  refine fun c => ⟨?_, value_locate name⟩
  simp only [locate, bind_apply, find?]
  cases ctx.symbols.lookup? name with
  | none => exact (Chunk.mark _).chunked
  | some symbol =>
    rw [Option.map_some]
    cases ctx.storage.get? symbol.id with
    | none => exact (Chunk.mark _).chunked
    | some storage => exact .nil

/-! ### Values -/

/-- Conversions are plain: they go through a register of the floating-point unit and back. -/
theorem emits_convert (n : Fin 8) (s t : ValueType) :
    EmitsChunks ctx uses targets (convert (.s n) s t) := by
  cases s <;> cases t
  · exact emits_pure trivial
  · exact emits_bind (emits_plain trivial) fun _ _ => emits_bind (emits_plain trivial) fun _ _ =>
      emits_plain nofun
  · exact emits_bind (emits_plain trivial) fun _ _ => emits_bind (emits_plain trivial) fun _ _ =>
      emits_plain nofun
  · exact emits_pure trivial

theorem emits_floatOperands (a b : Reg) (s t : ValueType) :
    EmitsChunks ctx uses targets (floatOperands a s b t) := by
  have hoperand (r : Reg) (type : ValueType) (f : FReg) :
      EmitsChunks ctx uses targets (floatOperand r type f) := by
    refine emits_bind (emits_plain trivial) fun _ _ => ?_
    cases type with
    | integer => exact emits_plain trivial
    | real => exact emits_pure trivial
  exact emits_bind (hoperand _ _ _) fun _ _ => hoperand _ _ _

/-- A literal is one plain instruction, or a mark if it is no number. -/
theorem emits_literal (text : String) (type : ValueType) :
    EmitsChunks ctx uses targets (literal text type) := by
  refine emits_bind emits_cursor fun _ _ => emits_bind (emits_register _) fun r hr => ?_
  obtain ⟨n, rfl⟩ := hr
  cases type with
  | integer =>
    dsimp only
    split
    · exact emits_plain nofun
    · exact emits_diagnose _
  | real =>
    dsimp only
    split
    · exact emits_plain nofun
    · exact emits_diagnose _

/-- The value of a variable is one load from its place. -/
theorem emits_variableValue (name : String) :
    EmitsChunks ctx uses targets (variableValue name) := by
  refine emits_bind emits_cursor fun _ _ => emits_bind (emits_register _) fun r hr =>
    emits_bind (emits_locate name) fun found hfound => ?_
  obtain ⟨n, rfl⟩ := hr
  split
  · next storage bounds? => exact emits_line (.load n hfound.symm)
  · exact emits_pure trivial

/-! ### Elements -/

theorem lines_elementOffset (r : Reg) (lo : Int) (c : Counters) :
    (elementOffset r lo ctx c).lines = instrLines (offsetInstrs r lo) := by
  unfold elementOffset offsetInstrs
  split
  · rfl
  · split <;> rfl

theorem lines_addPlace (place : Storage) (c : Counters) :
    (addPlace place ctx c).lines = instrLines (placeInstrs place) := by
  cases place with
  | global label => rfl
  | stack offset =>
    simp only [addPlace, bind_apply, placeInstrs]
    split <;> rfl

/-- An access to an element: the index, and the address and the access in one chunk. -/
theorem emits_touch {name : String} {type : ValueType} {index : Lower Unit} {i : Instr}
    (huse : .element name ∈ uses) (h : EmitsChunks ctx uses targets index) (hi : i.Touches) :
    EmitsChunks ctx uses targets
      (elementAddress name type index >>= fun found => if found then emit i else pure ()) := by
  simp only [elementAddress, bind_assoc]
  refine emits_bind (emits_take _) fun _ _ => emits_bind h fun _ _ => emits_bind emits_cursor
    fun _ _ => emits_bind (emits_register _) fun reg hreg => emits_bind (emits_release _)
      fun _ _ => ?_
  obtain ⟨n, rfl⟩ := hreg
  refine emits_bind (emits_convert n _ _) fun _ _ => emits_bind (emits_locate name)
    fun found hfound => ?_
  rcases found with _ | ⟨place, bounds?⟩
  · exact emits_pure trivial
  · intro c
    refine ⟨?_, trivial⟩
    have hlines : ∀ c, ((do
        elementOffset (.s n) ((bounds?.map Bounds.lo).getD 0)
        emit (.sll .t9 .t9 2)
        addPlace place
        emit i) ctx c).lines =
        instrLines (addressInstrs (.s n) (lowerBound bounds?) place ++ [i]) := by
      intro c
      simp only [bind_apply, lines_elementOffset, lines_addPlace, emit_apply, addressInstrs,
        instrLines, lowerBound, List.map_append, List.map_cons, List.map_nil, List.append_assoc,
        List.cons_append, List.nil_append]
    have hchunk : Chunk ctx uses targets _ := .element n huse hfound.symm hi
    rw [← hlines c] at hchunk
    simpa only [bind_assoc, pure_bind, if_true] using hchunk.chunked

/-- The value of an element is that of its index, and an access. -/
theorem emits_elementValue {name : String} {type : ValueType} {index : Lower Unit}
    (huse : .element name ∈ uses) (h : EmitsChunks ctx uses targets index) :
    EmitsChunks ctx uses targets (elementValue name type index) := by
  refine emits_bind emits_cursor fun _ _ => emits_bind (emits_register _) fun r hr => ?_
  obtain ⟨n, rfl⟩ := hr
  exact emits_touch huse h (.load n)

/-! ### Operations -/

theorem emits_operands {left right : Lower Unit} (hl : EmitsChunks ctx uses targets left)
    (hr : EmitsChunks ctx uses targets right) :
    EmitsChunks ctx uses targets (operands left right) :=
  emits_bind (emits_take _) fun _ _ => emits_bind hl fun _ _ => emits_bind (emits_take _)
    fun _ _ => emits_bind hr fun _ _ => emits_release _

theorem emits_integerOperands (a b : Fin 8) (s t : ValueType) :
    EmitsChunks ctx uses targets (integerOperands (.s a) s (.s b) t) :=
  emits_bind (emits_convert _ _ _) fun _ _ => emits_convert _ _ _

/-- Arithmetic is done in integers or in reals, as the type of the operation tells. -/
theorem emits_arithmetic {integer : Lower Unit} (h : EmitsChunks ctx uses targets integer)
    {op : FloatOp} {type : ValueType} {d : Fin 8} {a b : Reg} {s t : ValueType} :
    EmitsChunks ctx uses targets (arithmetic integer op type (.s d) a b s t) := by
  cases type with
  | integer => exact h
  | real =>
    exact emits_bind (emits_floatOperands _ _ _ _) fun _ _ => emits_bind (emits_plain trivial)
      fun _ _ => emits_plain nofun

/-- Every operator is plain instructions on the registers of its operands and its value. Here the
operators are told apart; each case is a short list of instructions. -/
theorem emits_apply (op : BinaryOp) (type : ValueType) (d a b : Fin 8) (s t : ValueType) :
    EmitsChunks ctx uses targets (apply op type (.s d) (.s a) (.s b) s t) := by
  cases op with
  | rel relation =>
    rw [apply, compare]
    split
    · exact emits_plain nofun
    · exact emits_bind (emits_floatOperands _ _ _ _) fun _ _ => emits_bind (emits_plain trivial)
        fun _ _ => emits_bind (emits_plain nofun) fun _ _ => emits_plain nofun
  | and =>
    rw [apply]
    exact emits_bind (emits_integerOperands _ _ _ _) fun _ _ => emits_plain nofun
  | or =>
    rw [apply]
    exact emits_bind (emits_integerOperands _ _ _ _) fun _ _ => emits_plain nofun
  | div =>
    rw [apply]
    exact emits_bind (emits_integerOperands _ _ _ _) fun _ _ => emits_bind (emits_plain trivial)
      fun _ _ => emits_plain nofun
  | mod =>
    rw [apply]
    exact emits_bind (emits_integerOperands _ _ _ _) fun _ _ => emits_bind (emits_plain trivial)
      fun _ _ => emits_plain nofun
  | add =>
    rw [apply]
    refine emits_arithmetic ?_
    exact emits_plain nofun
  | sub =>
    rw [apply]
    refine emits_arithmetic ?_
    exact emits_plain nofun
  | mul =>
    rw [apply]
    refine emits_arithmetic ?_
    exact emits_bind (emits_plain trivial) fun _ _ => emits_plain nofun
  | divide =>
    rw [apply]
    refine emits_arithmetic ?_
    exact emits_bind (emits_plain trivial) fun _ _ => emits_plain nofun

/-- A binary operation is its operands and the operator. It is marked if there are no registers left
for them. -/
theorem emits_binary {op : BinaryOp} {type s t : ValueType} {left right : Lower Unit}
    (hl : EmitsChunks ctx uses targets left) (hr : EmitsChunks ctx uses targets right) :
    EmitsChunks ctx uses targets (binary op type s t left right) := by
  refine emits_bind emits_cursor fun _ _ => emits_bind (emits_operands hl hr) fun _ _ =>
    emits_bind (emits_register _) fun d hd => emits_bind (emits_register _) fun a ha =>
      emits_bind (emits_register _) fun b hb => ?_
  obtain ⟨d, rfl⟩ := hd
  obtain ⟨a, rfl⟩ := ha
  obtain ⟨b, rfl⟩ := hb
  exact emits_apply _ _ _ _ _ _ _

/-- A unary operation is its operand and a few instructions. -/
theorem emits_unary {op : UnaryOp} {type t : ValueType} {operand : Lower Unit}
    (h : EmitsChunks ctx uses targets operand) :
    EmitsChunks ctx uses targets (unary op type t operand) := by
  refine emits_bind emits_cursor fun _ _ => emits_bind (emits_take _) fun _ _ => emits_bind h
    fun _ _ => emits_bind (emits_release _) fun _ _ => emits_bind (emits_register _) fun d hd =>
      emits_bind (emits_register _) fun v hv => ?_
  obtain ⟨d, rfl⟩ := hd
  obtain ⟨v, rfl⟩ := hv
  split
  · exact emits_plain nofun
  · exact emits_bind (emits_plain trivial) fun _ _ => emits_bind (emits_plain trivial) fun _ _ =>
      emits_plain nofun
  · exact emits_bind (emits_convert _ _ _) fun _ _ => emits_plain nofun

/-! ### Calls -/

/-- Arguments are passed by plain moves. -/
theorem emits_passArguments (i : Nat) {rs : List Reg} (hrs : ∀ r ∈ rs, r ∈ Reg.arguments) :
    EmitsChunks ctx uses targets (passArguments i rs) := by
  induction rs generalizing i with
  | nil => exact emits_pure trivial
  | cons r rs ih =>
    obtain ⟨hr, hrs⟩ := List.forall_mem_cons.1 hrs
    refine emits_bind (emits_register _) fun _ _ => emits_bind (emits_plain ?_) fun _ _ =>
      ih (i + 1) hrs
    rintro rfl
    revert hr
    decide

/-- A call is its arguments, the moves that pass them, and a jump that is recorded as a use of the
name. -/
theorem emits_call {name : String} {count : Nat} {arguments : List ValueType → Lower Unit}
    (huse : .call name count ∈ uses)
    (h : ∀ params, EmitsChunks ctx uses targets (arguments params)) :
    EmitsChunks ctx uses targets (call name count arguments) := by
  refine fun c => ⟨?_, trivial⟩
  cases hcallee : ctx.callee? name count with
  | none =>
    obtain ⟨d, hd⟩ := call_of_none (c := c) arguments hcallee
    rw [hd]
    exact (Chunk.mark d).chunked
  | some callee =>
    rw [call_of_some arguments hcallee]
    have hpass : EmitsChunks ctx uses targets
        (passArguments (c.cursor + 1) (Reg.arguments.take count)) :=
      emits_passArguments _ fun _ hr => List.mem_of_mem_take hr
    exact (h _ c).1.append ((hpass _).1.append (Chunk.call huse hcallee).chunked)

/-- A call for a value also moves the result to the register of the value. -/
theorem emits_callValue {name : String} {count : Nat} {arguments : List ValueType → Lower Unit}
    (huse : .call name count ∈ uses)
    (h : ∀ params, EmitsChunks ctx uses targets (arguments params)) :
    EmitsChunks ctx uses targets (callValue name count arguments) := by
  refine emits_bind (emits_call huse h) fun made _ => ?_
  cases made with
  | false => exact emits_pure trivial
  | true =>
    refine emits_bind emits_cursor fun _ _ => emits_bind (emits_register _) fun r hr => ?_
    obtain ⟨n, rfl⟩ := hr
    exact emits_plain nofun

end Lower

namespace Expr

open Lower

variable {ctx : Context} {uses : List Use} {targets : Label → Prop}

mutual

/-- Code for expressions comes in chunks. -/
theorem emits_lower : ∀ {e : Expr}, (∀ u ∈ e.uses, u ∈ uses) → EmitsChunks ctx uses targets e.lower
  | literal .., _ => by
    rw [lower]
    exact emits_literal _ _
  | var .., _ => by
    rw [lower]
    exact emits_variableValue _
  | element name _ index, h => by
    rw [Expr.uses] at h
    obtain ⟨huse, hindex⟩ := List.forall_mem_cons.1 h
    rw [lower]
    exact emits_elementValue huse (emits_lower hindex)
  | call name _ args, h => by
    rw [Expr.uses] at h
    obtain ⟨huse, hargs⟩ := List.forall_mem_cons.1 h
    rw [lower]
    exact emits_callValue huse fun params => emits_lowerArgs args params hargs
  | binary op left right type, h => by
    rw [Expr.uses] at h
    obtain ⟨hleft, hright⟩ := List.forall_mem_append.1 h
    rw [lower]
    exact emits_binary (emits_lower hleft) (emits_lower hright)
  | unary op operand type, h => by
    rw [Expr.uses] at h
    rw [lower]
    exact emits_unary (emits_lower h)

/-- Arguments are evaluated one after the other, each converted to the type of its parameter. -/
theorem emits_lowerArgs : ∀ (args : List Expr) (params : List ValueType),
    (∀ u ∈ usesAll args, u ∈ uses) → EmitsChunks ctx uses targets (lowerArgs args params)
  | [], _, _ => by
    rw [lowerArgs]
    exact emits_pure trivial
  | _ :: _, [], _ => by
    rw [lowerArgs]
    exact emits_pure trivial
  | arg :: args, param :: params, h => by
    rw [usesAll] at h
    obtain ⟨harg, hargs⟩ := List.forall_mem_append.1 h
    rw [lowerArgs]
    refine emits_bind (emits_take _) fun _ _ => emits_bind (emits_lower harg) fun _ _ =>
      emits_bind emits_cursor fun _ _ => emits_bind (emits_register _) fun r hr => ?_
    obtain ⟨n, rfl⟩ := hr
    exact emits_bind (emits_convert _ _ _) fun _ _ => emits_lowerArgs args params hargs

end

end Expr

/-! ## Statements -/

namespace Lower

variable {ctx : Context} {uses : List Use} {targets : Label → Prop}

/-- A value is stored in the place of a variable or of an element. -/
theorem emits_store {target : Target} {r : Reg} (h : ∀ u ∈ target.uses, u ∈ uses)
    (hr : ∃ n, r = .s n) : EmitsChunks ctx uses targets (store target r) := by
  obtain ⟨n, rfl⟩ := hr
  cases target with
  | var name type =>
    refine emits_bind (emits_locate name) fun found hfound => ?_
    rcases found with _ | ⟨place, bounds?⟩
    · exact emits_pure trivial
    · exact emits_line (.store _ hfound.symm)
  | element name type index =>
    obtain ⟨huse, hindex⟩ := List.forall_mem_cons.1 h
    exact emits_touch huse (Expr.emits_lower hindex) (.store n)

/-- An assignment is a value and a store. -/
theorem emits_assign {target : Target} {value : Expr} (hvalue : ∀ u ∈ value.uses, u ∈ uses)
    (htarget : ∀ u ∈ target.uses, u ∈ uses) :
    EmitsChunks ctx uses targets (assign target value) := by
  refine emits_bind (Expr.emits_lower hvalue) fun _ _ => emits_bind emits_cursor fun _ _ =>
    emits_bind (emits_register _) fun r hr => ?_
  obtain ⟨n, rfl⟩ := hr
  exact emits_bind (emits_convert _ _ _) fun _ _ => emits_store htarget ⟨n, rfl⟩

theorem emits_callService (service : Service) :
    EmitsChunks ctx uses targets (callService service) :=
  emits_bind (emits_plain nofun) fun _ _ => emits_plain trivial

/-- A word that is read is moved to a register and stored. -/
theorem emits_read {target : Target} (h : ∀ u ∈ target.uses, u ∈ uses) :
    EmitsChunks ctx uses targets (read target) := by
  refine emits_bind emits_cursor fun _ _ => emits_bind (emits_register _) fun r hr => ?_
  obtain ⟨n, rfl⟩ := hr
  split
  · exact emits_bind (emits_callService _) fun _ _ => emits_bind (emits_plain nofun) fun _ _ =>
      emits_store h ⟨n, rfl⟩
  · exact emits_bind (emits_callService _) fun _ _ => emits_bind (emits_plain nofun) fun _ _ =>
      emits_store h ⟨n, rfl⟩

theorem emits_write {value : Expr} (h : ∀ u ∈ value.uses, u ∈ uses) :
    EmitsChunks ctx uses targets (write value) := by
  have hprint (r : Reg) (t : ValueType) : EmitsChunks ctx uses targets (printValue r t) := by
    cases t with
    | integer => exact emits_bind (emits_plain nofun) fun _ _ => emits_callService _
    | real => exact emits_bind (emits_plain trivial) fun _ _ => emits_callService _
  exact emits_bind (Expr.emits_lower h) fun _ _ => emits_bind emits_cursor fun _ _ =>
    emits_bind (emits_register _) fun _ _ => emits_bind (hprint _ _) fun _ _ =>
      emits_bind (emits_plain nofun) fun _ _ => emits_callService _

/-- A test ends in one jump to the given label. A comparison of integers is made by the jump itself.
-/
theorem emits_branchUnless {test : Expr} {l : Label} (h : ∀ u ∈ test.uses, u ∈ uses)
    (hl : targets l) : EmitsChunks ctx uses targets (branchUnless test l) := by
  unfold branchUnless
  split
  · next relation left right type =>
    rw [Expr.uses] at h
    obtain ⟨hleft, hright⟩ := List.forall_mem_append.1 h
    refine emits_bind emits_cursor fun _ _ =>
      emits_bind (emits_operands (Expr.emits_lower hleft) (Expr.emits_lower hright)) fun _ _ =>
        emits_bind (emits_register _) fun _ _ => emits_bind (emits_register _) fun _ _ => ?_
    split
    · exact emits_line (.jump rfl hl)
    · exact emits_bind (emits_floatOperands _ _ _ _) fun _ _ => emits_bind (emits_plain trivial)
        fun _ _ => emits_line (.jump rfl hl)
  · refine emits_bind (Expr.emits_lower h) fun _ _ => emits_bind emits_cursor fun _ _ =>
      emits_bind (emits_register _) fun r hr => ?_
    obtain ⟨n, rfl⟩ := hr
    exact emits_bind (emits_convert _ _ _) fun _ _ => emits_bind (emits_plain nofun) fun _ _ =>
      emits_line (.jump rfl hl)

/-- The code comes in chunks and jumps to its own labels. -/
def Closed (ctx : Context) (uses : List Use) (x : Lower Unit) : Prop :=
  ∀ c, Chunked ctx uses (· ∈ labelsOf (x ctx c).lines) (x ctx c).lines

/-- Code that is in chunks whatever its targets has no jumps, so it is closed. -/
theorem closed_of_emits {x : Lower Unit} (h : ∀ targets, EmitsChunks ctx uses targets x) :
    Closed ctx uses x := fun c => (h _ c).1

/-- Closed code, one piece after the other, is closed: more labels do no harm. -/
theorem closed_bind {x y : Lower Unit} (hx : Closed ctx uses x) (hy : Closed ctx uses y) :
    Closed ctx uses (x >>= fun _ => y) := by
  intro c
  rw [bind_apply, labelsOf_append]
  exact ((hx c).mono fun _ => List.mem_append_left _).append
    ((hy _).mono fun _ => List.mem_append_right _)

/-- A choice jumps to the two labels that it draws, and its branches to their own. -/
theorem closed_branch {test : Expr} {yes no : Lower Unit} (htest : ∀ u ∈ test.uses, u ∈ uses)
    (hyes : Closed ctx uses yes) (hno : Closed ctx uses no) :
    Closed ctx uses (branch test yes no) := by
  intro c
  obtain ⟨c₁, c₂, c₃, hlines⟩ := lines_branch test yes no ctx c
  rw [hlines]
  refine (emits_branchUnless htest (mem_labelsOf.2 ?_) c₁).1.append (((hyes c₂).mono ?_).append
    (.cons (.jump rfl (mem_labelsOf.2 ?_)) (.cons (.label _)
      (((hno c₃).mono ?_).append (Chunk.label _).chunked))))
  · simp
  · intro l hl
    simp [hl]
  · simp
  · intro l hl
    rw [mem_labelsOf] at hl ⊢
    simp [hl]

/-- A loop jumps to the two labels that it draws, and its body to its own. -/
theorem closed_loop {test : Expr} {body : Lower Unit} (htest : ∀ u ∈ test.uses, u ∈ uses)
    (hbody : Closed ctx uses body) : Closed ctx uses (loop test body) := by
  intro c
  obtain ⟨c₁, c₂, hlines⟩ := lines_loop test body ctx c
  rw [hlines]
  refine .cons (.label _) ((emits_branchUnless htest (mem_labelsOf.2 ?_) c₁).1.append
    (((hbody c₂).mono ?_).append (.cons (.jump rfl (mem_labelsOf.2 ?_)) (Chunk.label _).chunked)))
  · simp
  · intro l hl
    rw [mem_labelsOf] at hl ⊢
    simp [hl]
  · simp

end Lower

namespace Statement

open Lower

variable {ctx : Context} {uses : List Use}

mutual

/-- The code of every statement is closed, by induction over statements. -/
theorem closed_lower : ∀ {s : Statement}, (∀ u ∈ s.uses, u ∈ uses) → Closed ctx uses s.lower
  | assign target value, h => by
    rw [Statement.uses] at h
    obtain ⟨hvalue, htarget⟩ := List.forall_mem_append.1 h
    rw [lower]
    exact closed_of_emits fun _ => emits_assign hvalue htarget
  | compound body, h => by
    rw [Statement.uses] at h
    rw [lower]
    exact closed_lowerAll h
  | branch test yes no, h => by
    rw [Statement.uses] at h
    obtain ⟨htest, h⟩ := List.forall_mem_append.1 h
    obtain ⟨hyes, hno⟩ := List.forall_mem_append.1 h
    rw [lower]
    exact closed_branch htest (closed_lower hyes) (closed_lower hno)
  | loop test body, h => by
    rw [Statement.uses] at h
    obtain ⟨htest, hbody⟩ := List.forall_mem_append.1 h
    rw [lower]
    exact closed_loop htest (closed_lower hbody)
  | call name args, h => by
    rw [Statement.uses] at h
    obtain ⟨huse, hargs⟩ := List.forall_mem_cons.1 h
    rw [lower]
    exact closed_of_emits fun _ => emits_bind
      (emits_call huse fun params => Expr.emits_lowerArgs args params hargs)
      fun _ _ => emits_pure trivial
  | read target, h => by
    rw [Statement.uses] at h
    rw [lower]
    exact closed_of_emits fun _ => emits_read h
  | write value, h => by
    rw [Statement.uses] at h
    rw [lower]
    exact closed_of_emits fun _ => emits_write h

/-- Code for statements comes in chunks and jumps to its own labels. -/
theorem closed_lowerAll : ∀ {ss : List Statement}, (∀ u ∈ usesAll ss, u ∈ uses) →
    Closed ctx uses (lowerAll ss)
  | [], _ => by
    rw [lowerAll]
    exact closed_of_emits fun _ => emits_pure trivial
  | s :: ss, h => by
    rw [usesAll] at h
    obtain ⟨hs, hss⟩ := List.forall_mem_append.1 h
    rw [lowerAll]
    exact closed_bind (closed_lower hs) (closed_lowerAll hss)

end

end Statement

end PascalMips
