import PascalMips.Proofs.Lower.Effects
import PascalMips.Proofs.Program.Labels

/-!
# The stack while calls have not returned

Above the frame of a routine stand the registers that it found when it was called, and above them
the frame of the part that called it (`Program.Stack`). The head of a routine makes this so
(`Program.Entered.standing`), the code of a body writes to its own frame and to data alone and keeps
it so (`Program.Stack.writes`), and the tail brings the registers back
(`Program.Standing.tail_cases`).
-/

namespace PascalMips

/-! ## Bodies as chunks -/

section Chunks

variable {ctx : Context} {uses : List Use} {targets : Label → Prop} {xs : List Line}

theorem Chunk.length_pos (h : Chunk ctx uses targets xs) : 0 < xs.length := by
  cases h with
  | element n huse hplace hi => simp [instrLines]
  | _ => exact Nat.one_pos

/-- A label is a chunk of its own. -/
theorem Chunk.eq_of_label_mem (h : Chunk ctx uses targets xs) {l : Label} (hl : .label l ∈ xs) :
    xs = [.label l] := by
  cases h with
  | element n huse hplace hi =>
    obtain ⟨i, -, heq⟩ := List.mem_map.1 hl
    cases heq
  | _ => rw [List.mem_singleton.1 hl]

end Chunks

namespace Part

variable {part : Part} {a b : List (List Line)} {xs : List Line}

/-- The body of the part is the chunks `a` and after them the chunks `b`. -/
structure Cut (part : Part) (a b : List (List Line)) : Prop where
  chunk : ∀ xs ∈ a ++ b, Chunk part.context part.uses (· ∈ labelsOf part.body) xs
  body : (a ++ b).flatten = part.body

/-- The line of the part on which its body goes on after the chunks `a`. -/
def offset (part : Part) (a : List (List Line)) : Nat := part.head.length + a.flatten.length

theorem offset_append_singleton (part : Part) (a : List (List Line)) (xs : List Line) :
    part.offset (a ++ [xs]) = part.offset a + xs.length := by
  simp only [offset, List.flatten_append, List.flatten_singleton, List.length_append, Nat.add_assoc]

namespace Cut

/-- Past its first chunk, the rest of a body is cut one chunk later. -/
theorem next (h : part.Cut a (xs :: b)) : part.Cut (a ++ [xs]) b := by
  constructor
  · rw [← List.append_cons]
    exact h.chunk
  · rw [← List.append_cons]
    exact h.body

theorem head (h : part.Cut a (xs :: b)) :
    Chunk part.context part.uses (· ∈ labelsOf part.body) xs :=
  h.chunk xs (List.mem_append_right _ List.mem_cons_self)

/-- The chunk stands on the lines from its offset on. -/
theorem drop_offset (h : part.Cut a (xs :: b)) : xs <+: part.lines.drop (part.offset a) := by
  have hlines : part.lines = (part.head ++ a.flatten) ++ (xs ++ (b.flatten ++ part.tail)) := by
    rw [Part.lines, ← h.body, List.flatten_append, List.flatten_cons]
    simp only [List.append_assoc]
  rw [hlines, List.drop_left' (by rw [List.length_append]; rfl)]
  exact List.prefix_append _ _

/-- The lines of the chunk at a cut are those of the part from there on. -/
theorem getElem? (h : part.Cut a (xs :: b)) {k : Nat} {line : Line} (hk : xs[k]? = some line) :
    part.lines[part.offset a + k]? = some line := by
  obtain ⟨rest, hrest⟩ := h.drop_offset
  rw [← List.getElem?_drop, ← hrest,
    List.getElem?_append_left (List.getElem?_eq_some_iff.1 hk).1, hk]

theorem offset_nil (h : part.Cut a []) :
    part.offset a = part.head.length + part.body.length := by
  rw [← h.body, List.append_nil]
  rfl

/-- A label of the body is a chunk of its own. -/
theorem exists_label (h : part.Cut a b) {l : Label} (hl : l ∈ labelsOf part.body) :
    ∃ a' b', part.Cut a' ([.label l] :: b') := by
  rw [mem_labelsOf, ← h.body] at hl
  obtain ⟨xs, hxs, hl⟩ := List.mem_flatten.1 hl
  obtain ⟨a', b', hsplit⟩ := List.append_of_mem hxs
  obtain rfl := (h.chunk xs hxs).eq_of_label_mem hl
  exact ⟨a', b', hsplit ▸ h.chunk, hsplit ▸ h.body⟩

end Cut

theorem getElem?_tail (part : Part) (k : Nat) :
    part.lines[part.head.length + part.body.length + k]? = part.tail[k]? := by
  rw [Part.lines, ← List.append_assoc, ← List.length_append, List.getElem?_append_right (by omega)]
  congr 1
  omega

end Part

/-! ## Heads and tails of routines -/

theorem isStraight_of_mem_moveLines {amount : Int} {line : Line}
    (h : line ∈ Lower.moveLines amount) : line.IsStraight := by
  rw [mem_moveLines h]
  trivial

/-- The lines that do something with the save area, and move the stack pointer before and after. -/
theorem isStraight_of_mem_saved (action : Reg → Address → Instr)
    (haction : ∀ reg address, (action reg address).IsStraight) {regs : List Reg}
    {before after : Int} {line : Line}
    (h : line ∈ Lower.moveLines before ++ (Lower.savedLines action 0 regs ++
      Lower.moveLines after)) : line.IsStraight := by
  rcases List.mem_append.1 h with h | h
  · exact isStraight_of_mem_moveLines h
  · rcases List.mem_append.1 h with h | h
    · obtain ⟨reg, offset, rfl⟩ := mem_savedLines h
      exact haction reg _
    · exact isStraight_of_mem_moveLines h

namespace Routine

variable {r : Routine} {f : Frame}

/-- The head of a routine with a frame is its label and the prologue. -/
theorem head_of_ok (h : r.layout = .ok f) (c : Counters) :
    (r.part c).head = .label r.start :: Lower.prologueLines f := by
  unfold part
  rw [h]

/-- The tail of a routine with a frame restores what was saved and returns. -/
theorem tail_of_ok (h : r.layout = .ok f) (c : Counters) :
    (r.part c).tail = Lower.restoreLines f ++ [.instr (.jr .ra)] := by
  unfold part
  rw [h]
  exact Lower.epilogueLines_eq f

/-- A routine without a frame has no body and returns at once. -/
theorem part_of_error (h : r.layout = .error f) (c : Counters) :
    (r.part c).head = [.mark (.frameTooLarge r.sub.name), .label r.start] ∧
      (r.part c).body = [] ∧ (r.part c).tail = [.instr (.jr .ra)] := by
  unfold part
  rw [h]
  exact ⟨rfl, rfl, rfl⟩

/-- The head of a routine goes from line to line. -/
theorem isStraight_head (r : Routine) (c : Counters) :
    ∀ line ∈ (r.part c).head, line.IsStraight := by
  intro line hline
  cases hlayout : r.layout with
  | ok f =>
    rw [head_of_ok hlayout] at hline
    rcases List.mem_cons.1 hline with rfl | hline
    · trivial
    · exact isStraight_of_mem_saved .sw (fun _ _ => trivial) hline
  | error f =>
    rw [(part_of_error hlayout c).1] at hline
    simp only [List.mem_cons, List.not_mem_nil, or_false] at hline
    rcases hline with rfl | rfl <;> trivial

/-- The start of a routine is found in its head, after lines that do nothing. -/
theorem exists_start (r : Routine) (c : Counters) : ∃ k,
    (r.part c).head[k]? = some (.label r.start) ∧
      ∀ (p : Image) (m : Machine), p.run? ((r.part c).head.take k) m = some m := by
  cases hlayout : r.layout with
  | ok f =>
    rw [head_of_ok hlayout]
    exact ⟨0, rfl, fun _ _ => rfl⟩
  | error f =>
    rw [(part_of_error hlayout c).1]
    exact ⟨1, rfl, fun _ _ => rfl⟩

end Routine

/-! ## Data -/

/-- The words that a line of data reserves. -/
def Line.dataWords (image : Image) : Line → List Word
  | word l => [image.data l]
  | words l count => (List.range count).map fun i => image.data l + BitVec.ofNat 32 (4 * i)
  | _ => []

/-- The words of the data of a program. -/
def Image.dataWords (image : Image) : List Word := image.lines.flatMap (Line.dataWords image)

namespace Program

section Definitions

variable (p : Program) (symbols : SymbolTable) (image : Image)

/-- The part stands on the lines from `line` on. -/
def Starts (line : Nat) (part : Part) : Prop :=
  ∃ before after, p.parts symbols = before ++ part :: after ∧ line = p.lineOf before

/-! ## Stacks -/

/-- The call was made in the body of `caller`, to `callee`. -/
inductive Made (caller callee : Part) (call : Call) : Prop
  | intro {line : Nat} {a b : List (List Line)} (hstarts : p.Starts symbols line caller)
      (hcut : caller.Cut a ([.instr (.jal callee.start)] :: b))
      (hpc : call.pc = line + caller.offset a)

/-- The stack from `sp` on, in the body of a part, while `calls` have not returned: above the frame
of a routine are the registers that it found, and above them the frame of the part that called
it. -/
inductive Stack (top : Int) (memory : Word → Word) : Part → Int → List Call → Prop
  | main : Stack top memory (p.mainPart symbols) top []
  | routine {r : Routine} {f : Frame} {c : Counters} {call : Call} {calls : List Call}
      {caller : Part} {sp : Int} (hr : r ∈ p.routines symbols) (hlayout : r.layout = .ok f)
      (hmade : p.Made symbols caller (r.part c) call)
      (hsp : (call.machine.read .sp).toInt = sp + f.size + saveAreaSize)
      (hsaved : Lower.Saves memory (sp + f.size) (call.entered image))
      (hstack : Stack top memory caller (call.machine.read .sp).toInt calls) :
      Stack top memory (r.part c) sp (call :: calls)

/-- The part has just been entered. -/
inductive Entered (top : Int) : Part → Machine → List Call → Prop
  | main {m : Machine} (hsp : (m.read .sp).toInt = top) : Entered top (p.mainPart symbols) m []
  | routine {r : Routine} {c : Counters} {call : Call} {calls : List Call} {caller : Part}
      (hr : r ∈ p.routines symbols) (hmade : p.Made symbols caller (r.part c) call)
      (hstack : p.Stack symbols image top call.machine.memory caller
        (call.machine.read .sp).toInt calls) :
      Entered top (r.part c) (call.entered image) (call :: calls)

/-- The part is between its head and its tail: it has a frame, or is one that could not be laid out
and is as it was entered. -/
inductive Standing (top : Int) : Part → Machine → List Call → Prop
  | framed {part : Part} {m : Machine} {calls : List Call}
      (h : p.Stack symbols image top m.memory part (m.read .sp).toInt calls) :
      Standing top part m calls
  | oversized {r : Routine} {f : Frame} {c : Counters} {call : Call} {calls : List Call}
      {caller : Part} (hr : r ∈ p.routines symbols) (hlayout : r.layout = .error f)
      (hmade : p.Made symbols caller (r.part c) call)
      (hstack : p.Stack symbols image top call.machine.memory caller
        (call.machine.read .sp).toInt calls) :
      Standing top (r.part c) (call.entered image) (call :: calls)

/-- The part is about to return from the last call. -/
inductive Ready (top : Int) (m : Machine) : Part → List Call → Prop
  | intro {r : Routine} {c : Counters} {call : Call} {calls : List Call} {caller : Part}
      (hr : r ∈ p.routines symbols) (hmade : p.Made symbols caller (r.part c) call)
      (hra : m.read .ra = image.address (call.pc + 1))
      (hsp : m.read .sp = call.machine.read .sp)
      (hpool : ∀ i, m.read (.s i) = call.machine.read (.s i))
      (hstack : p.Stack symbols image top m.memory caller (m.read .sp).toInt calls) :
      Ready top m (r.part c) (call :: calls)

end Definitions

variable {p : Program} {symbols : SymbolTable} {image : Image} {top sp : Int}
  {memory memory' : Word → Word} {part : Part} {calls : List Call} {line : Nat} {m m' : Machine}

theorem Starts.mem_parts (h : p.Starts symbols line part) : part ∈ p.parts symbols := by
  obtain ⟨before, after, hsplit, -⟩ := h
  rw [hsplit]
  exact List.mem_append_right _ List.mem_cons_self

theorem exists_starts (h : part ∈ p.parts symbols) : ∃ line, p.Starts symbols line part := by
  obtain ⟨before, after, hsplit⟩ := List.append_of_mem h
  exact ⟨_, before, after, hsplit, rfl⟩

/-- A part is found in the image on the lines where it stands. -/
theorem Starts.has (h : p.Starts symbols line part) (hat : (p.context symbols).At p symbols [])
    (himage : image.lines = p.assembly symbols) : image.Has line part.lines := by
  obtain ⟨before, after, hsplit, rfl⟩ := h
  exact has_part hat himage hsplit

/-- A label of a part is found on the line of the part that defines it, since no label is defined
twice. -/
theorem Starts.find? (h : p.Starts symbols line part) (hat : (p.context symbols).At p symbols [])
    (hwords : p.Words) (himage : image.lines = p.assembly symbols) {k : Nat} {l : Label}
    (hk : part.lines[k]? = some (.label l)) : image.find? l = some (line + k) := by
  obtain ⟨before, after, hsplit, rfl⟩ := h
  exact find?_label hat hwords himage hsplit hk

/-! ### The stack and memory -/

namespace Stack

/-- The frame ends below the top of the stack. -/
theorem le_top (h : p.Stack symbols image top memory part sp calls) : sp + part.size ≤ top := by
  induction h with
  | main => exact Int.le_of_eq (Int.add_zero top)
  | routine hr hlayout hmade hsp hsaved hstack ih =>
    rw [Routine.size_part, Routine.frame_of_ok hlayout]
    omega

/-- The stack depends on the memory above the frame alone. -/
theorem congr (h : p.Stack symbols image top memory part sp calls)
    (hmemory : ∀ a, sp + part.size ≤ a → a < top →
      memory' (BitVec.ofInt 32 a) = memory (BitVec.ofInt 32 a)) :
    p.Stack symbols image top memory' part sp calls := by
  induction h with
  | main => exact .main
  | @routine r f c call calls caller sp hr hlayout hmade hsp hsaved hstack ih =>
    rw [Routine.size_part, Routine.frame_of_ok hlayout] at hmemory
    have htop := hstack.le_top
    have hsize : saveAreaSize = 36 := rfl
    refine .routine hr hlayout hmade hsp (fun j reg hj => ?_) (ih fun a hle hlt => ?_)
    · have hlt : j < 9 := (List.getElem?_eq_some_iff.1 hj).1
      rw [← hsaved j reg hj]
      refine hmemory _ ?_ ?_ <;> simp only [wordSize] <;> omega
    · exact hmemory a (by omega) hlt

end Stack

/-- The words of a global variable are words of the data. -/
theorem mem_dataWords_of_mem_parts (hat : (p.context symbols).At p symbols [])
    (himage : image.lines = p.assembly symbols) (hpart : part ∈ p.parts symbols) {x : String}
    {l : Label} {bounds? : Option Bounds} {d : Nat}
    (hplace : part.context.place? x = some (.global l, bounds?)) (hd : d < wordsOf bounds?) :
    BitVec.ofInt 32 ((image.data l).toInt + 4 * d) ∈ image.dataWords := by
  have hline : Generator.dataLine l bounds? ∈ image.lines := by
    rw [himage, assembly_eq hat]
    exact List.mem_append_left _ (List.mem_cons_of_mem _
      (dataLine_mem_of_mem_parts hat hpart hplace))
  have hword : BitVec.ofInt 32 ((image.data l).toInt + 4 * d) =
      image.data l + BitVec.ofNat 32 (4 * d) := by
    rw [BitVec.ofInt_add, BitVec.ofInt_toInt, ← BitVec.ofInt_natCast]
    rfl
  refine List.mem_flatMap.2 ⟨_, hline, ?_⟩
  rw [hword]
  cases bounds? with
  | none =>
    obtain rfl : d = 0 := Nat.lt_one_iff.1 hd
    rw [Nat.mul_zero, BitVec.add_zero]
    exact List.mem_singleton_self _
  | some bounds => exact List.mem_map.2 ⟨d, List.mem_range.2 hd, rfl⟩

/-- What the code of a body writes keeps the stack. -/
theorem Stack.writes (h : p.Stack symbols image top m.memory part (m.read .sp).toInt calls)
    (hat : (p.context symbols).At p symbols []) (himage : image.lines = p.assembly symbols)
    (hpart : part ∈ p.parts symbols) (htop : top < 2147483648)
    (hapart : ∀ w ∈ image.dataWords, ¬((m.read .sp).toInt ≤ w.toInt ∧ w.toInt < top))
    (hwrites : part.context.Writes image m m') :
    p.Stack symbols image top m'.memory part (m'.read .sp).toInt calls := by
  rw [hwrites.sp]
  rcases hwrites.memory with heq | ⟨x, place, bounds?, w, d, hplace, hd, heq⟩
  · rw [heq]
    exact h
  · have hlow := (m.read .sp).le_toInt
    refine h.congr fun a hle hlt => ?_
    rw [heq]
    refine Function.update_of_ne (fun hsame => ?_) _ _
    cases place with
    | global l =>
      have hdata := mem_dataWords_of_mem_parts hat himage hpart hplace hd
      have hbase : Storage.base image m (.global l) = (image.data l).toInt := Int.add_zero _
      rw [hbase] at hsame
      refine hapart _ hdata ?_
      rw [← hsame, toInt_ofInt ⟨by omega, by omega⟩]
      omega
    | stack offset =>
      obtain ⟨hoffset, hsize⟩ := stack_le_size_of_mem_parts hat hpart hplace
      have hbase : Storage.base image m (.stack offset) = (m.read .sp).toInt + offset := rfl
      rw [hbase] at hsame
      exact ofInt_ne (by omega) (by omega) hsame.symm

/-! ## Heads and tails -/

/-- The head of every part goes from line to line. -/
theorem isStraight_head (h : part ∈ p.parts symbols) : ∀ line ∈ part.head, line.IsStraight := by
  rcases of_mem_parts h with rfl | ⟨r, -, c, rfl⟩
  · intro line hline
    simp only [mainPart, List.mem_cons, List.not_mem_nil, or_false] at hline
    rcases hline with rfl | rfl | rfl <;> trivial
  · exact r.isStraight_head c

/-- Every part has a tail: the exit service or a return. -/
theorem length_tail_pos (h : part ∈ p.parts symbols) : 0 < part.tail.length := by
  rcases of_mem_parts h with rfl | ⟨r, -, c, rfl⟩
  · exact Nat.two_pos
  · cases hlayout : r.layout with
    | ok f =>
      rw [Routine.tail_of_ok hlayout, List.length_append]
      exact Nat.succ_pos _
    | error f =>
      rw [(Routine.part_of_error hlayout c).2.2]
      exact Nat.one_pos

/-- A frame that could be laid out is smaller than half of the address space. -/
theorem size_lt_of_mem_routines (hat : (p.context symbols).At p symbols []) {r : Routine}
    (hr : r ∈ p.routines symbols) {f : Frame} (hlayout : r.layout = .ok f) :
    f.size < 2147483648 := by
  obtain ⟨_, _, _, _, _, _, _, _, hholds⟩ := (stands_of_mem_routines hat hr).holds
  rw [← Routine.frame_of_ok hlayout]
  exact hholds.fits

/-- The head of a part makes its frame. -/
theorem Entered.standing (h : p.Entered symbols image top part m calls)
    (hat : (p.context symbols).At p symbols []) (htop : top < 2147483648)
    (hrun : image.run? part.head m = some m') : p.Standing symbols image top part m' calls := by
  cases h with
  | main hsp =>
    cases hrun
    refine .framed ?_
    rw [hsp]
    exact .main
  | @routine r c call calls caller hr hmade hstack =>
    cases hlayout : r.layout with
    | ok f =>
      rw [Routine.head_of_ok hlayout] at hrun
      obtain ⟨m₁, hlabel, hrun⟩ := Image.run?_cons.1 hrun
      cases hlabel
      obtain ⟨hsp, hsaved, hmemory⟩ :=
        Lower.run?_prologueLines (size_lt_of_mem_routines hat hr hlayout) hrun
      have hentered : (call.entered image).read .sp = call.machine.read .sp :=
        Machine.read_write_of_ne _ (by decide)
      rw [hentered] at hsp hmemory
      refine .framed (.routine hr hlayout hmade hsp hsaved (hstack.congr fun a hle hlt => ?_))
      exact hmemory a (by omega) (by omega)
    | error f =>
      rw [(Routine.part_of_error hlayout c).1] at hrun
      cases hrun
      exact .oversized hr hlayout hmade hstack

/-- A part with a body has a frame. -/
theorem Standing.stack (h : p.Standing symbols image top part m calls) (hbody : part.body ≠ []) :
    p.Stack symbols image top m.memory part (m.read .sp).toInt calls := by
  cases h with
  | framed h => exact h
  | oversized hr hlayout hmade hstack =>
    exact absurd (Routine.part_of_error hlayout _).2.1 hbody

/-- A routine that was not given a frame returns at once. -/
theorem ready_of_oversized {r : Routine} {c : Counters} {call : Call} {caller : Part}
    (hr : r ∈ p.routines symbols) (hmade : p.Made symbols caller (r.part c) call)
    (hstack : p.Stack symbols image top call.machine.memory caller
      (call.machine.read .sp).toInt calls) :
    p.Ready symbols image top (call.entered image) (r.part c) (call :: calls) := by
  have hsp : (call.entered image).read .sp = call.machine.read .sp :=
    Machine.read_write_of_ne _ (by decide)
  refine .intro hr hmade (Machine.read_write_self _ (by decide)) hsp
    (fun i => Machine.read_write_of_ne _ nofun) ?_
  rw [hsp]
  exact hstack

/-- The tail of a part is straight up to its last line: the exit service, or the return. -/
theorem Standing.tail_cases (h : p.Standing symbols image top part m calls)
    (hat : (p.context symbols).At p symbols []) {k : Nat} {line : Line}
    (hk : part.tail[k]? = some line) (hrun : image.run? (part.tail.take k) m = some m') :
    line.IsStraight ∧ k + 1 < part.tail.length ∨
      line = .instr .syscall ∧ m'.read .v0 = BitVec.ofInt 32 10 ∨
      line = .instr (.jr .ra) ∧ p.Ready symbols image top m' part calls := by
  cases h with
  | oversized hr hlayout hmade hstack =>
    rename_i c call calls caller
    rw [(Routine.part_of_error hlayout c).2.2] at hk hrun
    cases k with
    | zero =>
      cases hk
      cases hrun
      exact .inr (.inr ⟨rfl, ready_of_oversized hr hmade hstack⟩)
    | succ k => cases hk
  | framed h =>
    cases h with
    | main =>
      rcases k with _ | _ | k
      · cases hk
        exact .inl ⟨trivial, Nat.one_lt_two⟩
      · cases hk
        cases hrun
        exact .inr (.inl ⟨rfl, Machine.read_write_self _ (by decide)⟩)
      · cases hk
    | @routine r f c call calls caller _ hr hlayout hmade hsp hsaved hstack =>
      rw [Routine.tail_of_ok hlayout] at hk hrun ⊢
      rw [List.length_append]
      by_cases hlt : k < (Lower.restoreLines f).length
      · refine .inl ⟨?_, Nat.succ_lt_succ hlt⟩
        rw [List.getElem?_append_left hlt] at hk
        exact isStraight_of_mem_saved .lw (fun _ _ => trivial) (List.mem_of_getElem? hk)
      · obtain rfl : k = (Lower.restoreLines f).length := by
          have := (List.getElem?_eq_some_iff.1 hk).1
          rw [List.length_append, List.length_singleton] at this
          omega
        rw [List.getElem?_concat_length] at hk
        cases hk
        rw [List.take_left] at hrun
        obtain ⟨hmemory, hsp', hregs⟩ :=
          Lower.run?_restoreLines (size_lt_of_mem_routines hat hr hlayout) hsaved hrun
        have hsame : m'.read .sp = call.machine.read .sp :=
          BitVec.eq_of_toInt_eq (hsp'.trans hsp.symm)
        refine .inr (.inr ⟨rfl, .intro hr hmade ?_ hsame (fun i => ?_) ?_⟩)
        · rw [hregs .ra (by decide)]
          exact Machine.read_write_self _ (by decide)
        · have hmem : ∀ i, Reg.s i ∈ Lower.savedRegisters := by decide
          rw [hregs _ (hmem i)]
          exact Machine.read_write_of_ne _ nofun
        · rw [hmemory, hsame]
          exact hstack

end Program

end PascalMips
