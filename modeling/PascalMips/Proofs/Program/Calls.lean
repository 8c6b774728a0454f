import PascalMips.Proofs.Program.Stack

/-!
# Calls are safe

In an execution in which array indices are within bounds and the stack stays apart from the data
(`Program.Runs`), a call returns to the line after it, with the stack pointer and the registers of
the pool as they were at the call, however deep the calls go that are made in between
(`Program.returns_of_runs`). Each step keeps the machine to the description of the stack
(`Program.Located.step`), so it holds where a routine returns.
-/

namespace PascalMips.Program

/-! ## Executions -/

section Definitions

variable (p : Program) (symbols : SymbolTable) (image : Image)

/-- An access to an element that starts here has an index within the declared bounds, and no word
of the data is on the stack, which goes up to `top`. -/
structure Orderly (top : Int) (s : Config) : Prop where
  indices : ∀ line part k, p.Starts symbols line part → s.pc = line + k →
    part.context.InBounds s.machine (part.lines.drop k)
  apart : ∀ w ∈ image.dataWords, ¬((s.machine.read .sp).toInt ≤ w.toInt ∧ w.toInt < top)

instance (top : Int) (s : Config) : Decidable (p.Orderly symbols image top s) :=
  decidable_of_iff ((∀ i < (p.parts symbols).length, ∀ part ∈ ((p.parts symbols)[i]?).toList,
      p.lineOf ((p.parts symbols).take i) ≤ s.pc → part.context.InBounds s.machine
        (part.lines.drop (s.pc - p.lineOf ((p.parts symbols).take i)))) ∧
      ∀ a ∈ image.dataWords.map BitVec.toInt,
        ¬((s.machine.read .sp).toInt ≤ a ∧ a < top)) <| by
    constructor
    · rintro ⟨hindices, hapart⟩
      refine ⟨?_, fun w hw => hapart _ (List.mem_map_of_mem hw)⟩
      rintro _ part k ⟨before, after, hsplit, rfl⟩ hpc
      have hbounds := hindices before.length (by simp [hsplit]) part (by simp [hsplit])
        (by simp [hsplit, hpc])
      simpa [hsplit, hpc] using hbounds
    · rintro ⟨hindices, hapart⟩
      refine ⟨fun i hi part hpart hle => ?_, List.forall_mem_map.2 hapart⟩
      obtain rfl : (p.parts symbols)[i] = part :=
        Option.some.inj ((List.getElem?_eq_getElem hi).symm.trans (Option.mem_toList.1 hpart))
      refine hindices _ _ _ ⟨(p.parts symbols).take i, (p.parts symbols).drop (i + 1), ?_, rfl⟩
        (by omega)
      rw [← List.drop_eq_getElem_cons hi, List.take_append_drop]

/-- The program gets from one state to another, orderly all the way. -/
def Runs (top : Int) : Config → Config → Prop :=
  Relation.ReflTransGen fun s t => p.Orderly symbols image top s ∧ image.next? s = some t

/-- `n` steps of the program, as long as it is orderly. -/
def run? (top : Int) : Nat → Config → Option Config
  | 0, s => some s
  | n + 1, s =>
    if p.Orderly symbols image top s then (image.next? s).bind (run? top n) else none

/-- Where an execution is: `k` lines into the head, a chunk of the body or the tail of a part, with
the machine that these lines make of one that the part can be entered with, stand with in its body
or come to its tail with. -/
inductive Located (top : Int) (s : Config) : Prop
  | head {line k : Nat} {part : Part} {m : Machine} (hstarts : p.Starts symbols line part)
      (hentered : p.Entered symbols image top part m s.calls) (hk : k < part.head.length)
      (hpc : s.pc = line + k) (hrun : image.run? (part.head.take k) m = some s.machine)
  | body {line k : Nat} {part : Part} {a b : List (List Line)} {xs : List Line} {m : Machine}
      (hstarts : p.Starts symbols line part) (hcut : part.Cut a (xs :: b))
      (hstack : p.Stack symbols image top m.memory part (m.read .sp).toInt s.calls)
      (hk : k < xs.length) (hpc : s.pc = line + part.offset a + k)
      (horderly : 0 < k → p.Orderly symbols image top ⟨line + part.offset a, m, s.calls⟩)
      (hrun : image.run? (xs.take k) m = some s.machine)
  | tail {line k : Nat} {part : Part} {m : Machine} (hstarts : p.Starts symbols line part)
      (hstanding : p.Standing symbols image top part m s.calls) (hk : k < part.tail.length)
      (hpc : s.pc = line + (part.head.length + part.body.length + k))
      (hrun : image.run? (part.tail.take k) m = some s.machine)

end Definitions

variable {source : String} {program p : Program} {symbols : SymbolTable} {image : Image} {top : Int}
  {part : Part} {calls : List Call} {line : Nat} {m : Machine} {s t : Config}

theorem getElem?_of_head (hat : (p.context symbols).At p symbols [])
    (himage : image.lines = p.assembly symbols) (hstarts : p.Starts symbols line part) {k : Nat}
    (hk : k < part.head.length) (hpc : s.pc = line + k) :
    image.lines[s.pc]? = some part.head[k] := by
  rw [hpc]
  refine (hstarts.has hat himage).getElem? ?_
  rw [Part.lines, List.getElem?_append_left hk, List.getElem?_eq_getElem hk]

theorem getElem?_of_body (hat : (p.context symbols).At p symbols [])
    (himage : image.lines = p.assembly symbols) (hstarts : p.Starts symbols line part) {k : Nat}
    {a b : List (List Line)} {xs : List Line} (hcut : part.Cut a (xs :: b)) (hk : k < xs.length)
    (hpc : s.pc = line + part.offset a + k) : image.lines[s.pc]? = some xs[k] := by
  rw [hpc, Nat.add_assoc]
  exact (hstarts.has hat himage).getElem? (hcut.getElem? (List.getElem?_eq_getElem hk))

theorem getElem?_of_tail (hat : (p.context symbols).At p symbols [])
    (himage : image.lines = p.assembly symbols) (hstarts : p.Starts symbols line part) {k : Nat}
    (hk : k < part.tail.length) (hpc : s.pc = line + (part.head.length + part.body.length + k)) :
    image.lines[s.pc]? = some part.tail[k] := by
  rw [hpc]
  refine (hstarts.has hat himage).getElem? ?_
  rw [part.getElem?_tail, List.getElem?_eq_getElem hk]

/-! ## Steps -/

/-- Between the chunks of its body a part goes on as long as the stack is as described. -/
theorem located_of_stack (hstarts : p.Starts symbols line part) {a b : List (List Line)}
    (hcut : part.Cut a b)
    (hstack : p.Stack symbols image top s.machine.memory part (s.machine.read .sp).toInt s.calls)
    (hpc : s.pc = line + part.offset a) : p.Located symbols image top s := by
  cases b with
  | nil =>
    rw [hcut.offset_nil] at hpc
    exact .tail (k := 0) hstarts (.framed hstack) (length_tail_pos hstarts.mem_parts) hpc rfl
  | cons xs b =>
    exact .body (k := 0) hstarts hcut hstack hcut.head.length_pos hpc
      (fun h => absurd h (Nat.lt_irrefl 0)) rfl

/-- A machine that stands in the body of a part is located there. -/
theorem located_of_standing (hat : (p.context symbols).At p symbols [])
    (hstarts : p.Starts symbols line part)
    (h : p.Standing symbols image top part s.machine s.calls)
    (hpc : s.pc = line + part.head.length) : p.Located symbols image top s := by
  obtain ⟨chunks, hchunks, hbody⟩ := chunked_of_mem_parts hat hstarts.mem_parts
  have hcut : part.Cut [] chunks := ⟨hchunks, hbody⟩
  cases chunks with
  | nil =>
    refine .tail (k := 0) hstarts h (length_tail_pos hstarts.mem_parts) ?_ rfl
    rw [hpc, ← hbody]
    rfl
  | cons xs b =>
    refine located_of_stack hstarts hcut (h.stack fun hnil => ?_) hpc
    have hpos := hcut.head.length_pos
    rw [hnil] at hbody
    rw [List.append_eq_nil_iff.1 hbody |>.1] at hpos
    exact Nat.lt_irrefl 0 hpos

/-- A step in the head of a part goes to its next line, and from the last one into the body. -/
theorem step_head (hat : (p.context symbols).At p symbols [])
    (himage : image.lines = p.assembly symbols) (htop : top < 2147483648) {k : Nat}
    (hstarts : p.Starts symbols line part)
    (hentered : p.Entered symbols image top part m s.calls) (hk : k < part.head.length)
    (hpc : s.pc = line + k) (hrun : image.run? (part.head.take k) m = some s.machine)
    (hnext : image.next? s = some t) : p.Located symbols image top t := by
  have hhead : part.head[k]? = some part.head[k] := List.getElem?_eq_getElem hk
  have hline := getElem?_of_head hat himage hstarts hk hpc
  obtain ⟨hpc', hmachine, hcalls⟩ := (Image.moves_of_next? hline hnext).of_isStraight
    (isStraight_head hstarts.mem_parts _ (List.getElem_mem hk))
  have hrun' := Image.run?_take_succ hhead hrun hmachine
  rw [← hcalls] at hentered
  by_cases hlast : k + 1 < part.head.length
  · exact .head hstarts hentered hlast (by omega) hrun'
  · rw [List.take_of_length_le (by omega)] at hrun'
    exact located_of_standing hat hstarts (hentered.standing hat htop hrun') (by omega)

theorem exists_part_of_mem_routines {r : Routine} (hr : r ∈ p.routines symbols) :
    ∃ c, r.part c ∈ p.parts symbols := by
  have hwritten : (p.written symbols).map Prod.fst = p.routines symbols :=
    Routine.map_fst_written _ _
  rw [← hwritten] at hr
  obtain ⟨w, hw, rfl⟩ := List.mem_map.1 hr
  exact ⟨w.2, List.mem_cons_of_mem _ (List.mem_map.2 ⟨w, hw, rfl⟩)⟩

/-- A line of a straight chunk leads to the next one, the last of them to the next chunk. -/
theorem step_straight (h : parse source = .ok (program, symbols))
    (hp : p = program ∨ p = program.fold) (himage : image.lines = p.assembly symbols)
    (htop : top < 2147483648) {k : Nat} {a b : List (List Line)} {xs : List Line}
    (hstarts : p.Starts symbols line part) (hcut : part.Cut a (xs :: b))
    (hstack : p.Stack symbols image top m.memory part (m.read .sp).toInt s.calls)
    (hk : k < xs.length) (hpc : s.pc = line + part.offset a + k)
    (horderly : p.Orderly symbols image top ⟨line + part.offset a, m, s.calls⟩)
    (hrun : image.run? (xs.take k) m = some s.machine)
    (hstraight : ∀ line ∈ xs, line.IsStraight) (hmoves : image.Moves s t xs[k]) :
    p.Located symbols image top t := by
  have hat := at_of_parse h hp
  have hpart := hstarts.mem_parts
  obtain ⟨hpc', hmachine, hcalls⟩ := hmoves.of_isStraight (hstraight _ (List.getElem_mem hk))
  have hrun' := Image.run?_take_succ (List.getElem?_eq_getElem hk) hrun hmachine
  rw [← hcalls] at hstack horderly
  by_cases hlast : k + 1 < xs.length
  · exact .body hstarts hcut hstack hlast (by omega) (fun _ => horderly) hrun'
  · rw [List.take_of_length_le (by omega)] at hrun'
    have hindex : part.context.InBounds m xs := fun x place bounds n hplace ⟨i, hi, hxs⟩ =>
      horderly.indices line part _ hstarts rfl x place bounds n hplace
        ⟨i, hi, hxs.trans hcut.drop_offset⟩
    have hwrites := hcut.head.writes hstraight
      (fun _ _ _ hplace => wordsOf_pos_of_mem_parts hat hpart hplace)
      (fun _ _ _ huse hplace => bounds_of_mem_parts h hp hpart huse hplace) hindex hrun'
    refine located_of_stack hstarts hcut.next
      (hstack.writes hat himage hpart htop horderly.apart hwrites) ?_
    rw [Part.offset_append_singleton]
    omega

/-- A jump leads to the next chunk or to one that a label of the part starts. -/
theorem step_jump (hat : (p.context symbols).At p symbols []) (hwords : p.Words)
    (himage : image.lines = p.assembly symbols) {a b : List (List Line)} {i : Instr} {l : Label}
    (hstarts : p.Starts symbols line part) (hcut : part.Cut a ([.instr i] :: b))
    (hstack : p.Stack symbols image top s.machine.memory part (s.machine.read .sp).toInt s.calls)
    (hpc : s.pc = line + part.offset a) (hl : i.jump? = some l) (htarget : l ∈ labelsOf part.body)
    (hmoves : image.Moves s t (.instr i)) : p.Located symbols image top t := by
  cases hmoves with
  | straight hi =>
    rw [Instr.IsStraight.jump?_eq_none hi] at hl
    cases hl
  | call => cases hl
  | «return» => cases hl
  | jump hl' hpc' hmachine hcalls =>
    cases hl.symm.trans hl'
    rw [← hmachine, ← hcalls] at hstack
    rcases hpc' with hpc' | hfind
    · refine located_of_stack hstarts hcut.next hstack ?_
      rw [Part.offset_append_singleton, hpc', hpc]
      rfl
    · obtain ⟨a', b', hcut'⟩ := hcut.exists_label htarget
      refine located_of_stack hstarts hcut' hstack ?_
      have hfound := hstarts.find? hat hwords himage (hcut'.getElem? (k := 0) rfl)
      exact Option.some.inj (hfind.symm.trans hfound)

/-- A call leads to the head of the part of the routine called. -/
theorem step_call (h : parse source = .ok (program, symbols))
    (hp : p = program ∨ p = program.fold) (himage : image.lines = p.assembly symbols)
    {a b : List (List Line)} {x : String} {count : Nat} {l : Label} {params : List ValueType}
    (hstarts : p.Starts symbols line part) (hcut : part.Cut a ([.instr (.jal l)] :: b))
    (hstack : p.Stack symbols image top s.machine.memory part (s.machine.read .sp).toInt s.calls)
    (hpc : s.pc = line + part.offset a) (huse : .call x count ∈ part.uses)
    (hcallee : part.context.callee? x count = some (l, params))
    (hmoves : image.Moves s t (.instr (.jal l))) : p.Located symbols image top t := by
  cases hmoves with
  | straight hi => cases hi
  | jump hl => cases hl
  | call hfind hmachine hcalls =>
    obtain ⟨r, hr, rfl⟩ := exists_routine_of_mem_parts h hp hstarts.mem_parts huse hcallee
    obtain ⟨c, hcallee⟩ := exists_part_of_mem_routines hr
    obtain ⟨line', hstarts'⟩ := exists_starts hcallee
    obtain ⟨k, hk, hhead⟩ := r.exists_start c
    have hlt : k < (r.part c).head.length := (List.getElem?_eq_some_iff.1 hk).1
    have hfound : image.find? r.start = some (line' + k) := by
      refine hstarts'.find? (at_of_parse h hp) (words_of_parse h hp) himage ?_
      rw [Part.lines, List.getElem?_append_left hlt, hk]
    rw [← r.start_part c] at hcut
    refine .head hstarts' ?_ hlt (Option.some.inj (hfind.symm.trans hfound))
      ((hhead image _).trans (congrArg some hmachine.symm))
    rw [hcalls]
    exact .routine hr ⟨hstarts, hcut, hpc⟩ hstack

/-- A step in the body of a part goes on in the body, into its tail, or into the head of the routine
that is called. -/
theorem step_body (h : parse source = .ok (program, symbols))
    (hp : p = program ∨ p = program.fold) (himage : image.lines = p.assembly symbols)
    (htop : top < 2147483648) {k : Nat} {a b : List (List Line)} {xs : List Line}
    (hstarts : p.Starts symbols line part) (hcut : part.Cut a (xs :: b))
    (hstack : p.Stack symbols image top m.memory part (m.read .sp).toInt s.calls)
    (hk : k < xs.length) (hpc : s.pc = line + part.offset a + k)
    (horderly : p.Orderly symbols image top ⟨line + part.offset a, m, s.calls⟩)
    (hrun : image.run? (xs.take k) m = some s.machine) (hnext : image.next? s = some t) :
    p.Located symbols image top t := by
  have hat := at_of_parse h hp
  have hmoves := Image.moves_of_next? (getElem?_of_body hat himage hstarts hcut hk hpc) hnext
  rcases hcut.head.kind_cases with hstraight | ⟨i, l, rfl, hl, htarget⟩ |
    ⟨x, count, l, params, rfl, huse, hcallee⟩
  · exact step_straight h hp himage htop hstarts hcut hstack hk hpc horderly hrun hstraight hmoves
  · obtain rfl : k = 0 := Nat.lt_one_iff.1 hk
    cases hrun
    exact step_jump hat (words_of_parse h hp) himage hstarts hcut hstack hpc hl htarget hmoves
  · obtain rfl : k = 0 := Nat.lt_one_iff.1 hk
    cases hrun
    exact step_call h hp himage hstarts hcut hstack hpc huse hcallee hmoves

theorem Made.getElem? {caller : Part} {call : Call} (h : p.Made symbols caller part call)
    (hat : (p.context symbols).At p symbols []) (himage : image.lines = p.assembly symbols) :
    image.lines[call.pc]? = some (.instr (.jal part.start)) := by
  obtain ⟨hstarts, hcut, hpc⟩ := h
  rw [hpc]
  exact (hstarts.has hat himage).getElem? (hcut.getElem? (k := 0) rfl)

/-- A call has a line after it. -/
theorem Made.lineAt?_address {caller : Part} {call : Call} (h : p.Made symbols caller part call)
    (hat : (p.context symbols).At p symbols []) (himage : image.lines = p.assembly symbols) :
    image.lineAt? (image.address (call.pc + 1)) = some (call.pc + 1) :=
  image.lineAt?_address _ (List.getElem?_eq_some_iff.1 (h.getElem? hat himage)).1

/-- After a return the part that made the call goes on in its body. -/
theorem Ready.located (h : p.Ready symbols image top m part calls)
    (hat : (p.context symbols).At p symbols []) (himage : image.lines = p.assembly symbols)
    (hpc : image.lineAt? (m.read .ra) = some t.pc) (hmachine : t.machine = m)
    (hcalls : t.calls = calls.tail) : p.Located symbols image top t := by
  cases h with
  | intro hr hmade hra hsp hpool hstack =>
    rw [hra, hmade.lineAt?_address hat himage] at hpc
    have hnext := Option.some.inj hpc
    obtain ⟨hstarts, hcut, hcall⟩ := hmade
    rw [List.tail_cons] at hcalls
    rw [← hmachine, ← hcalls] at hstack
    refine located_of_stack hstarts hcut.next hstack ?_
    rw [Part.offset_append_singleton, ← hnext, hcall, Nat.add_assoc]
    rfl

/-- The exit service has no next state. -/
theorem service_exit (h : m.read .v0 = BitVec.ofInt 32 10) :
    (Line.instr .syscall).run? image m = none := by
  have hservice : m.service image = none := by
    unfold Machine.service
    rw [h]
    rfl
  show ((m.service image).map _).map _ = none
  rw [hservice]
  rfl

/-- A step in the tail of a part goes to its next line; a return goes back behind the call. -/
theorem step_tail (hat : (p.context symbols).At p symbols [])
    (himage : image.lines = p.assembly symbols) {k : Nat} (hstarts : p.Starts symbols line part)
    (hstanding : p.Standing symbols image top part m s.calls) (hk : k < part.tail.length)
    (hpc : s.pc = line + (part.head.length + part.body.length + k))
    (hrun : image.run? (part.tail.take k) m = some s.machine) (hnext : image.next? s = some t) :
    p.Located symbols image top t := by
  have htail : part.tail[k]? = some part.tail[k] := List.getElem?_eq_getElem hk
  have hmoves := Image.moves_of_next? (getElem?_of_tail hat himage hstarts hk hpc) hnext
  rcases hstanding.tail_cases hat htail hrun with ⟨hstraight, hlt⟩ | ⟨heq, hexit⟩ | ⟨heq, hready⟩
  · obtain ⟨hpc', hmachine, hcalls⟩ := hmoves.of_isStraight hstraight
    rw [← hcalls] at hstanding
    exact .tail hstarts hstanding hlt (by omega) (Image.run?_take_succ htail hrun hmachine)
  · rw [heq] at hmoves
    obtain ⟨-, hmachine, -⟩ := hmoves.of_isStraight trivial
    rw [service_exit hexit] at hmachine
    cases hmachine
  · rw [heq] at hmoves
    cases hmoves with
    | straight hline => cases hline
    | jump hl => cases hl
    | «return» hpc' hmachine hcalls => exact hready.located hat himage hpc' hmachine hcalls

/-! ## Executions keep to the stack -/

/-- One step of an execution. -/
theorem Located.step (hlocated : p.Located symbols image top s)
    (h : parse source = .ok (program, symbols)) (hp : p = program ∨ p = program.fold)
    (himage : image.lines = p.assembly symbols) (htop : top < 2147483648)
    (horderly : p.Orderly symbols image top s) (hnext : image.next? s = some t) :
    p.Located symbols image top t := by
  have hat := at_of_parse h hp
  cases hlocated with
  | head hstarts hentered hk hpc hrun =>
    exact step_head hat himage htop hstarts hentered hk hpc hrun hnext
  | @body line k part a b xs m hstarts hcut hstack hk hpc hkept hrun =>
    refine step_body h hp himage htop hstarts hcut hstack hk hpc ?_ hrun hnext
    rcases Nat.eq_zero_or_pos k with rfl | hpos
    · -- the chunk starts here
      cases hrun
      exact ⟨fun line' part' k' hstarts' hpc' =>
        horderly.indices line' part' k' hstarts' (hpc.trans hpc'), horderly.apart⟩
    · exact hkept hpos
  | tail hstarts hstanding hk hpc hrun =>
    exact step_tail hat himage hstarts hstanding hk hpc hrun hnext

end PascalMips.Program
