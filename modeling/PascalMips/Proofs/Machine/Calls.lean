import PascalMips.Proofs.Machine.Run

/-!
# Calls that have not returned

The machine beside the calls it has made and not yet returned from (`Config`): `jal` adds a call,
with the line it stands on and the machine there, and `jr` takes the last one away. One step is a
straight line, a jump, a call or a return (`Image.moves_of_next?`). Straight lines that come one
after the other compute a function of the machine (`Image.run?`).
-/

namespace PascalMips

/-! ## Kinds of instructions -/

namespace Instr

/-- The label that an instruction jumps to for good, if it does. -/
def jump? : Instr → Option Label
  | branch _ _ _ l => some l
  | branchIf _ l => some l
  | j l => some l
  | _ => none

/-- The instruction goes on to the next line. -/
def IsStraight : Instr → Prop
  | branch _ _ _ _ => False
  | branchIf _ _ => False
  | j _ => False
  | jal _ => False
  | jr _ => False
  | _ => True

/-- An instruction is straight, a jump, a call or a return. -/
theorem kind_cases (i : Instr) :
    i.IsStraight ∨ (∃ l, i.jump? = some l) ∨ (∃ l, i = .jal l) ∨ ∃ r, i = .jr r := by
  cases i with
  | branch _ _ _ l | branchIf _ l | j l => exact .inr (.inl ⟨l, rfl⟩)
  | jal l => exact .inr (.inr (.inl ⟨l, rfl⟩))
  | jr r => exact .inr (.inr (.inr ⟨r, rfl⟩))
  | _ => exact .inl trivial

theorem IsStraight.jump?_eq_none {i : Instr} (h : i.IsStraight) : i.jump? = none := by
  cases i with
  | branch | branchIf | j => cases h
  | _ => rfl

variable {p : Image} {pc : Nat} {m m' : Machine} {i : Instr} {flow : Flow}

/-- Where an instruction goes: to the next line, to the label of a jump or of a call, or to the
address in a register. -/
theorem flow_cases (h : i.exec p pc m = some (flow, m')) :
    flow = .next ∨ (∃ l, i.jump? = some l ∧ flow = .label l) ∨
      (∃ l, i = .jal l ∧ flow = .label l) ∨ ∃ r, i = .jr r ∧ flow = .address (m.read r) := by
  cases i with
  | branch relation rs rt l =>
    obtain ⟨hflow, -⟩ := Prod.mk.inj (Option.some.inj h)
    split at hflow
    · exact .inr (.inl ⟨l, rfl, hflow.symm⟩)
    · exact .inl hflow.symm
  | branchIf flag l =>
    obtain ⟨hflow, -⟩ := Prod.mk.inj (Option.some.inj h)
    split at hflow
    · exact .inr (.inl ⟨l, rfl, hflow.symm⟩)
    · exact .inl hflow.symm
  | j l =>
    cases h
    exact .inr (.inl ⟨l, rfl, rfl⟩)
  | jal l =>
    cases h
    exact .inr (.inr (.inl ⟨l, rfl, rfl⟩))
  | jr r =>
    cases h
    exact .inr (.inr (.inr ⟨r, rfl, rfl⟩))
  | lw | sw | alu | addi | div | syscall =>
    obtain ⟨_, -, heq⟩ := Option.map_eq_some_iff.1 h
    cases heq
    exact .inl rfl
  | _ =>
    cases h
    exact .inl rfl

/-- A straight instruction goes on to the next line, and does the same on every line. -/
theorem exec_of_isStraight (hi : i.IsStraight) (h : i.exec p pc m = some (flow, m')) :
    flow = .next ∧ i.exec p 0 m = some (.next, m') := by
  have hflow : flow = .next := by
    rcases flow_cases h with hflow | ⟨l, hl, -⟩ | ⟨l, rfl, -⟩ | ⟨r, rfl, -⟩
    · exact hflow
    · rw [hi.jump?_eq_none] at hl
      cases hl
    · cases hi
    · cases hi
  refine ⟨hflow, ?_⟩
  rw [← hflow, ← h]
  cases i with
  | jal => cases hi
  | _ => rfl

/-- A jump goes on or goes to its label, and changes nothing else. -/
theorem exec_of_jump? {l : Label} (hl : i.jump? = some l) (h : i.exec p pc m = some (flow, m')) :
    (flow = .next ∨ flow = .label l) ∧ m' = m := by
  cases i with
  | branch | branchIf =>
    cases hl
    obtain ⟨hflow, rfl⟩ := Prod.mk.inj (Option.some.inj h)
    split at hflow
    · exact ⟨.inr hflow.symm, rfl⟩
    · exact ⟨.inl hflow.symm, rfl⟩
  | j =>
    cases hl
    cases h
    exact ⟨.inr rfl, rfl⟩
  | _ => cases hl

end Instr

/-! ## Straight lines -/

namespace Line

/-- The line goes on to the next one. -/
def IsStraight : Line → Prop
  | instr i => i.IsStraight
  | _ => True

/-- What a straight line does. -/
def run? (p : Image) (m : Machine) : Line → Option Machine
  | instr i => (i.exec p 0 m).map Prod.snd
  | _ => some m

end Line

namespace Image

/-- What straight lines do one after the other. -/
def run? (p : Image) (lines : List Line) (m : Machine) : Option Machine :=
  lines.foldlM (Line.run? p) m

section Run

variable {p : Image} {m m' : Machine}

@[simp] theorem run?_nil (p : Image) (m : Machine) : p.run? [] m = some m := rfl

theorem run?_cons {line : Line} {lines : List Line} : p.run? (line :: lines) m = some m' ↔
    ∃ m₁, line.run? p m = some m₁ ∧ p.run? lines m₁ = some m' := by
  rw [run?, List.foldlM_cons]
  exact Option.bind_eq_some_iff

theorem run?_singleton {line : Line} : p.run? [line] m = line.run? p m := by
  rw [run?, List.foldlM_cons]
  exact bind_pure _

theorem run?_append {xs ys : List Line} : p.run? (xs ++ ys) m = some m' ↔
    ∃ m₁, p.run? xs m = some m₁ ∧ p.run? ys m₁ = some m' := by
  rw [run?, List.foldlM_append]
  exact Option.bind_eq_some_iff

/-- The first `k` lines and the one after them are the first `k + 1` lines. -/
theorem run?_take_succ {lines : List Line} {line : Line} {k : Nat} {m₁ : Machine}
    (hk : lines[k]? = some line) (h : p.run? (lines.take k) m = some m₁)
    (hline : line.run? p m₁ = some m') : p.run? (lines.take (k + 1)) m = some m' := by
  rw [List.take_add_one, hk]
  exact run?_append.2 ⟨m₁, h, run?_singleton.trans hline⟩

end Run

end Image

/-! ## Calls -/

/-- A call: the line of the `jal`, and the machine when it was reached. -/
structure Call where
  pc : Nat
  machine : Machine

/-- The machine as the called code finds it. -/
def Call.entered (p : Image) (call : Call) : Machine :=
  call.machine.write .ra (p.address (call.pc + 1))

/-- The line and state of the machine, and the calls that have not returned, the last one first. -/
structure Config where
  pc : Nat
  machine : Machine
  calls : List Call

/-- The calls that have not returned after a line. -/
def Config.callsAfter (s : Config) : Line → List Call
  | .instr (.jal _) => ⟨s.pc, s.machine⟩ :: s.calls
  | .instr (.jr _) => s.calls.tail
  | _ => s.calls

theorem Config.callsAfter_of_jump? (s : Config) {i : Instr} {l : Label} (h : i.jump? = some l) :
    s.callsAfter (.instr i) = s.calls := by
  cases i with
  | jal | jr => cases h
  | _ => rfl

theorem Config.callsAfter_of_isStraight (s : Config) {i : Instr} (h : i.IsStraight) :
    s.callsAfter (.instr i) = s.calls := by
  cases i with
  | jal | jr => cases h
  | _ => rfl

namespace Image

/-- One step, with the calls that have not returned after it. -/
def next? (p : Image) (s : Config) : Option Config := do
  let line ← p.lines[s.pc]?
  let (pc, machine) ← p.step s.pc s.machine
  return ⟨pc, machine, s.callsAfter line⟩

/-- What the step from `s` to `t` is, by the line it executes. -/
inductive Moves (p : Image) (s t : Config) : Line → Prop
  | straight {line : Line} (hline : line.IsStraight) (hpc : t.pc = s.pc + 1)
      (hmachine : line.run? p s.machine = some t.machine) (hcalls : t.calls = s.calls) :
      Moves p s t line
  | jump {i : Instr} {l : Label} (hl : i.jump? = some l)
      (hpc : t.pc = s.pc + 1 ∨ p.find? l = some t.pc) (hmachine : t.machine = s.machine)
      (hcalls : t.calls = s.calls) : Moves p s t (.instr i)
  | call {l : Label} (hpc : p.find? l = some t.pc)
      (hmachine : t.machine = Call.entered p ⟨s.pc, s.machine⟩)
      (hcalls : t.calls = ⟨s.pc, s.machine⟩ :: s.calls) : Moves p s t (.instr (.jal l))
  | return {r : Reg} (hpc : p.lineAt? (s.machine.read r) = some t.pc)
      (hmachine : t.machine = s.machine) (hcalls : t.calls = s.calls.tail) :
      Moves p s t (.instr (.jr r))

/-- A step does what its line says. Here the step is opened once, for each kind of line. -/
theorem moves_of_next? {p : Image} {s t : Config} {line : Line}
    (hline : p.lines[s.pc]? = some line) (h : p.next? s = some t) : p.Moves s t line := by
  unfold next? step at h
  rw [hline] at h
  cases line with
  | instr i =>
    simp only [Option.bind_eq_bind, Option.bind_eq_some_iff, Option.pure_def, Option.some.injEq,
      Prod.mk.injEq, Prod.exists, exists_eq_left'] at h
    obtain ⟨_, _, ⟨flow, m, hexec, next, hfollow, rfl, rfl⟩, rfl⟩ := h
    rcases i.kind_cases with hi | ⟨l, hl⟩ | ⟨l, rfl⟩ | ⟨r, rfl⟩
    · obtain ⟨rfl, hrun⟩ := Instr.exec_of_isStraight hi hexec
      exact .straight hi (Option.some.inj hfollow).symm (congrArg (Option.map Prod.snd) hrun)
        (s.callsAfter_of_isStraight hi)
    · obtain ⟨hflow, rfl⟩ := Instr.exec_of_jump? hl hexec
      refine .jump hl ?_ rfl (s.callsAfter_of_jump? hl)
      rcases hflow with rfl | rfl
      · exact .inl (Option.some.inj hfollow).symm
      · exact .inr hfollow
    · cases hexec
      exact .call hfollow rfl rfl
    · cases hexec
      exact .return hfollow rfl rfl
  | _ =>
    cases h
    exact .straight trivial rfl rfl rfl

/-- On a straight line, a step goes to the next line. -/
theorem Moves.of_isStraight {p : Image} {s t : Config} {line : Line} (h : p.Moves s t line)
    (hline : line.IsStraight) : t.pc = s.pc + 1 ∧ line.run? p s.machine = some t.machine ∧
      t.calls = s.calls := by
  cases h with
  | straight _ hpc hmachine hcalls => exact ⟨hpc, hmachine, hcalls⟩
  | jump hl =>
    rw [Instr.IsStraight.jump?_eq_none hline] at hl
    cases hl
  | call => cases hline
  | «return» => cases hline

end Image

end PascalMips
