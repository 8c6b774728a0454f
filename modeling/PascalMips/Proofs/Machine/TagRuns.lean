import PascalMips.Proofs.Machine.Tags

/-!
# The tags of a run

Code stands somewhere in a program. In a run through it a call is one step, of which only the
convention is known: the subprogram keeps the registers for values and the stack pointer and comes
back (`Image.Crosses`). Tags follow such a run. Every step of the machine inside the code is one that
tags can take (`Tagging.exists_step`), and so is a call (`Tagging.exists_call`). So every run through
safe code has a path of tags beside it, and never leaves the code but by its end
(`Tagging.Safe.follows`).
-/

namespace PascalMips

theorem Machine.regs_of_store {m m' : Machine} {address value : Word}
    (h : m.store address value = some m') : m'.regs = m.regs := by
  unfold store at h
  split at h
  · cases h
    rfl
  · cases h

theorem Machine.regs_of_divide {m m' : Machine} {a b : Word}
    (h : m.divide a b = some m') : m'.regs = m.regs := by
  unfold divide at h
  split at h
  · cases h
  · cases h
    rfl

/-- The constants that tags tell are in the registers. -/
def Tagging.Knows (s : Tagging) (m : Machine) : Prop :=
  ∀ r value, s.read r = .constant value → m.read r = BitVec.ofInt 32 value

namespace Tagging.Knows

variable {s : Tagging} {m : Machine}

/-- A register may be given a tag that tells a constant only if the machine holds it. -/
theorem write (h : s.Knows m) (r : Reg) {t : Tag} {w : Word}
    (ht : ∀ value, t = .constant value → w = BitVec.ofInt 32 value) :
    (s.write r t).Knows (m.write r w) := by
  intro r' value hread
  by_cases hzero : r' = .zero
  · subst hzero
    exact h .zero value hread
  · rw [Machine.read_write _ _ _ _ hzero]
    by_cases heq : r' = r
    · subst heq
      rw [Tagging.read_write_self t hzero] at hread
      rw [if_pos rfl, ht value hread]
    · rw [Tagging.read_write_of_ne t heq] at hread
      rw [if_neg heq, h r' value hread]

/-- A word of which no constant is known. -/
theorem write_unknown (h : s.Knows m) (r : Reg) {t : Tag} (w : Word)
    (ht : ∀ value, t ≠ .constant value) : (s.write r t).Knows (m.write r w) :=
  h.write r fun value heq => absurd heq (ht value)

theorem copy (h : s.Knows m) (rd rs : Reg) :
    (s.write rd (s.read rs)).Knows (m.write rd (m.read rs)) :=
  h.write rd fun value heq => h rs value heq

/-- What tags tell depends on registers alone. -/
theorem of_regs (h : s.Knows m) {s' : Tagging} {m' : Machine} (hs : ∀ r, s'.read r = s.read r)
    (hm : m'.regs = m.regs) : s'.Knows m' := by
  intro r value hread
  rw [hs] at hread
  have hsame : m'.read r = m.read r := by cases r <;> simp [Machine.read, hm]
  rw [hsame, h r value hread]

end Tagging.Knows

theorem Tag.ofType_ne_constant (t : ValueType) (value : Int) : ofType t ≠ constant value := by
  cases t <;> nofun

theorem Tag.shift_ne_constant (n : Int) (t : Tag) (value : Int) : t.shift n ≠ constant value := by
  rcases t with _ | _ | ⟨_ | _⟩ | _ <;> nofun

theorem AluOp.tag_ne_constant (op : AluOp) (a b : Tag) (value : Int) :
    op.tag a b ≠ .constant value := by
  cases op <;> cases a <;> cases b <;> nofun

/-- A service leaves the machine with registers that the tags still know. The tags tell which
service it is, and so what the machine does. -/
theorem Tagging.Knows.serve {s : Tagging} {m m' : Machine} (h : s.Knows m) {p : Image} {code : Int}
    {operands : List (Operand × ValueType)} (hread : m.read .v0 = BitVec.ofInt 32 code)
    (hoperands : serviceOperands? code = some operands) (hservice : m.service p = some m') :
    (s.serve code).Knows m' := by
  unfold Machine.service at hservice
  rw [hread] at hservice
  unfold serviceOperands? at hoperands
  split at hoperands
  · cases hservice
    exact h.of_regs (fun _ => rfl) rfl
  · cases hservice
    exact h.of_regs (fun _ => rfl) rfl
  · cases hinput : m.input with
    | nil =>
      rw [hinput] at hservice
      cases hservice
    | cons w rest =>
      rw [hinput] at hservice
      cases hservice
      have hread : (s.write .v0 .integer).Knows (m.write .v0 w) := h.write_unknown .v0 w nofun
      exact hread.of_regs (fun _ => rfl) rfl
  · cases hinput : m.input with
    | nil =>
      rw [hinput] at hservice
      cases hservice
    | cons w rest =>
      rw [hinput] at hservice
      cases hservice
      exact h.of_regs (s.read_writeFloat _ _) rfl
  · cases hservice
  · cases hservice
    exact h.of_regs (fun _ => rfl) rfl
  · cases hoperands

/-- The instruction may go on there. -/
def Instr.GoesTo (i : Instr) : Flow → Prop
  | .next => i.falls = true
  | .label l => i.jump? = some l
  | .address _ => ∃ rs, i = .jr rs

/-- Every step of the machine but a call is one that the tags can follow. -/
theorem Instr.Fits.exists_steps_of_exec {sig : Signature} {s : Tagging} {i : Instr} {p : Image}
    {pc : Nat} {m m' : Machine} {flow : Flow} (h : i.Fits sig s) (hknows : s.Knows m)
    (hcall : ∀ l, i ≠ .jal l) (hexec : i.exec p pc m = some (flow, m')) :
    ∃ s', i.Steps sig s s' ∧ s'.Knows m' ∧ i.GoesTo flow := by
  cases i with
  | jal label => exact absurd rfl (hcall label)
  | li rd value =>
    cases hexec
    exact ⟨_, .li, hknows.write rd (by rintro _ ⟨⟩; rfl), rfl⟩
  | liBits rd value =>
    cases hexec
    exact ⟨_, .liBits, hknows.write_unknown rd _ nofun, rfl⟩
  | la rd label =>
    cases hexec
    exact ⟨_, .la, hknows.write_unknown rd _ nofun, rfl⟩
  | lw rd address =>
    obtain ⟨-, place, type, hplace, -⟩ := h
    obtain ⟨w, -, heq⟩ := Option.map_eq_some_iff.1 hexec
    cases heq
    exact ⟨_, .lw hplace 0, hknows.write_unknown rd w (Tag.ofType_ne_constant _), rfl⟩
  | sw rs address =>
    obtain ⟨-, place, hplace, -⟩ := h
    obtain ⟨m₁, hstore, heq⟩ := Option.map_eq_some_iff.1 hexec
    cases heq
    exact ⟨_, .sw hplace 0,
      hknows.of_regs (Tagging.read_store _ _ _ _) (Machine.regs_of_store hstore), rfl⟩
  | move rd rs =>
    cases hexec
    exact ⟨_, .move, hknows.copy rd rs, rfl⟩
  | alu op rd rs rt =>
    obtain ⟨w, -, heq⟩ := Option.map_eq_some_iff.1 hexec
    cases heq
    exact ⟨_, .alu, hknows.write_unknown rd w (op.tag_ne_constant _ _), rfl⟩
  | addi rd rs value =>
    obtain ⟨w, -, heq⟩ := Option.map_eq_some_iff.1 hexec
    cases heq
    exact ⟨_, .addi, hknows.write_unknown rd w (Tag.shift_ne_constant _ _), rfl⟩
  | sll rd rs amount =>
    cases hexec
    exact ⟨_, .sll, hknows.write_unknown rd _ nofun, rfl⟩
  | mult rs rt =>
    cases hexec
    exact ⟨_, .mult, hknows.of_regs (fun r => by cases r <;> rfl) rfl, rfl⟩
  | div rs rt =>
    obtain ⟨m₁, hdivide, heq⟩ := Option.map_eq_some_iff.1 hexec
    cases heq
    exact ⟨_, .div,
      hknows.of_regs (fun r => by cases r <;> rfl) (Machine.regs_of_divide hdivide), rfl⟩
  | mflo rd =>
    cases hexec
    exact ⟨_, .mflo, hknows.write_unknown rd _ (Tag.ofType_ne_constant _), rfl⟩
  | mfhi rd =>
    cases hexec
    exact ⟨_, .mfhi, hknows.write_unknown rd _ (Tag.ofType_ne_constant _), rfl⟩
  | set relation rd rs rt =>
    cases hexec
    exact ⟨_, .set, hknows.write_unknown rd _ nofun, rfl⟩
  | branch relation rs rt label =>
    cases hexec
    refine ⟨_, .branch, hknows, ?_⟩
    split <;> rfl
  | mtc1 rs fd =>
    cases hexec
    exact ⟨_, .mtc1, hknows.of_regs (s.read_writeFloat _ _) rfl, rfl⟩
  | mfc1 rd fs =>
    cases hexec
    exact ⟨_, .mfc1, hknows.write_unknown rd _ (Tag.ofType_ne_constant _), rfl⟩
  | cvtSingle fd fs =>
    cases hexec
    exact ⟨_, .cvtSingle, hknows.of_regs (s.read_writeFloat _ _) rfl, rfl⟩
  | cvtWord fd fs =>
    cases hexec
    exact ⟨_, .cvtWord, hknows.of_regs (s.read_writeFloat _ _) rfl, rfl⟩
  | float op fd fs ft =>
    cases hexec
    exact ⟨_, .float, hknows.of_regs (s.read_writeFloat _ _) rfl, rfl⟩
  | negSingle fd fs =>
    cases hexec
    exact ⟨_, .negSingle, hknows.of_regs (s.read_writeFloat _ _) rfl, rfl⟩
  | compare test fs ft =>
    cases hexec
    exact ⟨_, .compare, hknows.of_regs (fun _ => rfl) rfl, rfl⟩
  | moveIf flag rd rs =>
    cases hexec
    split
    · exact ⟨_, .moveIf_taken, hknows.copy rd rs, rfl⟩
    · exact ⟨_, .moveIf_passed, hknows, rfl⟩
  | branchIf flag label =>
    cases hexec
    refine ⟨_, .branchIf, hknows, ?_⟩
    split <;> rfl
  | j label =>
    cases hexec
    exact ⟨_, .j, hknows, rfl⟩
  | jr rs =>
    cases hexec
    exact ⟨_, .jr, hknows, rs, rfl⟩
  | syscall =>
    obtain ⟨-, code, operands, hcode, hoperands, -⟩ := h
    obtain ⟨m₁, hservice, heq⟩ := Option.map_eq_some_iff.1 hexec
    cases heq
    exact ⟨_, .syscall hcode, hknows.serve (hknows .v0 code hcode) hoperands hservice, rfl⟩

/-! ## Runs through code -/

/-- One step of a run through `lines`, which the program has from line `start` on. A call is a step
to the next line, after which the machine is any that has the registers for values and the stack
pointer as before. -/
inductive Image.Crosses (p : Image) (start : Nat) (lines : List Line) :
    Nat × Machine → Nat × Machine → Prop
  | step {k pc : Nat} {line : Line} {m m' : Machine} (hline : lines[k]? = some line)
      (hcall : ∀ l, line ≠ .instr (.jal l)) (hstep : p.step (start + k) m = some (pc, m')) :
      Crosses p start lines (start + k, m) (pc, m')
  | call {k : Nat} {l : Label} {m m' : Machine} (hline : lines[k]? = some (.instr (.jal l)))
      (hpool : ∀ i, m'.read (.s i) = m.read (.s i)) (hsp : m'.read .sp = m.read .sp) :
      Crosses p start lines (start + k, m) (start + k + 1, m')

/-- The lines jump only to labels of their own, and do not return. -/
structure Enclosed (lines : List Line) : Prop where
  jumps : ∀ i l, .instr i ∈ lines → i.jump? = some l → l ∈ labelsOf lines
  returns : ∀ rs, .instr (.jr rs) ∉ lines

/-- The functions that are declared under one label have results of one type. -/
def Signature.Agrees (sig : Signature) : Prop :=
  ∀ label params params' type type', sig.routine label params (some type) →
    sig.routine label params' (some type') → type = type'

/-- Wherever a program has the lines, a run through them has tags beside it: these take a path to
the line that the run has come to, and the constants that they tell are in the registers. -/
def Tagging.Follows (s : Tagging) (sig : Signature) (lines : List Line) : Prop :=
  ∀ (p : Image) (start pc : Nat) (m m' : Machine), p.Linked start lines → s.Knows m →
    Relation.ReflTransGen (p.Crosses start lines) (start, m) (pc, m') →
      ∃ k s', pc = start + k ∧ Path sig lines (0, s) (k, s') ∧ s'.Knows m'

/-- Every step of the machine but a call is one that tags can take, and it stays in the code. -/
theorem Tagging.exists_step {sig : Signature} {s : Tagging} {p : Image} {start k pc : Nat}
    {lines : List Line} {line : Line} {m m' : Machine} (hlinked : p.Linked start lines)
    (henclosed : Enclosed lines) (hfits : ∀ i, lines[k]? = some (.instr i) → i.Fits sig s)
    (hknows : s.Knows m) (hline : lines[k]? = some line) (hcall : ∀ l, line ≠ .instr (.jal l))
    (hstep : p.step (start + k) m = some (pc, m')) :
    ∃ k' s', pc = start + k' ∧ Step sig lines (k, s) (k', s') ∧ s'.Knows m' := by
  unfold Image.step at hstep
  rw [hlinked.has.getElem? hline] at hstep
  cases line with
  | instr i =>
    obtain ⟨⟨flow, m₁⟩, hexec, hnext⟩ := Option.bind_eq_some_iff.1 hstep
    obtain ⟨pc₁, hfollow, heq⟩ := Option.bind_eq_some_iff.1 hnext
    cases heq
    obtain ⟨s', hsteps, hknows', hgoes⟩ := (hfits i hline).exists_steps_of_exec hknows
      (fun l heq => hcall l (by rw [heq])) hexec
    cases flow with
    | next =>
      cases hfollow
      exact ⟨k + 1, s', rfl, .next hline hgoes hsteps, hknows'⟩
    | label l =>
      have hown := henclosed.jumps i l (List.mem_of_getElem? hline) hgoes
      obtain ⟨k', hlabel⟩ := List.mem_iff_getElem?.1 (mem_labelsOf.1 hown)
      have hfound : p.find? l = some (start + k') := hlinked.find? k' l hlabel
      cases hfound.symm.trans hfollow
      exact ⟨k', s', rfl, .jump hline hgoes hlabel hsteps, hknows'⟩
    | address a =>
      obtain ⟨rs, rfl⟩ := hgoes
      exact absurd (List.mem_of_getElem? hline) (henclosed.returns rs)
  | _ =>
    cases hstep
    exact ⟨k + 1, s, rfl, .pass hline (fun _ => Line.noConfusion), hknows⟩

/-- The tags after a call that gives a result of the type. Of what a call does not keep only the
result is known. -/
def Tagging.afterCall (s : Tagging) (result : ValueType) : Tagging where
  regs
    | .s i => s.regs (.s i)
    | .sp => s.regs .sp
    | .v0 => .ofType result
    | _ => .integer
  hi := .integer
  lo := .integer
  fregs _ := .integer
  memory := s.memory

/-- The tags after a call are those that a call may leave. -/
theorem Tagging.calls_afterCall {sig : Signature} {label : Label} {result : ValueType} (s : Tagging)
    (h : ∀ params type, sig.routine label params (some type) → type = result) :
    sig.Calls label s (s.afterCall result) where
  pool _ := rfl
  sp := rfl
  holds _ _ _ hall := hall
  result params type hroutine := by
    rw [h params type hroutine]
    exact Tag.type_ofType result

/-- The tags after a call know a machine with the same pool and stack pointer: they tell no other
constants. -/
theorem Tagging.Knows.afterCall {s : Tagging} {m m' : Machine} (h : s.Knows m) (result : ValueType)
    (hpool : ∀ i, m'.read (.s i) = m.read (.s i)) (hsp : m'.read .sp = m.read .sp) :
    (s.afterCall result).Knows m' := by
  intro r value hread
  cases r with
  | zero =>
    cases hread
    rfl
  | s i => rw [hpool, h (.s i) value hread]
  | sp => rw [hsp, h .sp value hread]
  | v0 => exact absurd hread (Tag.ofType_ne_constant result value)
  | _ => cases hread

/-- A call is a step that tags can take. -/
theorem Tagging.exists_call {sig : Signature} {s : Tagging} {k : Nat} {lines : List Line} {l : Label}
    {m m' : Machine} (hagrees : sig.Agrees) (hknows : s.Knows m)
    (hline : lines[k]? = some (.instr (.jal l))) (hpool : ∀ i, m'.read (.s i) = m.read (.s i))
    (hsp : m'.read .sp = m.read .sp) :
    ∃ s', Step sig lines (k, s) (k + 1, s') ∧ s'.Knows m' := by
  obtain ⟨result, hresult⟩ :
      ∃ result, ∀ params type, sig.routine l params (some type) → type = result := by
    by_cases hfunction : ∃ params type, sig.routine l params (some type)
    · obtain ⟨params, type, hroutine⟩ := hfunction
      exact ⟨type, fun params' type' hroutine' =>
        hagrees l params' params type' type hroutine' hroutine⟩
    · exact ⟨.integer, fun params type hroutine => absurd ⟨params, type, hroutine⟩ hfunction⟩
  exact ⟨s.afterCall result, .next hline rfl (.jal (s.calls_afterCall hresult)),
    hknows.afterCall result hpool hsp⟩

/-- A run through safe code has tags beside it. -/
theorem Tagging.Safe.follows {sig : Signature} {Q : Tagging → Prop} {s : Tagging}
    {lines : List Line} (hsafe : s.Safe sig lines Q) (henclosed : Enclosed lines)
    (hagrees : sig.Agrees) : s.Follows sig lines := by
  intro p start pc m m' hlinked hknows hrun
  -- the state is a pair, whose parts the induction has to take apart
  suffices hall : ∀ b, Relation.ReflTransGen (p.Crosses start lines) (start, m) b →
      ∃ k s', b.1 = start + k ∧ Path sig lines (0, s) (k, s') ∧ s'.Knows b.2 from
    hall (pc, m') hrun
  intro b hb
  induction hb with
  | refl => exact ⟨0, s, rfl, .refl, hknows⟩
  | tail _ hcrosses ih =>
    obtain ⟨k, s₁, hpc, hpath, hknows₁⟩ := ih
    cases hcrosses with
    | step hline hcall hstep =>
      cases Nat.add_left_cancel hpc
      obtain ⟨k', s₂, rfl, htags, hknows₂⟩ :=
        exists_step hlinked henclosed (hsafe k s₁ hpath).1 hknows₁ hline hcall hstep
      exact ⟨k', s₂, rfl, Relation.ReflTransGen.tail hpath htags, hknows₂⟩
    | call hline hpool hsp =>
      cases Nat.add_left_cancel hpc
      obtain ⟨s₂, htags, hknows₂⟩ := exists_call hagrees hknows₁ hline hpool hsp
      exact ⟨k + 1, s₂, rfl, Relation.ReflTransGen.tail hpath htags, hknows₂⟩

end PascalMips
