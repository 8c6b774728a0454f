import PascalMips.Proofs.Lower.Chunks
import PascalMips.Proofs.Lower.Frame
import PascalMips.Proofs.Lower.Memory
import PascalMips.Proofs.Machine.Arith

/-!
# What code does to the stack

A chunk of a body leaves the stack pointer alone, and memory but for one word at most, which is one
of a variable or an array of its context if array indices are within bounds (`Chunk.writes`). The
prologue of a routine saves registers below the stack pointer it finds and keeps the memory above
(`run?_prologueLines`), and the epilogue brings back what was saved (`run?_restoreLines`).
-/

namespace PascalMips

/-! ## Words near each other -/

/-- Addresses that are less than all of memory apart are those of different words. -/
theorem ofInt_ne {a b : Int} (hlt : a < b) (hnear : b - a < 4294967296) :
    BitVec.ofInt 32 a ≠ BitVec.ofInt 32 b := by
  intro heq
  have htoInt := congrArg BitVec.toNat heq
  rw [BitVec.toNat_ofInt, BitVec.toNat_ofInt] at htoInt
  omega

/-- Where it does not trap, an addition is one of words. -/
theorem eq_add_of_addTrap {a b w : Word} (h : addTrap a b = some w) : w = a + b := by
  unfold addTrap at h
  split at h
  · cases h
  · exact (Option.some.inj h).symm

theorem eq_sub_of_subTrap {a b w : Word} (h : subTrap a b = some w) : w = a - b := by
  unfold subTrap at h
  split at h
  · cases h
  · exact (Option.some.inj h).symm

/-- A sum that does not overflow is that of the integers. -/
theorem toInt_of_addTrap {a b w : Word} (h : addTrap a b = some w) :
    w.toInt = a.toInt + b.toInt := by
  unfold addTrap at h
  split at h
  · cases h
  · next hno =>
    cases h
    rw [BitVec.toInt_add]
    simp only [BitVec.saddOverflow, Bool.or_eq_true, decide_eq_true_eq, not_or] at hno
    rw [Int.bmod_eq_of_le] <;> omega

namespace Machine

/-! ## Machines with the same stack -/

/-- Memory and the stack pointer are the same. -/
structure Steady (m m' : Machine) : Prop where
  memory : m'.memory = m.memory
  sp : m'.read .sp = m.read .sp

namespace Steady

variable {m m' m'' : Machine}

theorem refl (m : Machine) : m.Steady m := ⟨rfl, rfl⟩

theorem trans (h : m.Steady m') (h' : m'.Steady m'') : m.Steady m'' :=
  ⟨h'.memory.trans h.memory, h'.sp.trans h.sp⟩

end Steady

theorem read_write_self {m : Machine} {r : Reg} (w : Word) (hr : r ≠ .zero) :
    (m.write r w).read r = w := by
  rw [read_write m r r w hr, if_pos rfl]

theorem read_write_of_ne {m : Machine} {r s : Reg} (w : Word) (h : s ≠ r) :
    (m.write r w).read s = m.read s := by
  by_cases hs : s = .zero
  · rw [hs]
    rfl
  · rw [read_write m r s w hs, if_neg h]

theorem steady_write {m : Machine} {r : Reg} (w : Word) (hr : r ≠ .sp) : m.Steady (m.write r w) :=
  ⟨rfl, read_write_of_ne w hr.symm⟩

/-- Services leave memory and the stack pointer alone. -/
theorem steady_service {p : Image} {m m' : Machine} (h : m.service p = some m') : m.Steady m' := by
  unfold service at h
  split at h
  · cases h
    exact ⟨rfl, rfl⟩
  · cases h
    exact ⟨rfl, rfl⟩
  · split at h
    · cases h
    · next w rest _ =>
      cases h
      exact ⟨rfl, (steady_write (m := m) (r := .v0) w (by decide)).sp⟩
  · split at h
    · cases h
    · cases h
      exact ⟨rfl, rfl⟩
  · cases h
    exact ⟨rfl, rfl⟩
  · cases h

end Machine

/-! ## Chunks -/

section Chunks

variable {p : Image} {m m' : Machine}

theorem exec_lw {rd : Reg} {address : Address}
    (h : (Line.instr (.lw rd address)).run? p m = some m') :
    m' = m.write rd (m.memory (m.effective p address)) := by
  obtain ⟨_, hexec, rfl⟩ := Option.map_eq_some_iff.1 h
  obtain ⟨w, hload, rfl⟩ := Option.map_eq_some_iff.1 hexec
  unfold Machine.load at hload
  split at hload
  · cases hload
    rfl
  · cases hload

theorem exec_sw {rs : Reg} {address : Address}
    (h : (Line.instr (.sw rs address)).run? p m = some m') :
    m' = { m with memory := Function.update m.memory (m.effective p address) (m.read rs) } := by
  obtain ⟨_, hexec, rfl⟩ := Option.map_eq_some_iff.1 h
  obtain ⟨_, hstore, rfl⟩ := Option.map_eq_some_iff.1 hexec
  unfold Machine.store at hstore
  split at hstore
  · cases hstore
    rfl
  · cases hstore

theorem exec_addi {rd rs : Reg} {value : Int}
    (h : (Line.instr (.addi rd rs value)).run? p m = some m') :
    ∃ w, addTrap (m.read rs) (BitVec.ofInt 32 value) = some w ∧ m' = m.write rd w := by
  obtain ⟨_, hexec, rfl⟩ := Option.map_eq_some_iff.1 h
  obtain ⟨w, hadd, rfl⟩ := Option.map_eq_some_iff.1 hexec
  exact ⟨w, hadd, rfl⟩

theorem exec_alu {op : AluOp} {rd rs rt : Reg}
    (h : (Line.instr (.alu op rd rs rt)).run? p m = some m') :
    ∃ w, op.exec (m.read rs) (m.read rt) = some w ∧ m' = m.write rd w := by
  obtain ⟨_, hexec, rfl⟩ := Option.map_eq_some_iff.1 h
  obtain ⟨w, hop, rfl⟩ := Option.map_eq_some_iff.1 hexec
  exact ⟨w, hop, rfl⟩

/-- Plain instructions leave memory and the stack pointer, instruction by instruction. -/
theorem Instr.IsPlain.steady {i : Instr} (h : i.IsPlain)
    (hrun : (Line.instr i).run? p m = some m') : m.Steady m' := by
  cases i with
  | la | sw | branch | branchIf | j | jal | jr => cases h
  | lw rd address =>
    rw [exec_lw hrun]
    cases address with
    | label => cases h
    | offset => exact Machine.steady_write _ h
  | addi rd rs value =>
    obtain ⟨w, -, rfl⟩ := exec_addi hrun
    exact Machine.steady_write w h
  | alu op rd rs rt =>
    obtain ⟨w, -, rfl⟩ := exec_alu hrun
    exact Machine.steady_write w h
  | div rs rt =>
    obtain ⟨_, hexec, rfl⟩ := Option.map_eq_some_iff.1 hrun
    obtain ⟨_, hdivide, rfl⟩ := Option.map_eq_some_iff.1 hexec
    unfold Machine.divide at hdivide
    split at hdivide
    · cases hdivide
    · cases hdivide
      exact ⟨rfl, rfl⟩
  | syscall =>
    obtain ⟨_, hexec, rfl⟩ := Option.map_eq_some_iff.1 hrun
    obtain ⟨_, hservice, rfl⟩ := Option.map_eq_some_iff.1 hexec
    exact Machine.steady_service hservice
  | moveIf flag rd rs =>
    cases hrun
    show m.Steady (if m.flag = flag then m.write rd (m.read rs) else m)
    split
    · exact Machine.steady_write _ h
    · exact .refl m
  | li | liBits | move | sll | mflo | mfhi | set | mfc1 =>
    cases hrun
    exact Machine.steady_write _ h
  | mult | mtc1 | cvtSingle | cvtWord | float | negSingle | compare =>
    cases hrun
    exact ⟨rfl, rfl⟩

/-! ### Addresses of elements -/

theorem Reg.s_ne (n : Fin 8) : Reg.s n ≠ .sp ∧ Reg.s n ≠ .t9 := ⟨nofun, nofun⟩

/-- If they run, these instructions leave the difference of the index and the lowest index. There
are three forms of them, by the size of the lowest index. -/
theorem run?_offsetInstrs {n : Fin 8} {lo : Int}
    (h : p.run? (instrLines (offsetInstrs (.s n) lo)) m = some m') :
    m.Steady m' ∧ m'.read .t9 = BitVec.ofInt 32 ((m.read (.s n)).toInt - lo) := by
  have hword : BitVec.ofInt 32 ((m.read (.s n)).toInt - lo) =
      m.read (.s n) + BitVec.ofInt 32 (-lo) := by
    rw [Int.sub_eq_add_neg, BitVec.ofInt_add, BitVec.ofInt_toInt]
  unfold offsetInstrs at h
  rw [hword]
  split at h
  · next hlo =>
    cases h
    refine ⟨Machine.steady_write _ (by decide), ?_⟩
    rw [Machine.read_write_self _ (by decide), hlo]
    simp
  · split at h
    · obtain ⟨w, hadd, rfl⟩ := exec_addi (Image.run?_singleton.symm.trans h)
      refine ⟨Machine.steady_write w (by decide), ?_⟩
      rw [Machine.read_write_self _ (by decide), eq_add_of_addTrap hadd]
    · obtain ⟨m₁, hli, h⟩ := Image.run?_cons.1 h
      obtain rfl : m.write .t9 (BitVec.ofInt 32 lo) = m₁ := Option.some.inj hli
      obtain ⟨w, hsub, rfl⟩ := exec_alu (Image.run?_singleton.symm.trans h)
      refine ⟨(Machine.steady_write _ (by decide)).trans (Machine.steady_write w (by decide)), ?_⟩
      rw [Machine.read_write_self _ (by decide), eq_sub_of_subTrap hsub,
        Machine.read_write_self _ (by decide), Machine.read_write_of_ne _ (Reg.s_ne n).2,
        BitVec.ofInt_neg, BitVec.sub_eq_add_neg]

/-- If they run, these instructions add the place of the array, which is a label or a distance from
the stack pointer. -/
theorem run?_placeInstrs {place : Storage}
    (h : p.run? (instrLines (placeInstrs place)) m = some m') :
    m.Steady m' ∧ m'.read .t9 = m.read .t9 + BitVec.ofInt 32 (place.base p m) := by
  cases place with
  | global label =>
    obtain ⟨m₁, hla, h⟩ := Image.run?_cons.1 h
    cases hla
    obtain ⟨w, hadd, rfl⟩ := exec_alu (Image.run?_singleton.symm.trans h)
    refine ⟨(Machine.steady_write _ (by decide)).trans (Machine.steady_write w (by decide)), ?_⟩
    rw [Machine.read_write_self _ (by decide), eq_add_of_addTrap hadd,
      Machine.read_write_self _ (by decide), Machine.read_write_of_ne _ (by decide)]
    simp [Storage.base, Storage.origin, Storage.offset]
  | stack offset =>
    obtain ⟨m₁, halu, h⟩ := Image.run?_cons.1 h
    obtain ⟨w, hadd, rfl⟩ := exec_alu halu
    have hsteady := Machine.steady_write (m := m) (r := .t9) w (by decide)
    have hword : m.read .t9 + BitVec.ofInt 32 (Storage.base p m (.stack offset)) =
        w + BitVec.ofInt 32 offset := by
      rw [eq_add_of_addTrap hadd, Storage.base, BitVec.ofInt_add, ← BitVec.add_assoc]
      simp [Storage.origin, Storage.offset]
    rw [hword]
    split at h
    · next hzero =>
      cases h
      refine ⟨hsteady, ?_⟩
      rw [Machine.read_write_self _ (by decide), hzero]
      simp
    · obtain ⟨w', hadd', rfl⟩ := exec_addi (Image.run?_singleton.symm.trans h)
      refine ⟨hsteady.trans (Machine.steady_write w' (by decide)), ?_⟩
      rw [Machine.read_write_self _ (by decide), eq_add_of_addTrap hadd',
        Machine.read_write_self _ (by decide)]

/-- The address register comes to hold the address of the element, whatever overflows on the way. -/
theorem run?_addressInstrs {n : Fin 8} {lo : Int} {place : Storage}
    (h : p.run? (instrLines (addressInstrs (.s n) lo place)) m = some m') :
    m.Steady m' ∧ m'.read .t9 =
      BitVec.ofInt 32 (place.base p m + 4 * ((m.read (.s n)).toInt - lo)) := by
  rw [addressInstrs, instrLines, List.map_append, List.map_cons] at h
  obtain ⟨m₁, hoffset, h⟩ := Image.run?_append.1 h
  obtain ⟨m₂, hsll, hplace⟩ := Image.run?_cons.1 h
  obtain rfl : m₁.write .t9 (m₁.read .t9 <<< 2) = m₂ := Option.some.inj hsll
  obtain ⟨hsteady, ht9⟩ := run?_offsetInstrs hoffset
  obtain ⟨hsteady', ht9'⟩ := run?_placeInstrs hplace
  have hsteady₂ := hsteady.trans (Machine.steady_write (r := .t9) (m₁.read .t9 <<< 2) (by decide))
  refine ⟨hsteady₂.trans hsteady', ?_⟩
  rw [ht9', Storage.base_congr hsteady₂.sp, Machine.read_write_self _ (by decide), ht9,
    shiftLeft_two, ← BitVec.ofInt_add, Int.add_comm]

/-! ### Writes -/

/-- The stack pointer stays, and memory changes in one word at most, which is one of a variable or
an array of the context. -/
structure Context.Writes (ctx : Context) (p : Image) (m m' : Machine) : Prop where
  sp : m'.read .sp = m.read .sp
  memory : m'.memory = m.memory ∨ ∃ x place bounds? w, ∃ d : Nat,
    ctx.place? x = some (place, bounds?) ∧ d < wordsOf bounds? ∧
      m'.memory = Function.update m.memory (BitVec.ofInt 32 (place.base p m + 4 * d)) w

theorem Machine.Steady.writes (h : m.Steady m') (ctx : Context) : ctx.Writes p m m' :=
  ⟨h.sp, .inl h.memory⟩

variable {ctx : Context} {uses : List Use} {targets : Label → Prop} {xs : List Line}

/-- The lines start with an access to an element of the array at `place`, whose lowest index is
`lo`. -/
def Accesses (index : Reg) (lo : Int) (place : Storage) (lines : List Line) : Prop :=
  ∃ i : Instr, i.Touches ∧ instrLines (addressInstrs index lo place ++ [i]) <+: lines

instance (index : Reg) (lo : Int) (place : Storage) (lines : List Line) :
    Decidable (Accesses index lo place lines) :=
  decidable_of_iff (∃ n : Fin 8,
      instrLines (addressInstrs index lo place ++ [.lw (.s n) (.offset 0 .t9)]) <+: lines ∨
      instrLines (addressInstrs index lo place ++ [.sw (.s n) (.offset 0 .t9)]) <+: lines) <| by
    constructor
    · rintro ⟨n, h | h⟩
      · exact ⟨_, .load n, h⟩
      · exact ⟨_, .store n, h⟩
    · rintro ⟨_, hi, h⟩
      cases hi with
      | load n => exact ⟨n, .inl h⟩
      | store n => exact ⟨n, .inr h⟩

/-- If an access to an element starts here, its index is within the declared bounds. -/
def Context.InBounds (ctx : Context) (m : Machine) (lines : List Line) : Prop :=
  ∀ x place bounds n, ctx.place? x = some (place, some bounds) →
    Accesses (.s n) bounds.lo place lines →
      bounds.lo ≤ (m.read (.s n)).toInt ∧ (m.read (.s n)).toInt ≤ bounds.hi

theorem Context.mem_names_of_place? {x : String} {place : Storage} {bounds? : Option Bounds}
    (h : ctx.place? x = some (place, bounds?)) : x ∈ ctx.symbols.scopes.flatMap Scope.names := by
  obtain ⟨symbol, hlookup, -⟩ := Option.bind_eq_some_iff.1 h
  obtain ⟨depth, hfind⟩ := SymbolTable.lookup?_eq_some hlookup
  obtain ⟨scope, hscope, hfound⟩ := SymbolTable.mem_of_findIn hfind
  exact List.mem_flatMap.2 ⟨scope, hscope, Scope.mem_names_of_lookup? hfound⟩

instance (ctx : Context) (m : Machine) (lines : List Line) : Decidable (ctx.InBounds m lines) :=
  decidable_of_iff (∀ x ∈ ctx.symbols.scopes.flatMap Scope.names, ∀ found ∈ (ctx.place? x).toList,
      ∀ bounds ∈ found.2.toList, ∀ n : Fin 8, Accesses (.s n) bounds.lo found.1 lines →
        bounds.lo ≤ (m.read (.s n)).toInt ∧ (m.read (.s n)).toInt ≤ bounds.hi) <| by
    constructor
    · intro h x place bounds n hplace
      exact h x (Context.mem_names_of_place? hplace) (place, some bounds)
        (Option.mem_toList.2 hplace) bounds (List.mem_singleton_self _) n
    · rintro h x - ⟨place, bounds?⟩ hfound bounds hbounds n
      obtain rfl : bounds? = some bounds := Option.mem_toList.1 hbounds
      exact h x place bounds n (Option.mem_toList.1 hfound)

/-- A straight chunk writes to variables and arrays alone. -/
theorem Chunk.writes (h : Chunk ctx uses targets xs) (hstraight : ∀ line ∈ xs, line.IsStraight)
    (hwords : ∀ x place bounds?, ctx.place? x = some (place, bounds?) → 0 < wordsOf bounds?)
    (harrays : ∀ x place bounds?, .element x ∈ uses → ctx.place? x = some (place, bounds?) →
      ∃ bounds, bounds? = some bounds)
    (hindex : ctx.InBounds m xs) (hrun : p.run? xs m = some m') : ctx.Writes p m m' := by
  cases h with
  | mark | label =>
    cases hrun
    exact (Machine.Steady.refl m).writes ctx
  | plain h => exact (h.steady (Image.run?_singleton.symm.trans hrun)).writes ctx
  | jump h hl =>
    rw [Instr.IsStraight.jump?_eq_none (hstraight _ List.mem_cons_self)] at h
    cases h
  | load n hplace =>
    rw [exec_lw (Image.run?_singleton.symm.trans hrun)]
    exact (Machine.steady_write _ (Reg.s_ne _).1).writes ctx
  | @store x place bounds? rs hplace =>
    rw [exec_sw (Image.run?_singleton.symm.trans hrun), effective_address]
    refine ⟨rfl, .inr ⟨x, place, bounds?, m.read rs, 0, hplace, hwords x place bounds? hplace, ?_⟩⟩
    simp
  | @element x place bounds? i n huse hplace hi =>
    obtain ⟨bounds, rfl⟩ := harrays x place bounds? huse hplace
    obtain ⟨hlo, hhi⟩ := hindex x place bounds n hplace ⟨i, hi, List.prefix_rfl⟩
    rw [instrLines, List.map_append] at hrun
    obtain ⟨m₁, haddress, htouch⟩ := Image.run?_append.1 hrun
    obtain ⟨hsteady, ht9⟩ := run?_addressInstrs haddress
    rw [lowerBound, Option.map_some, Option.getD_some] at ht9
    have heffective : m₁.effective p (.offset 0 .t9) = BitVec.ofInt 32
        (place.base p m + 4 * ((m.read (.s n)).toInt - bounds.lo)) := by
      rw [← ht9]
      simp [Machine.effective]
    cases hi with
    | load k =>
      rw [exec_lw (Image.run?_singleton.symm.trans htouch)]
      exact (hsteady.trans (Machine.steady_write _ (Reg.s_ne _).1)).writes ctx
    | store k =>
      rw [exec_sw (Image.run?_singleton.symm.trans htouch), heffective]
      refine ⟨hsteady.sp, .inr ⟨x, place, some bounds, m₁.read (.s k),
        ((m.read (.s n)).toInt - bounds.lo).toNat, hplace, ?_, ?_⟩⟩
      · show _ < (bounds.hi - bounds.lo + 1).toNat
        omega
      · rw [hsteady.memory, Int.toNat_of_nonneg (by omega)]
  | call => exact (hstraight _ List.mem_cons_self).elim

end Chunks

/-! ## Prologues and epilogues -/

namespace Lower

variable {p : Image} {m m' : Machine}

/-- Memory from `base` on holds the saved registers of the machine `m`. -/
def Saves (memory : Word → Word) (base : Int) (m : Machine) : Prop :=
  ∀ j reg, savedRegisters[j]? = some reg →
    memory (BitVec.ofInt 32 (base + (wordSize * j : Nat))) = m.read reg

/-- Moving the stack pointer by an amount in range changes nothing else. -/
theorem run?_moveLines {amount : Int} (hamount : Literal.InRange amount)
    (h : p.run? (moveLines amount) m = some m') : m'.memory = m.memory ∧
      (m'.read .sp).toInt = (m.read .sp).toInt + amount ∧ ∀ r, r ≠ .sp → m'.read r = m.read r := by
  unfold moveLines at h
  split at h
  · next hzero =>
    cases h
    exact ⟨rfl, by omega, fun _ _ => rfl⟩
  · obtain ⟨w, hadd, rfl⟩ := exec_addi (Image.run?_singleton.symm.trans h)
    refine ⟨rfl, ?_, fun r hr => Machine.read_write_of_ne w hr⟩
    rw [Machine.read_write_self w (by decide), toInt_of_addTrap hadd, toInt_ofInt hamount]

theorem effective_offset_sp (p : Image) (m : Machine) (offset : Int) :
    m.effective p (.offset offset .sp) = BitVec.ofInt 32 ((m.read .sp).toInt + offset) := by
  rw [BitVec.ofInt_add, BitVec.ofInt_toInt]
  rfl

/-- Registers are stored one after the other, and other words stay. -/
theorem run?_savedLines_sw {index : Nat} {regs : List Reg} (hsize : index + regs.length ≤ 1000)
    (h : p.run? (savedLines .sw index regs) m = some m') : (∀ r, m'.read r = m.read r) ∧
      (∀ j reg, regs[j]? = some reg → m'.memory (BitVec.ofInt 32
        ((m.read .sp).toInt + (wordSize * (index + j) : Nat))) = m.read reg) ∧
      ∀ w, (∀ j < regs.length,
        w ≠ BitVec.ofInt 32 ((m.read .sp).toInt + (wordSize * (index + j) : Nat))) →
          m'.memory w = m.memory w := by
  induction regs generalizing index m with
  | nil =>
    cases h
    exact ⟨fun _ => rfl, nofun, fun _ _ => rfl⟩
  | cons reg regs ih =>
    rw [List.length_cons] at hsize
    obtain ⟨m₁, hsw, h⟩ := Image.run?_cons.1 h
    have hm₁ := exec_sw hsw
    rw [effective_offset_sp] at hm₁
    obtain ⟨hread, hregs, hrest⟩ := ih (by omega) h
    have hread₁ : ∀ r, m₁.read r = m.read r := fun r => by rw [hm₁]; cases r <;> rfl
    refine ⟨fun r => (hread r).trans (hread₁ r), fun j saved hj => ?_, fun w hw => ?_⟩
    · cases j with
      | zero =>
        cases hj
        rw [hrest _ fun j hj => ?_, hm₁]
        · exact Function.update_self ..
        · rw [hread₁]
          refine ofInt_ne ?_ ?_ <;> simp only [wordSize] <;> omega
      | succ j =>
        rw [← hread₁ saved, ← hregs j saved hj, hread₁, Nat.add_right_comm, Nat.add_assoc]
    · rw [hrest w fun j hj => ?_, hm₁]
      · exact Function.update_of_ne (hw 0 (Nat.succ_pos _)) _ _
      · rw [hread₁, Nat.add_right_comm, Nat.add_assoc]
        exact hw (j + 1) (Nat.succ_lt_succ hj)

/-- Registers are loaded one after the other, and others stay. -/
theorem run?_savedLines_lw {index : Nat} {regs : List Reg} (hnodup : regs.Nodup)
    (hsp : .sp ∉ regs) (hzero : .zero ∉ regs)
    (h : p.run? (savedLines .lw index regs) m = some m') : m'.memory = m.memory ∧
      (∀ r, r ∉ regs → m'.read r = m.read r) ∧ ∀ j reg, regs[j]? = some reg →
        m'.read reg = m.memory (BitVec.ofInt 32
          ((m.read .sp).toInt + (wordSize * (index + j) : Nat))) := by
  induction regs generalizing index m with
  | nil =>
    cases h
    exact ⟨rfl, fun _ _ => rfl, nofun⟩
  | cons reg regs ih =>
    rw [List.mem_cons, not_or] at hsp hzero
    obtain ⟨hreg, hnodup⟩ := List.nodup_cons.1 hnodup
    obtain ⟨m₁, hlw, h⟩ := Image.run?_cons.1 h
    have hm₁ := exec_lw hlw
    rw [effective_offset_sp] at hm₁
    obtain ⟨hmemory, hkeep, hregs⟩ := ih hnodup hsp.2 hzero.2 h
    have hmemory₁ : m₁.memory = m.memory := by rw [hm₁]; rfl
    have hsp₁ : m₁.read .sp = m.read .sp := by
      rw [hm₁]
      exact Machine.read_write_of_ne _ hsp.1
    refine ⟨hmemory.trans hmemory₁, fun r hr => ?_, fun j saved hj => ?_⟩
    · rw [List.mem_cons, not_or] at hr
      rw [hkeep r hr.2, hm₁]
      exact Machine.read_write_of_ne _ hr.1
    · cases j with
      | zero =>
        cases hj
        rw [hkeep _ hreg, hm₁]
        exact Machine.read_write_self _ (Ne.symm hzero.1)
      | succ j =>
        rw [hregs j saved hj, hmemory₁, hsp₁, Nat.add_right_comm, Nat.add_assoc]

/-- The prologue saves the registers and reserves the frame below the stack pointer, and the memory
above stays. -/
theorem run?_prologueLines {f : Frame} (hf : f.size < 2147483648)
    (h : p.run? (prologueLines f) m = some m') :
    (m.read .sp).toInt = (m'.read .sp).toInt + f.size + saveAreaSize ∧
      Saves m'.memory ((m'.read .sp).toInt + f.size) m ∧
      ∀ a, (m.read .sp).toInt ≤ a → a < 2147483648 →
        m'.memory (BitVec.ofInt 32 a) = m.memory (BitVec.ofInt 32 a) := by
  obtain ⟨m₁, hfirst, h⟩ := Image.run?_append.1 h
  obtain ⟨m₂, hsave, hlast⟩ := Image.run?_append.1 h
  obtain ⟨hmemory₁, hsp₁, hread₁⟩ := run?_moveLines (by decide) hfirst
  obtain ⟨hread₂, hsaved, hmemory₂⟩ := run?_savedLines_sw (by decide) hsave
  obtain ⟨hmemory₃, hsp₃, -⟩ := run?_moveLines ⟨by omega, by omega⟩ hlast
  have hsize : saveAreaSize = 36 := rfl
  rw [hread₂] at hsp₃
  refine ⟨by omega, fun j reg hj => ?_, fun a hle hlt => ?_⟩
  · have hreg : reg ≠ .sp := by
      rintro rfl
      exact absurd (List.mem_of_getElem? hj) (by decide)
    rw [← hread₁ reg hreg, ← hsaved j reg hj, hmemory₃, Nat.zero_add]
    congr 2
    omega
  · rw [hmemory₃, hmemory₂, hmemory₁]
    intro j hj
    have hj : j < 9 := hj
    have hlow := (m₁.read .sp).le_toInt
    refine (ofInt_ne ?_ ?_).symm <;> simp only [wordSize] <;> omega

/-- The epilogue up to the return. -/
def restoreLines (f : Frame) : List Line :=
  moveLines f.size ++ (savedLines .lw 0 savedRegisters ++ moveLines saveAreaSize)

theorem epilogueLines_eq (f : Frame) :
    epilogueLines f = restoreLines f ++ [.instr (.jr .ra)] := by
  simp only [epilogueLines, restoreLines, List.append_assoc]

/-- The epilogue brings back the registers that were saved, and moves the stack pointer above
them. -/
theorem run?_restoreLines {f : Frame} {saved : Machine} (hf : f.size < 2147483648)
    (hsaved : Saves m.memory ((m.read .sp).toInt + f.size) saved)
    (h : p.run? (restoreLines f) m = some m') : m'.memory = m.memory ∧
      (m'.read .sp).toInt = (m.read .sp).toInt + f.size + saveAreaSize ∧
      ∀ reg ∈ savedRegisters, m'.read reg = saved.read reg := by
  obtain ⟨m₁, hfirst, h⟩ := Image.run?_append.1 h
  obtain ⟨m₂, hload, hlast⟩ := Image.run?_append.1 h
  obtain ⟨hmemory₁, hsp₁, hread₁⟩ := run?_moveLines ⟨by omega, by omega⟩ hfirst
  obtain ⟨hmemory₂, hkeep, hregs⟩ :=
    run?_savedLines_lw (by decide) (by decide) (by decide) hload
  obtain ⟨hmemory₃, hsp₃, hread₃⟩ := run?_moveLines (by decide) hlast
  rw [hkeep .sp (by decide)] at hsp₃
  refine ⟨hmemory₃.trans (hmemory₂.trans hmemory₁), by omega, fun reg hreg => ?_⟩
  have hne : reg ≠ .sp := by
    rintro rfl
    exact absurd hreg (by decide)
  obtain ⟨j, hj⟩ := List.mem_iff_getElem?.1 hreg
  rw [hread₃ reg hne, hregs j reg hj, hmemory₁, hsp₁, Nat.zero_add]
  exact hsaved j reg hj

end Lower

end PascalMips
