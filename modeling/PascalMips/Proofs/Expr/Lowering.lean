import PascalMips.Expr.Lower
import PascalMips.Proofs.Expr.Typing
import PascalMips.Proofs.Lower.Memory
import PascalMips.Proofs.Machine.Arith

/-!
# Code of integer expressions

`Delivers p ctx σ x v`: wherever memory holds the store `σ`, the code that `x` gives for a cursor at
register `n` of the pool leaves the word `v` in that register and keeps all but scratch registers
from `n` on. Each way to build an expression keeps this up, since an operand is evaluated above the
registers in use; by induction the code of an expression delivers its value (`delivers_lower`).
-/

namespace PascalMips.Lower

variable {p : Image} {ctx : Context} {σ : Store} {toWord : Single → Word}

/-- The code of `x` leaves `v` in the register under the cursor, and the cursor where it was. -/
def Delivers (p : Image) (ctx : Context) (σ : Store) (x : Lower Unit) (v : Word) : Prop :=
  ∀ (c : Counters) (m : Machine), ctx.Holds p σ m → Clean (x ctx c).lines →
    (x ctx c).counters = c ∧ ∃ n : Fin 8, c.cursor = n.val ∧
      ∃ m', p.Executes (x ctx c).lines m m' ∧ m'.read (.s n) = v ∧ m.Keeps n m'

/-- The registers of the pool from the cursor on are scratch. -/
theorem isScratch_pool {n : Nat} {i : Fin 8} (h : n ≤ i.val) : (Reg.s i).isScratch n = true := by
  simpa [Reg.isScratch] using h

@[simp] theorem read_write_pool (m : Machine) (i : Fin 8) (w : Word) :
    (m.write (.s i) w).read (.s i) = w := by
  simp [Machine.read_write]

/-! ## Values -/

/-- A literal is loaded into the register at the cursor. -/
theorem delivers_literal {text : String} {v : Word} (h : literalValue text .integer = some v) :
    Delivers p ctx σ (literal text .integer) v := by
  intro c m _ hclean
  obtain ⟨i, hi, rfl⟩ := Option.map_eq_some_iff.1 h
  simp only [literal, bind_apply, cursor_apply, clean_append] at hclean
  obtain ⟨n, hn⟩ := fin_of_clean_register hclean.2.1
  have hlower : literal text .integer ctx c = ⟨(), c, [.instr (.li (.s n) i)]⟩ := by
    simp [literal, bind_apply, register_of_eq hn, hi]
  rw [hlower]
  refine ⟨rfl, n, hn, _, Image.Executes.instr fun _ => rfl, ?_,
    .write (isScratch_pool (Nat.le_refl _)) _ _⟩
  simp

/-- A variable is loaded from its address, which is a label or a distance from the stack pointer. -/
theorem delivers_variableValue {name : String} {symbol : Symbol}
    (hs : ctx.symbols.lookup? name = some symbol) (hb : symbol.binding.bounds? = none) :
    Delivers p ctx σ (variableValue name) (σ (.var name)) := by
  intro c m hm hclean
  simp only [variableValue, bind_apply, cursor_apply, clean_append, counters_register] at hclean
  obtain ⟨n, hn⟩ := fin_of_clean_register hclean.2.1
  obtain ⟨⟨storage, bounds?⟩, hplace⟩ := place_of_clean_locate hclean.2.2.1
  obtain rfl : bounds? = none := (ctx.bounds_of_place hs hplace).trans hb
  have hlower : variableValue name ctx c = ⟨(), c, [.instr (.lw (.s n) storage.address)]⟩ := by
    simp [variableValue, bind_apply, register_of_eq hn, locate_of_place hplace]
  have haddr : ctx.address? p m (.var name) = some (storage.base p m) := by
    simp [Context.address?, hplace]
  rw [hlower]
  refine ⟨rfl, n, hn, m.write (.s n) (σ (.var name)), Image.Executes.instr fun _ => ?_, by simp,
    .write (isScratch_pool (Nat.le_refl _)) _ _⟩
  simp [Instr.exec, effective_address, hm.load haddr]

/-! ## Array elements -/

@[simp] theorem read_write_t9 (m : Machine) (w : Word) : (m.write .t9 w).read .t9 = w := by
  simp [Machine.read_write]

theorem keeps_t9 (n : Nat) (m : Machine) (w : Word) : m.Keeps n (m.write .t9 w) := .write rfl m w

theorem counters_elementOffset (r : Reg) (lo : Int) (c : Counters) :
    (elementOffset r lo ctx c).counters = c := by
  unfold elementOffset
  split
  · rfl
  · split <;> rfl

theorem counters_addPlace (s : Storage) (c : Counters) : (addPlace s ctx c).counters = c := by
  cases s with
  | global => rfl
  | stack offset =>
    simp only [addPlace, bind_apply, emit_apply]
    split <;> rfl

/-- All three ways to subtract the lower bound leave the same difference. -/
theorem executes_elementOffset {r : Reg} {w : Word} {lo : Int} {m : Machine} (ctx : Context)
    (c : Counters) (hr : m.read r = w) (hr9 : r ≠ .t9) (hz : r ≠ .zero) (hlo : Literal.InRange lo)
    (hle : lo ≤ w.toInt) (hlt : w.toInt - lo < 2147483648) :
    ∃ m', p.Executes (elementOffset r lo ctx c).lines m m' ∧
      m'.read .t9 = BitVec.ofInt 32 (w.toInt - lo) ∧ m.Keeps 8 m' := by
  have hdiff : Literal.InRange (w.toInt - lo) := ⟨by omega, by omega⟩
  have hw : m.read r = BitVec.ofInt 32 w.toInt := by rw [hr, BitVec.ofInt_toInt]
  unfold elementOffset
  split
  · rename_i h0
    refine ⟨_, Image.Executes.instr fun _ => rfl, ?_, keeps_t9 8 m _⟩
    rw [read_write_t9, h0, Int.sub_zero, hw]
  · split
    · rename_i hneg
      refine ⟨m.write .t9 (BitVec.ofInt 32 (w.toInt - lo)), Image.Executes.instr fun _ => ?_,
        read_write_t9 .., keeps_t9 8 m _⟩
      simp only [Instr.exec, hw, addTrap_ofInt (inRange_toInt w) hneg hdiff, Int.sub_eq_add_neg]
      rfl
    · -- the least integer has no negation: load it, and subtract
      refine ⟨(m.write .t9 (BitVec.ofInt 32 lo)).write .t9 (BitVec.ofInt 32 (w.toInt - lo)), ?_,
        read_write_t9 .., (keeps_t9 8 m _).trans (keeps_t9 8 _ _)⟩
      refine Image.Executes.cons (fun _ => rfl) (Image.Executes.instr fun _ => ?_)
      simp only [Instr.exec, AluOp.exec, read_write_t9, Machine.read_write _ _ _ _ hz, if_neg hr9,
        hw, subTrap_ofInt (inRange_toInt w) hlo hdiff]
      rfl

/-- Adding a register to the address register, where the sum does not trap. -/
theorem executes_addTo_t9 {r : Reg} {d : Int} {m : Machine} (h9 : m.read .t9 = BitVec.ofInt 32 d)
    (hd : Literal.InRange d) (hsum : Literal.InRange (d + (m.read r).toInt)) :
    p.Executes [.instr (.alu .add .t9 .t9 r)] m
      (m.write .t9 (BitVec.ofInt 32 (d + (m.read r).toInt))) := by
  have hr : m.read r = BitVec.ofInt 32 (m.read r).toInt := by rw [BitVec.ofInt_toInt]
  have hadd : addTrap (m.read .t9) (m.read r) = some (BitVec.ofInt 32 (d + (m.read r).toInt)) := by
    rw [h9, hr, addTrap_ofInt hd (inRange_toInt _) hsum, ← hr]
  refine Image.Executes.instr fun _ => ?_
  simp only [Instr.exec, AluOp.exec, hadd]
  rfl

/-- Adding a place to an offset does not trap if the sum and the place are addresses of user space.
The stack pointer may be any word. -/
theorem executes_addPlace_of_base {s : Storage} {d : Int} {m : Machine} (ctx : Context)
    (c : Counters) (hoff : 0 ≤ s.offset ∧ s.offset < 2147483648) (hbase : 0 ≤ s.base p m)
    (h9 : m.read .t9 = BitVec.ofInt 32 d) (hd : 0 ≤ d) (hlt : s.base p m + d < 2147483648) :
    ∃ m', p.Executes (addPlace s ctx c).lines m m' ∧
      m'.read .t9 = BitVec.ofInt 32 (s.base p m + d) ∧ m.Keeps 8 m' := by
  unfold Storage.base at hbase hlt ⊢
  cases s with
  | global label =>
    simp only [Storage.origin, Storage.offset] at hoff hbase hlt ⊢
    have h8 : (m.write .t8 (p.data label)).read .t8 = p.data label := by
      simp [Machine.read_write]
    have h9' : (m.write .t8 (p.data label)).read .t9 = BitVec.ofInt 32 d := by
      simpa [Machine.read_write] using h9
    have hload : p.Executes [.instr (.la .t8 label)] m (m.write .t8 (p.data label)) :=
      Image.Executes.instr fun _ => rfl
    have hadd := executes_addTo_t9 (p := p) (r := .t8) h9' ⟨by omega, by omega⟩
      (by rw [h8]; exact ⟨by omega, by omega⟩)
    refine ⟨_, hload.append hadd, ?_, (Machine.Keeps.write rfl m _).trans (keeps_t9 8 _ _)⟩
    rw [read_write_t9, h8]
    congr 1
    omega
  | stack offset =>
    simp only [Storage.origin, Storage.offset] at hoff hbase hlt ⊢
    -- The stack pointer lies at most an offset below address zero.
    have hadd := executes_addTo_t9 (p := p) (r := .sp) h9 ⟨by omega, by omega⟩
      ⟨by omega, by omega⟩
    simp only [addPlace, bind_apply, emit_apply]
    split
    · rename_i h0
      refine ⟨_, hadd, ?_, keeps_t9 8 m _⟩
      rw [read_write_t9, h0]
      congr 1
      omega
    · refine ⟨(m.write .t9 (BitVec.ofInt 32 (d + (m.read .sp).toInt))).write .t9
          (BitVec.ofInt 32 ((m.read .sp).toInt + offset + d)),
        hadd.append (Image.Executes.instr fun _ => ?_), read_write_t9 ..,
        (keeps_t9 8 m _).trans (keeps_t9 8 _ _)⟩
      have hlast : addTrap (BitVec.ofInt 32 (d + (m.read .sp).toInt)) (BitVec.ofInt 32 offset) =
          some (BitVec.ofInt 32 ((m.read .sp).toInt + offset + d)) := by
        rw [addTrap_ofInt ⟨by omega, by omega⟩ ⟨by omega, by omega⟩ ⟨by omega, by omega⟩]
        congr 2
        omega
      simp only [Instr.exec, read_write_t9, hlast]
      rfl

/-- Adding the place of an array to an offset gives the address of a word of that array. -/
theorem executes_addPlace {s : Storage} {words : Nat} {d : Int} {m : Machine} (ctx : Context)
    (c : Counters) (hs : s.Fits p m words) (h9 : m.read .t9 = BitVec.ofInt 32 d) (hd : 0 ≤ d)
    (hlt : d < 4 * words) :
    ∃ m', p.Executes (addPlace s ctx c).lines m m' ∧
      m'.read .t9 = BitVec.ofInt 32 (s.base p m + d) ∧ m.Keeps 8 m' := by
  have ho := hs.origin
  have hoff := hs.offset
  have hb := hs.bound
  have hbase : s.base p m = s.origin p m + s.offset := rfl
  exact executes_addPlace_of_base ctx c ⟨hoff, by omega⟩ (by omega) h9 hd (by omega)

/-- The address of an element, if its index is delivered and within the bounds. The index is
evaluated above the cursor. -/
theorem executes_elementAddress {name : String} {index : Lower Unit} {w : Word} {symbol : Symbol}
    {bounds : Bounds} {c : Counters} {m : Machine}
    (hs : ctx.symbols.lookup? name = some symbol) (hb : symbol.binding.bounds? = some bounds)
    (hindex : Delivers p ctx σ index w) (hlo : bounds.lo ≤ w.toInt) (hhi : w.toInt ≤ bounds.hi)
    (hm : ctx.Holds p σ m) (hclean : Clean (elementAddress name .integer index ctx c).lines) :
    (elementAddress name .integer index ctx c).counters = c ∧
      (elementAddress name .integer index ctx c).value = true ∧
      ∃ a m', ctx.address? p m (.element name w.toInt) = some a ∧
        p.Executes (elementAddress name .integer index ctx c).lines m m' ∧
        m'.read .t9 = BitVec.ofInt 32 a ∧ m.Keeps (c.cursor + 1) m' := by
  simp only [elementAddress, bind_apply, take_apply, release_apply, clean_append,
    List.nil_append] at hclean
  obtain ⟨hcount, n, hn, m₁, hrun₁, hread₁, hkeep₁⟩ := hindex _ m hm hclean.1
  obtain ⟨⟨storage, bounds?⟩, hplace⟩ := place_of_clean_locate hclean.2.2.2.2.1
  obtain rfl : bounds? = some bounds := (ctx.bounds_of_place hs hplace).trans hb
  have hfits := hm.fits _ _ _ hplace
  have hwords : 4 * (w.toInt - bounds.lo) < 4 * wordsOf (some bounds) := by
    simp only [wordsOf, Option.map_some, Option.getD_some, Bounds.size]
    omega
  have hbase : 0 ≤ storage.base p m := Int.add_nonneg hfits.origin hfits.offset
  have hbound := hfits.bound
  obtain ⟨m₂, hrun₂, hread₂, hkeep₂⟩ := executes_elementOffset (p := p) ctx c hread₁
    (by simp) (by simp) (hm.inRange _ _ _ hplace).1 hlo (by omega)
  have hkeep : m.Keeps n (m₂.write .t9 (BitVec.ofInt 32 (4 * (w.toInt - bounds.lo)))) :=
    (hkeep₁.trans (hkeep₂.mono (Nat.le_of_lt n.isLt))).trans (keeps_t9 n _ _)
  obtain ⟨m₃, hrun₃, hread₃, hkeep₃⟩ := executes_addPlace (p := p) ctx c
    (hfits.congr hkeep.sp) (read_write_t9 ..) (by omega) hwords
  have hn : c.cursor + 1 = n.val := hn
  have hlower : elementAddress name .integer index ctx c =
      ⟨true, c, (index ctx (c.take 1)).lines ++
        ((elementOffset (.s n) bounds.lo ctx c).lines ++
          (.instr (.sll .t9 .t9 2) :: (addPlace storage ctx c).lines))⟩ := by
    simp [elementAddress, bind_apply, hcount, register_of_eq hn, convert, pure_apply,
      locate_of_place hplace, counters_elementOffset, counters_addPlace]
  rw [hlower]
  refine ⟨rfl, rfl, storage.base p m + 4 * (w.toInt - bounds.lo), m₃, ?_,
    hrun₁.append (hrun₂.append (Image.Executes.cons (fun _ => ?_) hrun₃)), ?_, ?_⟩
  · simp [Context.address?, hplace, hlo, hhi]
  · simp only [Instr.exec, hread₂, shiftLeft_two]
  · rw [hread₃, Storage.base_congr hkeep.sp]
  · rw [hn]
    exact hkeep.trans (hkeep₃.mono (Nat.le_of_lt n.isLt))

/-- An element is loaded from the address that is computed for its index. The index is evaluated one
register above, so what is below is kept. -/
theorem delivers_elementValue {name : String} {index : Lower Unit} {w : Word} {symbol : Symbol}
    {bounds : Bounds} (hs : ctx.symbols.lookup? name = some symbol)
    (hb : symbol.binding.bounds? = some bounds) (hindex : Delivers p ctx σ index w)
    (hlo : bounds.lo ≤ w.toInt) (hhi : w.toInt ≤ bounds.hi) :
    Delivers p ctx σ (elementValue name .integer index) (σ (.element name w.toInt)) := by
  intro c m hm hclean
  simp only [elementValue, bind_apply, cursor_apply, clean_append, counters_register] at hclean
  obtain ⟨n, hn⟩ := fin_of_clean_register hclean.2.1
  obtain ⟨hcount, hvalue, a, m₁, haddr, hrun, hread, hkeep⟩ :=
    executes_elementAddress hs hb hindex hlo hhi hm hclean.2.2.1
  have hlower : elementValue name .integer index ctx c =
      ⟨(), c, (elementAddress name .integer index ctx c).lines ++
        [.instr (.lw (.s n) (.offset 0 .t9))]⟩ := by
    simp [elementValue, bind_apply, register_of_eq hn, hvalue, hcount]
  have hkeep : m.Keeps n m₁ := hkeep.mono (by omega)
  have hload : m₁.load (m₁.effective p (.offset 0 .t9)) = some (σ (.element name w.toInt)) := by
    rw [← (hm.keeps hkeep).load (m := m₁) (by rw [ctx.address?_congr hkeep.sp, haddr])]
    simp [Machine.effective, hread]
  rw [hlower]
  refine ⟨rfl, n, hn, m₁.write (.s n) (σ (.element name w.toInt)),
    hrun.append (Image.Executes.instr fun _ => ?_), by simp,
    hkeep.trans (.write (isScratch_pool (Nat.le_refl _)) _ _)⟩
  simp [Instr.exec, hload]

/-! ## Operations -/

/-- Two operands go to the two registers above the cursor. -/
theorem executes_operands {left right : Lower Unit} {a b : Word} {c : Counters} {m : Machine}
    (hl : Delivers p ctx σ left a) (hr : Delivers p ctx σ right b) (hm : ctx.Holds p σ m)
    (hclean : Clean (operands left right ctx c).lines) :
    (operands left right ctx c).counters = c ∧
      ∃ i j : Fin 8, c.cursor + 1 = i.val ∧ c.cursor + 2 = j.val ∧
        ∃ m', p.Executes (operands left right ctx c).lines m m' ∧ m'.read (.s i) = a ∧
          m'.read (.s j) = b ∧ m.Keeps i m' := by
  simp only [operands, bind_apply, take_apply, clean_append, List.nil_append] at hclean
  obtain ⟨hcl, i, hi, m₁, hrun₁, hread₁, hkeep₁⟩ := hl _ m hm hclean.1
  rw [hcl, Counters.take_take] at hclean
  obtain ⟨hcr, j, hj, m₂, hrun₂, hread₂, hkeep₂⟩ := hr _ m₁ (hm.keeps hkeep₁) hclean.2.1
  have hi : c.cursor + 1 = i.val := hi
  have hj : c.cursor + 2 = j.val := hj
  have hlower : operands left right ctx c =
      ⟨(), c, (left ctx (c.take 1)).lines ++ (right ctx (c.take 2)).lines⟩ := by
    simp [operands, bind_apply, hcl, hcr]
  rw [hlower]
  exact ⟨rfl, i, j, hi, hj, m₂, hrun₁.append hrun₂, by rw [hkeep₂.pool (by omega), hread₁],
    hread₂, hkeep₁.trans (hkeep₂.mono (by omega))⟩

section Apply

variable {n : Fin 8} {a b v : Word} {r₁ r₂ : Reg} {m : Machine}

/-- An instruction that writes its result to a register of the pool. -/
theorem executes_result {i : Instr} (h : ∀ pc, i.exec p pc m = some (.next, m.write (.s n) v)) :
    ∃ m', p.Executes [.instr i] m m' ∧ m'.read (.s n) = v ∧ m.Keeps n m' :=
  ⟨_, Image.Executes.instr h, by simp, .write (isScratch_pool (Nat.le_refl _)) _ _⟩

/-- An instruction that leaves its result in `hi` and `lo`, and one that fetches it. -/
theorem executes_fetch {i fetch : Instr} {hi lo : Word}
    (h : ∀ pc, i.exec p pc m = some (.next, { m with hi := hi, lo := lo }))
    (hfetch : ∀ pc, fetch.exec p pc { m with hi := hi, lo := lo } =
      some (.next, { m with hi := hi, lo := lo }.write (.s n) v)) :
    ∃ m', p.Executes [.instr i, .instr fetch] m m' ∧ m'.read (.s n) = v ∧ m.Keeps n m' := by
  obtain ⟨m', hrun, hread, hkeep⟩ := executes_result hfetch
  have hkeep₀ : m.Keeps n { m with hi := hi, lo := lo } :=
    ⟨fun r _ => by cases r <;> rfl, rfl, rfl, rfl⟩
  exact ⟨m', Image.Executes.cons h hrun, hread, hkeep₀.trans hkeep⟩

/-- The code of an operation on integers computes its value. -/
theorem executes_apply {env : Env} {op : BinaryOp} (ctx : Context) (c : Counters)
    (ha : m.read r₁ = a) (hb : m.read r₂ = b)
    (hv : op.value env .integer .integer .integer a b = some v) :
    ∃ m', p.Executes (apply op .integer (.s n) r₁ r₂ .integer .integer ctx c).lines m m' ∧
      m'.read (.s n) = v ∧ m.Keeps n m' := by
  cases op with
  | rel relation =>
    cases hv
    exact executes_result fun _ => by simp [Instr.exec, ha, hb, BinaryOp.compareWords,
      ValueType.widen]
  | and =>
    cases hv
    exact executes_result fun _ => by simp [Instr.exec, AluOp.exec, ha, hb, ValueType.toInteger]
  | or =>
    cases hv
    exact executes_result fun _ => by simp [Instr.exec, AluOp.exec, ha, hb, ValueType.toInteger]
  | div =>
    obtain ⟨hi, hdiv⟩ := divide_of_quotient (a := a) (b := b) hv m
    exact executes_fetch (fun _ => by rw [Instr.exec, ha, hb, hdiv]; rfl) fun _ => rfl
  | mod =>
    obtain ⟨lo, hdiv⟩ := divide_of_remainder (a := a) (b := b) hv m
    exact executes_fetch (fun _ => by rw [Instr.exec, ha, hb, hdiv]; rfl) fun _ => rfl
  | add =>
    exact executes_result fun _ => by simp [Instr.exec, AluOp.exec, ha, hb, addTrap_of_checked hv]
  | sub =>
    exact executes_result fun _ => by simp [Instr.exec, AluOp.exec, ha, hb, subTrap_of_checked hv]
  | mul =>
    cases hv
    exact executes_fetch (fun _ => rfl) fun _ => by
      simp [Instr.exec, ha, hb, setWidth_mul_signExtend]
  | divide =>
    obtain ⟨hi, hdiv⟩ := divide_of_quotient (a := a) (b := b) hv m
    exact executes_fetch (fun _ => by rw [Instr.exec, ha, hb, hdiv]; rfl) fun _ => rfl

theorem counters_apply (op : BinaryOp) (d r₁ r₂ : Reg) (c : Counters) :
    (apply op .integer d r₁ r₂ .integer .integer ctx c).counters = c := by
  cases op <;> rfl

end Apply

/-- Operands are evaluated one above the other, and the operator takes both to the register at the
cursor. -/
theorem delivers_binary {env : Env} {op : BinaryOp} {left right : Lower Unit} {a b v : Word}
    (hl : Delivers p ctx σ left a) (hr : Delivers p ctx σ right b)
    (hv : op.value env .integer .integer .integer a b = some v) :
    Delivers p ctx σ (binary op .integer .integer .integer left right) v := by
  intro c m hm hclean
  simp only [binary, bind_apply, cursor_apply, clean_append, counters_register] at hclean
  obtain ⟨hcount, i, j, hi, hj, m₁, hrun₁, hreadi, hreadj, hkeep₁⟩ :=
    executes_operands hl hr hm hclean.2.1
  obtain ⟨n, hn⟩ := fin_of_clean_register hclean.2.2.1
  obtain ⟨m₂, hrun₂, hread, hkeep₂⟩ :=
    executes_apply (p := p) (n := n) ctx c hreadi hreadj hv
  have hlower : binary op .integer .integer .integer left right ctx c =
      ⟨(), c, (operands left right ctx c).lines ++
        (apply op .integer (.s n) (.s i) (.s j) .integer .integer ctx c).lines⟩ := by
    simp [binary, bind_apply, hcount, register_of_eq hn, register_of_eq hi, register_of_eq hj,
      counters_apply]
  rw [hlower]
  exact ⟨rfl, n, hn, m₂, hrun₁.append hrun₂, hread, (hkeep₁.mono (by omega)).trans hkeep₂⟩

/-- An operand is evaluated one register above. Negation is a subtraction from zero, which does not
trap on a value that the operation has. -/
theorem delivers_unary {env : Env} {op : UnaryOp} {operand : Lower Unit} {a v : Word}
    (ho : Delivers p ctx σ operand a) (hv : op.value env .integer .integer a = some v) :
    Delivers p ctx σ (unary op .integer .integer operand) v := by
  intro c m hm hclean
  simp only [unary, bind_apply, cursor_apply, take_apply, release_apply, clean_append,
    List.nil_append] at hclean
  obtain ⟨hcount, i, hi, m₁, hrun₁, hread₁, hkeep₁⟩ := ho _ m hm hclean.1
  obtain ⟨n, hn⟩ := fin_of_clean_register hclean.2.1
  have hi : c.cursor + 1 = i.val := hi
  have hkeep : m.Keeps n m₁ := hkeep₁.mono (by omega)
  cases op with
  | neg =>
    have hlower : unary .neg .integer .integer operand ctx c =
        ⟨(), c, (operand ctx (c.take 1)).lines ++
          [.instr (.alu .sub (.s n) .zero (.s i))]⟩ := by
      simp [unary, bind_apply, hcount, register_of_eq hn, register_of_eq hi]
    obtain ⟨m₂, hrun₂, hread, hkeep₂⟩ := executes_result (p := p) (n := n) (v := v) (m := m₁)
      (i := .alu .sub (.s n) .zero (.s i)) fun _ => by
        rw [Instr.exec, AluOp.exec, Machine.read_zero, hread₁, subTrap_zero_of_checked hv]
        rfl
    rw [hlower]
    exact ⟨rfl, n, hn, m₂, hrun₁.append hrun₂, hread, hkeep.trans hkeep₂⟩
  | not =>
    have hlower : unary .not .integer .integer operand ctx c =
        ⟨(), c, (operand ctx (c.take 1)).lines ++
          [.instr (.set .eq (.s n) (.s i) .zero)]⟩ := by
      simp [unary, bind_apply, hcount, register_of_eq hn, register_of_eq hi, convert, pure_apply]
    obtain ⟨m₂, hrun₂, hread, hkeep₂⟩ := executes_result (p := p) (n := n) (v := v) (m := m₁)
      (i := .set .eq (.s n) (.s i) .zero) fun _ => by
        have hzero : Relation.eq.holds a.toInt (0 : Word).toInt = decide (a = 0) :=
          decide_eq_decide.2 Word.toInt_eq_zero
        cases hv
        rw [Instr.exec, hread₁, Machine.read_zero, hzero]
        rfl
    rw [hlower]
    exact ⟨rfl, n, hn, m₂, hrun₁.append hrun₂, hread, hkeep.trans hkeep₂⟩

end PascalMips.Lower

namespace PascalMips.Expr

open Lower

variable {p : Image} {ctx : Context} {σ : Store} {toWord : Single → Word}

/-- The element of an environment over a store is there only within the bounds of its array. -/
theorem element_of_env {t : SymbolTable} {name : String} {i w : Word}
    (h : (σ.env t toWord).element name i = some w) :
    ∃ symbol bounds, t.lookup? name = some symbol ∧ symbol.binding.bounds? = some bounds ∧
      bounds.lo ≤ i.toInt ∧ i.toInt ≤ bounds.hi ∧ w = σ (.element name i.toInt) := by
  simp only [Store.env] at h
  split at h
  · rename_i bounds hbounds
    obtain ⟨symbol, hs, hb⟩ := Option.bind_eq_some_iff.1 hbounds
    split at h <;> cases h
    rename_i hrange
    exact ⟨symbol, bounds, hs, hb, hrange.1, hrange.2, rfl⟩
  · cases h

/-- The code of an integer expression delivers its value. -/
theorem delivers_lower : ∀ {e : Expr} {v : Word}, e.Integral → e.WellTyped ctx.symbols →
    e.eval (σ.env ctx.symbols toWord) = some v → Delivers p ctx σ e.lower v
  | .literal text type, v, hi, _, hv => by
    obtain ⟨rfl, -⟩ : type = .integer ∧ _ := hi
    rw [lower]
    exact delivers_literal hv
  | .var name type, v, _, ht, hv => by
    obtain ⟨⟨symbol, hs, hb⟩, -⟩ := ht
    cases hv
    rw [lower]
    exact delivers_variableValue hs (by rw [hb]; rfl)
  | .element name type index, v, hi, ht, hv => by
    rw [eval, Option.bind_eq_bind, Option.bind_eq_some_iff] at hv
    obtain ⟨w, hw, helement⟩ := hv
    have htype : index.type = .integer := hi.2.self.1
    rw [htype] at helement
    obtain ⟨symbol, bounds, hs, hb, hlo, hhi, rfl⟩ := element_of_env helement
    rw [lower, htype]
    exact delivers_elementValue hs hb (delivers_lower hi.2 ht.2 hw) hlo hhi
  | .call .., _, hi, _, _ => absurd trivial hi.1.2
  | .binary op left right type, v, hi, ht, hv => by
    rw [eval] at hv
    simp only [Option.bind_eq_bind, Option.bind_eq_some_iff] at hv
    obtain ⟨a, ha, b, hb, hv⟩ := hv
    have htype : type = .integer := hi.1.1
    rw [htype, hi.2.1.self.1, hi.2.2.self.1] at hv
    rw [lower, htype, hi.2.1.self.1, hi.2.2.self.1]
    exact delivers_binary (delivers_lower hi.2.1 ht.2.1 ha) (delivers_lower hi.2.2 ht.2.2 hb) hv
  | .unary op operand type, v, hi, ht, hv => by
    rw [eval, Option.bind_eq_bind, Option.bind_eq_some_iff] at hv
    obtain ⟨a, ha, hv⟩ := hv
    have htype : type = .integer := hi.1.1
    rw [htype, hi.2.self.1] at hv
    rw [lower, htype, hi.2.self.1]
    exact delivers_unary (delivers_lower hi.2 ht.2 ha) hv

/-- The code of an integer expression that marks no diagnostic leaves the expression's value in the
register of the pool under the cursor. It keeps the registers below, the stack pointer and memory,
and the cursor is left where it was. -/
theorem reaches_value {e : Expr} {v : Word} {c : Counters} {pc : Nat} {m : Machine}
    (hi : e.Integral) (ht : e.WellTyped ctx.symbols) (hclean : Clean (e.lower ctx c).lines)
    (hm : ctx.Holds p σ m) (hp : p.Has pc (e.lower ctx c).lines)
    (hv : e.eval (σ.env ctx.symbols toWord) = some v) :
    (e.lower ctx c).counters = c ∧ ∃ (n : Nat) (r : Reg) (m' : Machine),
      c.cursor = n ∧ Reg.pool[n]? = some r ∧
      p.Reaches (pc, m) (pc + (e.lower ctx c).lines.length, m') ∧ m'.read r = v ∧
      (∀ i q, i < n → Reg.pool[i]? = some q → m'.read q = m.read q) ∧
      m'.read .sp = m.read .sp ∧ m'.memory = m.memory := by
  obtain ⟨hcount, n, hn, m', hrun, hread, hkeep⟩ := delivers_lower hi ht hv c m hm hclean
  refine ⟨hcount, n, .s n, m', hn, pool_fin n, hrun pc hp, hread, ?_, hkeep.sp, hkeep.memory⟩
  intro i q hlt hq
  have hi8 : i < 8 := Nat.lt_trans hlt n.isLt
  cases (pool_fin ⟨i, hi8⟩).symm.trans hq
  exact hkeep.pool hlt

/-! ## A sample state -/

/-- A variable `x` under a label and an array `a[-1..2]` in the frame. -/
def sampleContext : Context where
  symbols := ⟨[], [⟨0, "x", .scalar .integer, none⟩, ⟨1, "a", .array .integer ⟨-1, 2⟩, none⟩], 2⟩
  storage := ⟨[(0, .global (.ofVariable "x")), (1, .stack 8)]⟩
  path := []

/-- `x` is 1, `a[0]` is 5 and all else 0. -/
def sampleStore : Store := fun cell =>
  if cell = .var "x" then 1 else if cell = .element "a" 0 then 5 else 0

def sampleMachine : Machine where
  regs := fun r => if r = .sp then 0x7fff0000 else 0
  hi := 0
  lo := 0
  fregs := fun _ => 0
  flag := false
  memory := fun w => if w = 0x10010000 then 1 else if w = 0x7fff000c then 5 else 0
  input := [2]
  output := ""

def sampleImage (lines : List Line) (h : 4 * lines.length < 4294967296) : Image :=
  Image.ofLines lines (fun _ => 0x10010000) (fun _ => 0) (fun _ => "") h

/-- The names with a place in the sample are `x` and `a`. -/
theorem sample_place {name : String} {place : Storage × Option Bounds}
    (h : sampleContext.place? name = some place) :
    name = "x" ∧ place = (.global (.ofVariable "x"), none) ∨
      name = "a" ∧ place = (.stack 8, some ⟨-1, 2⟩) := by
  by_cases hx : name = "x"
  · subst hx
    cases h
    exact .inl ⟨rfl, rfl⟩
  · by_cases ha : name = "a"
    · subst ha
      cases h
      exact .inr ⟨rfl, rfl⟩
    · have hnone : sampleContext.place? name = none := by
        simp [Context.place?, sampleContext, SymbolTable.lookup?, SymbolTable.lookupWithDepth?,
          SymbolTable.findIn, SymbolTable.scopes, Scope.lookup?, Ne.symm hx, Ne.symm ha]
      rw [hnone] at h
      cases h

theorem sample_origin_x (lines : List Line) (h : 4 * lines.length < 4294967296) :
    (Storage.global (.ofVariable "x")).origin (sampleImage lines h) sampleMachine = 0x10010000 := by
  show (0x10010000 : Word).toInt = _
  decide

theorem sample_origin_a (lines : List Line) (h : 4 * lines.length < 4294967296) :
    (Storage.stack 8).origin (sampleImage lines h) sampleMachine = 0x7fff0000 := by
  show (0x7fff0000 : Word).toInt = _
  decide

/-- Where the variable and the elements of the array are. -/
theorem sample_address {lines : List Line} {h : 4 * lines.length < 4294967296} {cell : Cell}
    {a : Int} (ha : sampleContext.address? (sampleImage lines h) sampleMachine cell = some a) :
    cell = .var "x" ∧ a = 0x10010000 ∨
      ∃ i, cell = .element "a" i ∧ -1 ≤ i ∧ i ≤ 2 ∧ a = 0x7fff0008 + 4 * (i + 1) := by
  cases cell with
  | var name =>
    simp only [Context.address?] at ha
    split at ha <;> cases ha
    rename_i hplace
    obtain ⟨rfl, heq⟩ | ⟨-, heq⟩ := sample_place hplace <;> cases heq
    exact .inl ⟨rfl, by simp [Storage.base, sample_origin_x, Storage.offset]⟩
  | element name i =>
    simp only [Context.address?] at ha
    split at ha
    · rename_i hplace
      obtain ⟨-, heq⟩ | ⟨rfl, heq⟩ := sample_place hplace <;> cases heq
      split at ha <;> cases ha
      rename_i hrange
      exact .inr ⟨i, rfl, hrange.1, hrange.2, by
        simp [Storage.base, sample_origin_a, Storage.offset]⟩
    · cases ha

/-- The memory of the sample holds its store: all cells lie at different words, which are looked at
one by one. -/
theorem sample_holds (lines : List Line) (h : 4 * lines.length < 4294967296) :
    sampleContext.Holds (sampleImage lines h) sampleStore sampleMachine where
  fits name storage bounds? hplace := by
    obtain ⟨-, heq⟩ | ⟨-, heq⟩ := sample_place hplace <;> cases heq <;> constructor <;>
      simp [Storage.base, sample_origin_x, sample_origin_a, Storage.offset, wordsOf, Bounds.size]
  inRange name storage bounds hplace := by
    obtain ⟨-, heq⟩ | ⟨-, heq⟩ := sample_place hplace <;> cases heq
    decide
  value cell a ha := by
    obtain ⟨rfl, rfl⟩ | ⟨i, rfl, hlo, hhi, rfl⟩ := sample_address ha
    · rfl
    · obtain rfl | rfl | rfl | rfl : i = -1 ∨ i = 0 ∨ i = 1 ∨ i = 2 := by omega
      all_goals decide

/-- `a[x - 1] * 3 + x`. -/
def sampleExpr : Expr :=
  .binary .add
    (.binary .mul
      (.element "a" .integer
        (.binary .sub (.var "x" .integer) (.literal "1" .integer) .integer))
      (.literal "3" .integer) .integer)
    (.var "x" .integer) .integer

theorem sample_wellTyped : sampleExpr.WellTyped sampleContext.symbols := by
  have hx : (var "x" .integer).WellTyped sampleContext.symbols := ⟨⟨_, rfl, rfl⟩, trivial⟩
  have hindex : (binary .sub (var "x" .integer) (literal "1" .integer) .integer).WellTyped
      sampleContext.symbols := ⟨⟨trivial, rfl⟩, hx, trivial, trivial⟩
  exact ⟨⟨trivial, rfl⟩,
    ⟨⟨trivial, rfl⟩, ⟨⟨⟨_, _, rfl, rfl⟩, trivial⟩, hindex⟩, trivial, trivial⟩, hx⟩

/-- The code of the sample leaves its value in the first register. -/
theorem reaches_sample_value :
    let lines := (sampleExpr.lower sampleContext ⟨2, 0, 0, false⟩).lines
    let p := sampleImage lines (by decide +kernel)
    ∃ m', p.Reaches (0, sampleMachine) (lines.length, m') ∧ m'.read (.s 2) = 16 ∧
      m'.read (.s 1) = sampleMachine.read (.s 1) := by
  intro lines p
  have hv : sampleExpr.eval (sampleStore.env sampleContext.symbols p.toWord) = some 16 := by
    decide +kernel
  have hhas : p.Has 0 (sampleExpr.lower sampleContext ⟨2, 0, 0, false⟩).lines := List.prefix_refl lines
  have hintegral : sampleExpr.Integral := by
    simp [Integral, All, sampleExpr, Expr.type, IsCall]
  obtain ⟨-, n, r, m', hn, hr, hrun, hread, hpool, -⟩ :=
    reaches_value hintegral sample_wellTyped (by decide +kernel) (sample_holds lines _) hhas hv
  cases hn
  cases hr
  exact ⟨m', Nat.zero_add lines.length ▸ hrun, hread, hpool 1 (.s 1) (by decide) rfl⟩

end PascalMips.Expr
