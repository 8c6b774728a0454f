import PascalMips.Proofs.Expr.Meaning

/-!
# Integer arithmetic of the machine

The instructions that can trap or leave a result open agree with the arithmetic of integers where
that has a result of 32 bits.
-/

namespace PascalMips

theorem inRange_toInt (w : Word) : Literal.InRange w.toInt := by
  have h1 := w.le_toInt
  have h2 := w.toInt_lt
  unfold Literal.InRange
  omega

theorem toInt_ofInt {i : Int} (h : Literal.InRange i) : (BitVec.ofInt 32 i).toInt = i := by
  obtain ⟨h1, h2⟩ := h
  rw [BitVec.toInt_ofInt, Int.bmod_eq_of_le] <;> omega

namespace Word

theorem checked_eq_some {i : Int} {w : Word} :
    checked i = some w ↔ Literal.InRange i ∧ BitVec.ofInt 32 i = w := by
  simp [checked]

theorem toInt_eq_zero {w : Word} : w.toInt = 0 ↔ w = 0 :=
  ⟨fun h => BitVec.eq_of_toInt_eq h, fun h => h ▸ rfl⟩

end Word

theorem addTrap_of_checked {a b w : Word} (h : Word.checked (a.toInt + b.toInt) = some w) :
    addTrap a b = some w := by
  obtain ⟨⟨h1, h2⟩, hw⟩ := Word.checked_eq_some.1 h
  have hno : a.saddOverflow b = false := by
    simp only [BitVec.saddOverflow, Bool.or_eq_false_iff, decide_eq_false_iff_not]
    omega
  rw [addTrap, hno, ← hw, BitVec.ofInt_add, BitVec.ofInt_toInt, BitVec.ofInt_toInt]
  rfl

theorem subTrap_of_checked {a b w : Word} (h : Word.checked (a.toInt - b.toInt) = some w) :
    subTrap a b = some w := by
  obtain ⟨⟨h1, h2⟩, hw⟩ := Word.checked_eq_some.1 h
  have hno : a.ssubOverflow b = false := by
    simp only [BitVec.ssubOverflow, Bool.or_eq_false_iff, decide_eq_false_iff_not]
    omega
  rw [subTrap, hno, ← hw, Int.sub_eq_add_neg, BitVec.ofInt_add, BitVec.ofInt_neg,
    BitVec.ofInt_toInt, BitVec.ofInt_toInt, BitVec.sub_eq_add_neg]
  rfl

theorem subTrap_zero_of_checked {a w : Word} (h : Word.checked (-a.toInt) = some w) :
    subTrap 0 a = some w :=
  subTrap_of_checked (by rw [← h]; congr 1; simp)

theorem addTrap_ofInt {i j : Int} (hi : Literal.InRange i) (hj : Literal.InRange j)
    (h : Literal.InRange (i + j)) :
    addTrap (BitVec.ofInt 32 i) (BitVec.ofInt 32 j) = some (BitVec.ofInt 32 (i + j)) :=
  addTrap_of_checked (by rw [toInt_ofInt hi, toInt_ofInt hj, Word.checked, if_pos h])

theorem subTrap_ofInt {i j : Int} (hi : Literal.InRange i) (hj : Literal.InRange j)
    (h : Literal.InRange (i - j)) :
    subTrap (BitVec.ofInt 32 i) (BitVec.ofInt 32 j) = some (BitVec.ofInt 32 (i - j)) :=
  subTrap_of_checked (by rw [toInt_ofInt hi, toInt_ofInt hj, Word.checked, if_pos h])

theorem shiftLeft_two (i : Int) : BitVec.ofInt 32 i <<< 2 = BitVec.ofInt 32 (4 * i) := by
  rw [BitVec.shiftLeft_eq_mul_twoPow, Int.mul_comm, BitVec.ofInt_mul]
  rfl

/-- Where the quotient has 32 bits, the manual says what it is. -/
theorem divide_of_inRange {a b : Word} (hb : b ≠ 0)
    (hr : Literal.InRange (a.toInt.tdiv b.toInt)) (m : Machine) :
    m.divide a b = some { m with
      lo := BitVec.ofInt 32 (a.toInt.tdiv b.toInt)
      hi := BitVec.ofInt 32 (a.toInt.tmod b.toInt) } := by
  have hmin : ¬(a = BitVec.intMin 32 ∧ b = -1) := by
    rintro ⟨rfl, rfl⟩
    exact absurd hr (by decide)
  have hlo : a.sdiv b = BitVec.ofInt 32 (a.toInt.tdiv b.toInt) := by
    apply BitVec.eq_of_toInt_eq
    rw [BitVec.toInt_sdiv, BitVec.toInt_ofInt]
  have hhi : a.srem b = BitVec.ofInt 32 (a.toInt.tmod b.toInt) := by
    rw [← BitVec.toInt_srem, BitVec.ofInt_toInt]
  rw [Machine.divide, if_neg (not_or.2 ⟨hb, hmin⟩), hlo, hhi]

theorem divide_of_quotient {a b w : Word} (h : Word.quotient a b = some w) (m : Machine) :
    ∃ hi, m.divide a b = some { m with lo := w, hi := hi } := by
  unfold Word.quotient at h
  split at h
  · cases h
  · rename_i hb
    obtain ⟨hr, hw⟩ := Word.checked_eq_some.1 h
    exact ⟨_, by rw [divide_of_inRange hb hr, hw]⟩

theorem divide_of_remainder {a b w : Word} (h : Word.remainder a b = some w) (m : Machine) :
    ∃ lo, m.divide a b = some { m with lo := lo, hi := w } := by
  unfold Word.remainder at h
  split at h
  · cases h
  · rename_i hb
    rw [not_or, not_not] at hb
    cases h
    exact ⟨_, divide_of_inRange hb.1 hb.2 m⟩

/-- The low word of the product of two words. -/
theorem setWidth_mul_signExtend (a b : Word) :
    (a.signExtend 64 * b.signExtend 64).setWidth 32 = a * b := by
  have h (x : Word) : (x.signExtend 64).setWidth 32 = x := by
    ext i hi
    rw [BitVec.getElem_setWidth, BitVec.getLsbD_signExtend]
    simp [hi]
    omega
  rw [BitVec.setWidth_mul _ _ (by omega), h, h]

end PascalMips
