import PascalMips.Proofs.Literal
import PascalMips.Proofs.Machine.Arith

/-!
# Constants are computed as at run time

A constant stands for a word. Where an operation on constants has a value, it is the one that the
generated code computes from their words, and it is valid again: an integer of 32 bits or a finite
single. Valid constants are read back from their text.
-/

namespace PascalMips

/-! ## Comparisons -/

namespace Single

/-- Magnitudes up to infinity are numbers. -/
theorem isNaN_ofMagnitude (negative : Bool) {m : Nat} (h : m ≤ infinityBits) :
    (ofMagnitude negative m).isNaN = false := by
  have hlt : m < signBit := Nat.lt_of_le_of_lt h (by decide)
  rw [isNaN, magnitude_ofMagnitude negative hlt]
  exact decide_eq_false (Nat.not_lt.2 h)

theorem isNaN_ofInt (i : Int) : (ofInt i).isNaN = false := by
  unfold ofInt ofRatio
  split
  · exact isNaN_ofMagnitude _ (by decide)
  · exact isNaN_ofMagnitude _ (Nat.min_le_right _ _)

theorem isNaN_of_isFinite {x : Single} (h : x.isFinite = true) : x.isNaN = false := by
  unfold isFinite isNaN at *
  rw [decide_eq_true_iff] at h
  exact decide_eq_false (by omega)

end Single

/-- The processor decides comparisons of numbers as they are meant. -/
theorem Relation.holdsByTest_eq (relation : Relation) {x y : Single} (hx : x.isNaN = false)
    (hy : y.isNaN = false) : relation.holdsByTest x y = relation.holdsReal x y := by
  cases relation with
  | gt =>
    simp only [holdsByTest, holdsReal, Single.le, Single.lt, hx, hy, Bool.not_false, Bool.true_and,
      ← decide_not, decide_eq_decide]
    omega
  | ge =>
    simp only [holdsByTest, holdsReal, Single.le, Single.lt, hx, hy, Bool.not_false, Bool.true_and,
      ← decide_not, decide_eq_decide]
    omega
  | _ => rfl

namespace Constant

def type : Constant → ValueType
  | integer _ => .integer
  | real _ => .real

/-- The word of a constant at run time. -/
def word : Constant → Word
  | integer i => BitVec.ofInt 32 i
  | real r => r.bits

def Valid : Constant → Prop
  | integer i => Literal.InRange i
  | real r => r.isFinite = true

/-! ## Operations -/

variable {a b c : Constant}

/-- The real value of a constant is that of its word. -/
theorem toReal_word (h : a.Valid) : a.type.toReal a.word = a.toReal := by
  cases a with
  | integer i =>
    simp only [type, word, toReal, ValueType.toReal]
    rw [toInt_ofInt h]
  | real r => rfl

theorem isNaN_toReal (h : a.Valid) : a.toReal.isNaN = false := by
  cases a with
  | integer i => exact Single.isNaN_ofInt i
  | real r => exact Single.isNaN_of_isFinite h

theorem valid_ofBool (t : Bool) : (ofBool t).Valid := by
  cases t with
  | false => exact (show Literal.InRange 0 by decide)
  | true => exact (show Literal.InRange 1 by decide)

theorem word_ofBool (t : Bool) : (ofBool t).word = Word.ofBool t := by
  cases t <;> rfl

/-- Comparing words at run time is comparing the constants. Integers are compared as such, and
anything else as reals. -/
theorem compareWords_word (relation : Relation) (ha : a.Valid) (hb : b.Valid) :
    BinaryOp.compareWords relation a.type b.type a.word b.word = compare relation a b := by
  have hreal : relation.holdsByTest (a.type.toReal a.word) (b.type.toReal b.word) =
      relation.holdsReal a.toReal b.toReal := by
    rw [toReal_word ha, toReal_word hb]
    exact relation.holdsByTest_eq (isNaN_toReal ha) (isNaN_toReal hb)
  cases a with
  | real => exact hreal
  | integer i =>
    cases b with
    | real => exact hreal
    | integer j =>
      simp only [BinaryOp.compareWords, type, word, ValueType.widen, compare]
      rw [toInt_ofInt ha, toInt_ofInt hb]

/-- The constants with a truth value are zero and one. -/
theorem toBool?_eq_some {t : Bool} (h : a.toBool? = some t) : a = ofBool t := by
  cases a with
  | real => cases h
  | integer i =>
    simp only [toBool?] at h
    split at h
    · cases h
      subst i
      rfl
    · split at h <;> cases h
      subst i
      rfl

/-- A checked integer is in range, and the machine comes to its word. -/
theorem checked_eq_some {i : Int} (h : checked i = some c) :
    c = integer i ∧ Literal.InRange i ∧ Word.checked i = some c.word := by
  unfold checked at h
  split at h <;> cases h
  rename_i hi
  exact ⟨rfl, hi, Word.checked_eq_some.2 ⟨hi, rfl⟩⟩

theorem finite_eq_some {r : Single} (h : finite r = some c) : c = real r ∧ r.isFinite = true := by
  unfold finite at h
  split at h <;> cases h
  exact ⟨rfl, by assumption⟩

/-- What an operation on constants gives is valid, of the type that follows from the operands, and
what the operation gives at run time. -/
structure Computes (op : BinaryOp) (a b c : Constant) : Prop where
  valid : c.Valid
  type : c.type = op.resultType a.type b.type
  value : ∀ env, op.value env c.type a.type b.type a.word b.word = some c.word

/-- Integer operations are computed as at run time, operator by operator. Sums, differences and
products have to be in range, and divisors different from zero. -/
theorem computes_integerOp {op : BinaryOp} {i j : Int} (hi : Literal.InRange i)
    (hj : Literal.InRange j) (h : integerOp op i j = some c) :
    Computes op (integer i) (integer j) c := by
  have hwi : (integer i).word.toInt = i := toInt_ofInt hi
  have hwj : (integer j).word.toInt = j := toInt_ofInt hj
  have hzero : (integer j).word = 0 ↔ j = 0 := by rw [← Word.toInt_eq_zero, hwj]
  cases op with
  | add =>
    obtain ⟨rfl, hrange, hword⟩ := checked_eq_some h
    refine ⟨hrange, rfl, fun env => ?_⟩
    simp only [BinaryOp.value, BinaryOp.arithmetic, type, hwi, hwj, hword]
  | sub =>
    obtain ⟨rfl, hrange, hword⟩ := checked_eq_some h
    refine ⟨hrange, rfl, fun env => ?_⟩
    simp only [BinaryOp.value, BinaryOp.arithmetic, type, hwi, hwj, hword]
  | mul =>
    obtain ⟨rfl, hrange, -⟩ := checked_eq_some h
    refine ⟨hrange, rfl, fun env => ?_⟩
    simp only [BinaryOp.value, BinaryOp.arithmetic, type, word, BitVec.ofInt_mul]
  | divide =>
    simp only [integerOp] at h
    split at h
    · cases h
    · rename_i hj0
      obtain ⟨rfl, hrange, hword⟩ := checked_eq_some h
      refine ⟨hrange, rfl, fun env => ?_⟩
      simp only [BinaryOp.value, BinaryOp.arithmetic, type, Word.quotient, hzero, hj0, if_false,
        hwi, hwj, hword]
  | div =>
    simp only [integerOp] at h
    split at h
    · cases h
    · rename_i hj0
      obtain ⟨rfl, hrange, hword⟩ := checked_eq_some h
      refine ⟨hrange, rfl, fun env => ?_⟩
      simp only [BinaryOp.value, ValueType.toInteger, type, Word.quotient, hzero, hj0, if_false,
        hwi, hwj, hword]
  | mod =>
    simp only [integerOp] at h
    split at h
    · cases h
    · rename_i hj0
      obtain ⟨rfl, hrange, -⟩ := checked_eq_some h
      refine ⟨hrange, rfl, fun env => ?_⟩
      simp only [BinaryOp.value, ValueType.toInteger, type, Word.remainder, hzero, hwi, hwj, hj0,
        if_false]
      rfl
  | _ => cases h

/-- Real operations are computed as at run time, operator by operator. -/
theorem computes_realOp {op : BinaryOp} (ha : a.Valid) (hb : b.Valid)
    (htype : a.type.widen b.type = .real) (h : realOp op a.toReal b.toReal = some c) :
    Computes op a b c := by
  have hvalue {r : Single} (hr : finite r = some c) (hresult : op.resultType a.type b.type = .real)
      (hop : ∀ env, op.value env .real a.type b.type a.word b.word = some r.bits) :
      Computes op a b c := by
    obtain ⟨rfl, hfinite⟩ := finite_eq_some hr
    exact ⟨hfinite, hresult.symm, hop⟩
  cases op with
  | add =>
    refine hvalue h htype fun env => ?_
    simp only [BinaryOp.value, BinaryOp.arithmetic, toReal_word ha, toReal_word hb]
  | sub =>
    refine hvalue h htype fun env => ?_
    simp only [BinaryOp.value, BinaryOp.arithmetic, toReal_word ha, toReal_word hb]
  | mul =>
    refine hvalue h htype fun env => ?_
    simp only [BinaryOp.value, BinaryOp.arithmetic, toReal_word ha, toReal_word hb]
  | divide =>
    simp only [realOp] at h
    split at h
    · cases h
    · refine hvalue h htype fun env => ?_
      simp only [BinaryOp.value, BinaryOp.arithmetic, toReal_word ha, toReal_word hb]
  | _ => cases h

/-- An operation on constants is logical, a comparison, or one of integers if both are and of reals
otherwise. -/
theorem computes_apply {op : BinaryOp} (ha : a.Valid) (hb : b.Valid) (h : apply op a b = some c) :
    Computes op a b c := by
  cases op with
  | rel relation =>
    cases h
    refine ⟨valid_ofBool _, rfl, fun env => ?_⟩
    rw [BinaryOp.value, compareWords_word relation ha hb, word_ofBool]
  | and =>
    simp only [apply, Option.bind_eq_bind, Option.bind_eq_some_iff] at h
    obtain ⟨s, hs, t, ht, h⟩ := h
    cases h
    rw [toBool?_eq_some hs, toBool?_eq_some ht]
    refine ⟨valid_ofBool _, rfl, fun env => ?_⟩
    show some ((ofBool s).word &&& (ofBool t).word) = _
    rw [word_ofBool, word_ofBool, word_ofBool]
    cases s <;> cases t <;> decide
  | or =>
    simp only [apply, Option.bind_eq_bind, Option.bind_eq_some_iff] at h
    obtain ⟨s, hs, t, ht, h⟩ := h
    cases h
    rw [toBool?_eq_some hs, toBool?_eq_some ht]
    refine ⟨valid_ofBool _, rfl, fun env => ?_⟩
    show some ((ofBool s).word ||| (ofBool t).word) = _
    rw [word_ofBool, word_ofBool, word_ofBool]
    cases s <;> cases t <;> decide
  | _ =>
    cases a with
    | real => exact computes_realOp ha hb (by cases b <;> rfl) h
    | integer i =>
      cases b with
      | real => exact computes_realOp ha hb rfl h
      | integer j => exact computes_integerOp ha hb h

/-! ## Results on any constants -/

theorem valid_of_checked {i : Int} (h : checked i = some c) : c.Valid := by
  obtain ⟨rfl, hi, -⟩ := checked_eq_some h
  exact hi

theorem valid_of_finite {r : Single} (h : finite r = some c) : c.Valid := by
  obtain ⟨rfl, hr⟩ := finite_eq_some h
  exact hr

/-- Whatever integer operation it is, its result is valid, also on operands that are not. -/
theorem valid_of_integerOp {op : BinaryOp} {i j : Int} (h : integerOp op i j = some c) : c.Valid := by
  unfold integerOp at h
  split at h
  · exact valid_of_checked h
  · exact valid_of_checked h
  · exact valid_of_checked h
  · split at h
    · cases h
    · exact valid_of_checked h
  · split at h
    · cases h
    · exact valid_of_checked h
  · split at h
    · cases h
    · exact valid_of_checked h
  · cases h

/-- Whatever real operation it is, its result is valid. -/
theorem valid_of_realOp {op : BinaryOp} {x y : Single} (h : realOp op x y = some c) : c.Valid := by
  unfold realOp at h
  split at h
  · exact valid_of_finite h
  · exact valid_of_finite h
  · exact valid_of_finite h
  · split at h
    · cases h
    · exact valid_of_finite h
  · cases h

/-- What an operation gives, on whatever constants, is one that a literal can stand for. -/
theorem valid_of_apply {op : BinaryOp} (h : apply op a b = some c) : c.Valid := by
  have hlogic {f : Bool → Bool → Bool}
      (h : (a.toBool?.bind fun x => b.toBool?.bind fun y => some (ofBool (f x y))) = some c) :
      c.Valid := by
    obtain ⟨x, -, h⟩ := Option.bind_eq_some_iff.1 h
    obtain ⟨y, -, h⟩ := Option.bind_eq_some_iff.1 h
    cases h
    exact valid_ofBool _
  unfold apply at h
  split at h
  · exact hlogic h
  · exact hlogic h
  · cases h
    exact valid_ofBool _
  · split at h
    · exact valid_of_integerOp h
    · exact valid_of_realOp h

/-! ## Texts -/

theorem ofLiteral_text (c : Constant) : ValueType.ofLiteral c.text = c.type := by
  cases c with
  | integer i => exact Literal.ofLiteral_toString i
  | real r => exact Literal.ofLiteral_spell r

/-- A valid constant is read back from its text. -/
theorem ofLiteral?_text (h : c.Valid) : ofLiteral? c.text c.type = some c := by
  cases c with
  | integer i => exact congrArg (Option.map integer) (Literal.integer?_toString h)
  | real r => exact congrArg (Option.map real) (Literal.real?_spell h)

theorem type_of_ofLiteral? {text : String} {type : ValueType} (h : ofLiteral? text type = some c) :
    c.type = type := by
  cases type <;> obtain ⟨_, _, rfl⟩ := Option.map_eq_some_iff.1 h <;> rfl

/-- A literal that is a constant stands for the word of it. -/
theorem literalValue_eq {text : String} {type : ValueType} (h : ofLiteral? text type = some c) :
    literalValue text type = some c.word := by
  cases type <;> obtain ⟨v, hv, rfl⟩ := Option.map_eq_some_iff.1 h <;>
    exact congrArg (Option.map _) hv

end Constant

end PascalMips
