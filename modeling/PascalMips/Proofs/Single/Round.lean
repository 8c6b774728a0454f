import Mathlib.Algebra.Order.Field.Power
import Mathlib.Tactic.FieldSimp
import Mathlib.Tactic.Linarith
import Mathlib.Tactic.Positivity
import Mathlib.Tactic.Ring
import PascalMips.Single.Round

/-!
# Rounding depends on the value only

* `floorLog2 num den` is the exponent `e` with `2 ^ e ≤ num / den < 2 ^ (e + 1)`.
* Equal fractions round to the same single (`ofRatio_congr`).
* A single is the rounding of its own value (`ofScaled_view`).
-/

namespace PascalMips.Single

/-! ## The binary logarithm -/

/-- The comparison by shifts is one of rational numbers. -/
theorem scaledLE_iff (a b : Nat) (e : Int) : scaledLE a b e = true ↔ (a : ℚ) * 2 ^ e ≤ b := by
  unfold scaledLE
  rw [decide_eq_true_iff, Nat.shiftLeft_eq, Nat.shiftLeft_eq]
  obtain ⟨n, rfl | rfl⟩ := e.eq_nat_or_neg
  · rw [Int.toNat_natCast, Int.toNat_neg_natCast, pow_zero, mul_one, zpow_natCast]
    exact_mod_cast Iff.rfl
  · rw [Int.toNat_neg_natCast, neg_neg, Int.toNat_natCast, pow_zero, mul_one, zpow_neg,
      zpow_natCast, ← div_eq_mul_inv, div_le_iff₀ (by positivity)]
    exact_mod_cast Iff.rfl

/-- The position of the leading bit of a positive fraction. -/
theorem floorLog2_spec {num den : Nat} (hnum : 0 < num) (hden : 0 < den) :
    (2 : ℚ) ^ floorLog2 num den ≤ (num : ℚ) / den ∧
      (num : ℚ) / den < 2 ^ (floorLog2 num den + 1) := by
  have hden' : (0 : ℚ) < den := by exact_mod_cast hden
  have hn₁ : (2 : ℚ) ^ (num.log2 : Int) ≤ num := by
    rw [zpow_natCast]
    exact_mod_cast Nat.log2_self_le hnum.ne'
  have hn₂ : (num : ℚ) < 2 ^ ((num.log2 : Int) + 1) := by
    have := Nat.lt_log2_self (n := num)
    exact_mod_cast this
  have hd₁ : (2 : ℚ) ^ (den.log2 : Int) ≤ den := by
    rw [zpow_natCast]
    exact_mod_cast Nat.log2_self_le hden.ne'
  have hd₂ : (den : ℚ) < 2 ^ ((den.log2 : Int) + 1) := by
    have := Nat.lt_log2_self (n := den)
    exact_mod_cast this
  -- the quotient of the leading bits is the logarithm or one more
  have hupper : (num : ℚ) / den < 2 ^ ((num.log2 : Int) - den.log2 + 1) := by
    rw [div_lt_iff₀ hden']
    calc (num : ℚ) < 2 ^ ((num.log2 : Int) + 1) := hn₂
      _ = 2 ^ ((num.log2 : Int) - den.log2 + 1) * 2 ^ (den.log2 : Int) := by
          rw [← zpow_add₀ (by norm_num)]
          congr 1
          omega
      _ ≤ 2 ^ ((num.log2 : Int) - den.log2 + 1) * den := by gcongr
  have hlower : (2 : ℚ) ^ ((num.log2 : Int) - den.log2 - 1) ≤ (num : ℚ) / den := by
    rw [le_div_iff₀ hden']
    calc (2 : ℚ) ^ ((num.log2 : Int) - den.log2 - 1) * den
        ≤ 2 ^ ((num.log2 : Int) - den.log2 - 1) * 2 ^ ((den.log2 : Int) + 1) := by gcongr
      _ = 2 ^ (num.log2 : Int) := by
          rw [← zpow_add₀ (by norm_num)]
          congr 1
          omega
      _ ≤ num := hn₁
  unfold floorLog2
  by_cases h : scaledLE den num ((num.log2 : Int) - den.log2) = true
  · simp only [h, if_true]
    refine ⟨?_, hupper⟩
    rw [le_div_iff₀ hden', mul_comm]
    exact (scaledLE_iff ..).1 h
  · simp only [h]
    refine ⟨by simpa using hlower, ?_⟩
    rw [scaledLE_iff, not_le] at h
    rw [div_lt_iff₀ hden', mul_comm]
    simpa using h

/-- The binary logarithm is the one number between whose powers the fraction lies. -/
theorem floorLog2_eq {num den : Nat} {e : Int} (hnum : 0 < num) (hden : 0 < den)
    (h₁ : (2 : ℚ) ^ e ≤ (num : ℚ) / den) (h₂ : (num : ℚ) / den < 2 ^ (e + 1)) :
    floorLog2 num den = e := by
  obtain ⟨h₃, h₄⟩ := floorLog2_spec hnum hden
  have hlt₁ : e < floorLog2 num den + 1 :=
    (zpow_lt_zpow_iff_right₀ (by norm_num : (1 : ℚ) < 2)).1 (lt_of_le_of_lt h₁ h₄)
  have hlt₂ : floorLog2 num den < e + 1 :=
    (zpow_lt_zpow_iff_right₀ (by norm_num : (1 : ℚ) < 2)).1 (lt_of_le_of_lt h₃ h₂)
  omega

/-! ## Equal fractions -/

theorem roundHalfEven_mul {num den k : Nat} (hk : 0 < k) :
    roundHalfEven (num * k) (den * k) = roundHalfEven num den := by
  have hlt : 2 * (num % den * k) < den * k ↔ 2 * (num % den) < den := by
    rw [← Nat.mul_assoc, Nat.mul_lt_mul_right hk]
  have heq : 2 * (num % den * k) = den * k ↔ 2 * (num % den) = den := by
    rw [← Nat.mul_assoc, Nat.mul_left_inj hk.ne']
  simp only [roundHalfEven, Nat.mul_div_mul_right _ _ hk, Nat.mul_mod_mul_right, hlt, heq]

/-- Rounding depends on the value of a fraction only. -/
theorem roundHalfEven_congr {a b c d : Nat} (hb : 0 < b) (hd : 0 < d) (h : a * d = c * b) :
    roundHalfEven a b = roundHalfEven c d := by
  rw [← roundHalfEven_mul hd, h, Nat.mul_comm b d, roundHalfEven_mul hb]

theorem roundHalfEven_exact (m : Nat) {k : Nat} (hk : 0 < k) : roundHalfEven (m * k) k = m := by
  unfold roundHalfEven
  rw [Nat.mul_div_cancel _ hk, Nat.mul_mod_left]
  simp [hk]

/-- The single next to a fraction depends on the value of the fraction only. The logarithm is the
same for both, and with it the scale on which they are rounded. -/
theorem ofRatio_congr (negative : Bool) {a b c d : Nat} (hb : 0 < b) (hd : 0 < d)
    (h : a * d = c * b) : ofRatio negative a b = ofRatio negative c d := by
  by_cases ha : a = 0
  · subst ha
    have hc : c = 0 := by
      rw [Nat.zero_mul] at h
      exact (Nat.mul_eq_zero.1 h.symm).resolve_right hb.ne'
    simp [ofRatio, hc]
  · have hc : c ≠ 0 := by
      rintro rfl
      rw [Nat.zero_mul, Nat.mul_eq_zero] at h
      omega
    have hvalue : (a : ℚ) / b = (c : ℚ) / d := by
      rw [div_eq_div_iff (by exact_mod_cast hb.ne') (by exact_mod_cast hd.ne')]
      exact_mod_cast h
    have hlog : floorLog2 a b = floorLog2 c d := by
      obtain ⟨h₁, h₂⟩ := floorLog2_spec (Nat.pos_of_ne_zero hc) hd
      exact floorLog2_eq (Nat.pos_of_ne_zero ha) hb (hvalue ▸ h₁) (hvalue ▸ h₂)
    have hplace : lastPlace a b = lastPlace c d := by simp only [lastPlace, hlog]
    have hround (i j : Nat) :
        roundHalfEven (a <<< i) (b <<< j) = roundHalfEven (c <<< i) (d <<< j) := by
      simp only [Nat.shiftLeft_eq]
      refine roundHalfEven_congr (by positivity) (by positivity) ?_
      calc a * 2 ^ i * (d * 2 ^ j) = a * d * (2 ^ i * 2 ^ j) := by ring
        _ = c * b * (2 ^ i * 2 ^ j) := by rw [h]
        _ = c * 2 ^ i * (b * 2 ^ j) := by ring
    simp only [ofRatio, if_neg ha, if_neg hc, hplace, hround]

/-! ## Bits -/

theorem magnitude_lt (x : Single) : x.magnitude < signBit := Nat.mod_lt _ (by decide)

/-- A single is its sign and its magnitude. -/
theorem ofMagnitude_magnitude (x : Single) : ofMagnitude x.negative x.magnitude = x := by
  obtain ⟨b⟩ := x
  have hb := b.isLt
  unfold ofMagnitude negative magnitude signBit
  congr 1
  apply BitVec.eq_of_toNat_eq
  rw [BitVec.toNat_ofNat]
  split <;> simp_all <;> omega

theorem magnitude_ofMagnitude (negative : Bool) {m : Nat} (h : m < signBit) :
    (ofMagnitude negative m).magnitude = m := by
  unfold ofMagnitude magnitude signBit at *
  rw [BitVec.toNat_ofNat]
  split <;> omega

/-! ## Values of singles -/

/-- A finite single is subnormal, with its magnitude as the mantissa, or normal, with a leading bit
that its magnitude leaves out. -/
theorem view_finite {x : Single} {s : Bool} {m : Nat} {e : Int} (h : x.view = .finite s m e) :
    x.magnitude < infinityBits ∧
      (x.magnitude < exponentUnit ∧ m = x.magnitude ∧ e = minExponent ∨
        exponentUnit ≤ x.magnitude ∧ m = exponentUnit + x.magnitude % exponentUnit ∧
          e = minExponent + (x.magnitude / exponentUnit : Nat) - 1) := by
  unfold view at h
  split at h
  · cases h
  · split at h
    · cases h
    · split at h <;> cases h
      · exact ⟨by omega, .inl ⟨by assumption, rfl, rfl⟩⟩
      · exact ⟨by omega, .inr ⟨by omega, rfl, rfl⟩⟩

theorem exists_view_of_isFinite {x : Single} (h : x.isFinite = true) :
    ∃ m e, x.view = .finite x.negative m e := by
  unfold isFinite at h
  rw [decide_eq_true_iff] at h
  unfold view
  rw [if_neg (by omega), if_neg (by omega)]
  split <;> exact ⟨_, _, rfl⟩

theorem shiftLeft_div_shiftLeft (m : Nat) (e : Int) :
    ((m <<< e.toNat : Nat) : ℚ) / ((1 <<< (-e).toNat : Nat) : ℚ) = m * 2 ^ e := by
  rw [Nat.shiftLeft_eq, Nat.shiftLeft_eq]
  obtain ⟨n, rfl | rfl⟩ := e.eq_nat_or_neg
  · rw [Int.toNat_natCast, Int.toNat_neg_natCast, zpow_natCast]
    push_cast
    ring
  · rw [Int.toNat_neg_natCast, neg_neg, Int.toNat_natCast, zpow_neg, zpow_natCast]
    push_cast
    ring

/-- The last place of a single is where its mantissa ends. -/
theorem lastPlace_view {x : Single} {s : Bool} {m : Nat} {e : Int} (h : x.view = .finite s m e)
    (hm : 0 < m) : lastPlace (m <<< e.toNat) (1 <<< (-e).toNat) = e := by
  have hnum : 0 < m <<< e.toNat := by
    rw [Nat.shiftLeft_eq]
    positivity
  have hden : 0 < 1 <<< (-e).toNat := by
    rw [Nat.shiftLeft_eq]
    positivity
  have hvalue := shiftLeft_div_shiftLeft m e
  have htwo : (0 : ℚ) < 2 ^ e := by positivity
  obtain ⟨-, ⟨hlt, rfl, rfl⟩ | ⟨hge, hmant, hexp⟩⟩ := view_finite h
  · have hm' : (x.magnitude : ℚ) < 2 ^ (23 : Int) := by exact_mod_cast hlt
    have hspec := (floorLog2_spec hnum hden).1
    rw [hvalue] at hspec
    have hlt' : (2 : ℚ) ^ floorLog2 (x.magnitude <<< minExponent.toNat)
        (1 <<< (-minExponent).toNat) < 2 ^ (23 + minExponent) :=
      calc _ ≤ (x.magnitude : ℚ) * 2 ^ minExponent := hspec
        _ < 2 ^ (23 : Int) * 2 ^ minExponent := by gcongr
        _ = 2 ^ (23 + minExponent) := by rw [zpow_add₀ (by norm_num)]
    have := (zpow_lt_zpow_iff_right₀ (by norm_num : (1 : ℚ) < 2)).1 hlt'
    unfold lastPlace
    omega
  · have hlo : (2 : ℚ) ^ (23 : Int) ≤ m := by
      have : 2 ^ 23 ≤ m := by rw [hmant]; exact Nat.le_add_right _ _
      exact_mod_cast this
    have hhi : (m : ℚ) < 2 ^ (24 : Int) := by
      have : m < 2 ^ 24 := by
        have := Nat.mod_lt x.magnitude (show 0 < exponentUnit by decide)
        rw [hmant]
        unfold exponentUnit at *
        omega
      exact_mod_cast this
    have hlog : floorLog2 (m <<< e.toNat) (1 <<< (-e).toNat) = 23 + e := by
      refine floorLog2_eq hnum hden ?_ ?_
      · rw [hvalue, zpow_add₀ (by norm_num)]
        gcongr
      · rw [hvalue, show (23 : Int) + e + 1 = 24 + e by omega, zpow_add₀ (by norm_num)]
        gcongr
    have hmin : minExponent ≤ e := by
      have : 1 ≤ x.magnitude / exponentUnit := (Nat.one_le_div_iff (by decide)).2 hge
      omega
    unfold lastPlace
    omega

/-- The value of a single rounds to its magnitude. -/
theorem ofScaled_view {x : Single} {s : Bool} {m : Nat} {e : Int} (h : x.view = .finite s m e)
    (negative : Bool) : ofScaled negative m e = ofMagnitude negative x.magnitude := by
  obtain ⟨hfinite, hcases⟩ := view_finite h
  by_cases hm : m = 0
  · subst hm
    have hzero : x.magnitude = 0 := by
      obtain ⟨-, hmag, -⟩ | ⟨-, hmag, -⟩ := hcases
      · exact hmag.symm
      · unfold exponentUnit at hmag
        omega
    simp [ofScaled, ofRatio, zero, hzero]
  · have hne : m <<< e.toNat ≠ 0 := by
      rw [Nat.shiftLeft_eq]
      positivity
    have hround :
        roundHalfEven (m <<< e.toNat <<< (-e).toNat) (1 <<< (-e).toNat <<< e.toNat) = m := by
      simp only [Nat.shiftLeft_eq, Nat.one_mul, Nat.mul_assoc]
      rw [Nat.mul_comm (2 ^ e.toNat)]
      exact roundHalfEven_exact m (by positivity)
    have hmag : (e - minExponent).toNat * exponentUnit + m = x.magnitude := by
      unfold exponentUnit minExponent at *
      obtain ⟨-, rfl, rfl⟩ | ⟨hge, rfl, rfl⟩ := hcases <;> omega
    unfold ofScaled ofRatio
    simp only [if_neg hne, lastPlace_view h (Nat.pos_of_ne_zero hm), hround, hmag,
      Nat.min_eq_left (Nat.le_of_lt hfinite)]

end PascalMips.Single
