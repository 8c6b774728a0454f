import PascalMips.Proofs.Single.Round
import PascalMips.Single.Decimal

/-!
# Decimals that read back

Trailing zeros do not change what a decimal rounds to (`toSingle_scale`), and the decimal chosen for
a finite single rounds to it (`toSingle_shortest`): a candidate on a grid was tested, and the exact
decimal that is taken if none passes rounds to the single because rounding depends on the value
only.
-/

namespace PascalMips

namespace Decimal

/-! ## Trailing zeros -/

theorem width_pos (n : Nat) : 0 < width n := Nat.length_toDigits_pos

theorem width_le_iff {n k : Nat} (hn : n ≠ 0) : width n ≤ k ↔ n < 10 ^ k := by
  cases k with
  | zero =>
    have := width_pos n
    omega
  | succ k => exact Nat.length_toDigits_le_iff (by omega) (by omega)

/-- Zeros at the end of a number add to its width. -/
theorem width_mul_pow {n : Nat} (hn : n ≠ 0) (k : Nat) : width (n * 10 ^ k) = width n + k := by
  have hnk : n * 10 ^ k ≠ 0 := by positivity
  apply Nat.le_antisymm
  · rw [width_le_iff hnk, Nat.pow_add]
    have := (width_le_iff hn).1 (Nat.le_refl _)
    gcongr
  · have hlt := (width_le_iff hnk).1 (Nat.le_refl _)
    have hk : k < width (n * 10 ^ k) := by
      by_contra hge
      have : 10 ^ width (n * 10 ^ k) ≤ n * 10 ^ k :=
        calc 10 ^ width (n * 10 ^ k) ≤ 10 ^ k := Nat.pow_le_pow_right (by omega) (by omega)
          _ ≤ n * 10 ^ k := Nat.le_mul_of_pos_left _ (Nat.pos_of_ne_zero hn)
      omega
    have hle : width n ≤ width (n * 10 ^ k) - k := by
      rw [width_le_iff hn]
      have hsplit : 10 ^ width (n * 10 ^ k) = 10 ^ (width (n * 10 ^ k) - k) * 10 ^ k := by
        rw [← Nat.pow_add]
        congr 1
        omega
      rw [hsplit] at hlt
      exact Nat.lt_of_mul_lt_mul_right hlt
    omega

theorem shift_eq (n k : Nat) : shift n k = n * 10 ^ k := rfl

/-- Zeros after the digits, taken back by the exponent, change nothing. -/
theorem toSingle_scale (negative : Bool) (n k : Nat) (e : Int) :
    toSingle negative ⟨n * 10 ^ k, e - k⟩ = toSingle negative ⟨n, e⟩ := by
  by_cases hn : n = 0
  · simp [toSingle, hn]
  · have hnk : n * 10 ^ k ≠ 0 := by positivity
    have htop : (width (n * 10 ^ k) : Int) + (e - k) = width n + e := by
      rw [width_mul_pow hn]
      omega
    have hratio : Single.ofRatio negative (shift (n * 10 ^ k) (e - k).toNat)
          (shift 1 (-(e - k)).toNat) =
        Single.ofRatio negative (shift n e.toNat) (shift 1 (-e).toNat) := by
      simp only [shift_eq]
      refine Single.ofRatio_congr negative (by positivity) (by positivity) ?_
      have hexp : k + (e - k).toNat + (-e).toNat = e.toNat + (-(e - k)).toNat := by omega
      calc n * 10 ^ k * 10 ^ (e - k).toNat * (1 * 10 ^ (-e).toNat)
          = n * 10 ^ (k + (e - k).toNat + (-e).toNat) := by ring
        _ = n * 10 ^ (e.toNat + (-(e - k)).toNat) := by rw [hexp]
        _ = n * 10 ^ e.toNat * (1 * 10 ^ (-(e - k)).toNat) := by ring
    simp only [toSingle, htop, if_neg hn, if_neg hnk, hratio]

/-- Stripping zeros keeps the value: the exponent makes up for them. -/
theorem exists_scale_strip (fuel : Nat) (d : Decimal) :
    ∃ k : Nat, d = ⟨(strip fuel d).digits * 10 ^ k, (strip fuel d).exponent - k⟩ := by
  induction fuel generalizing d with
  | zero => exact ⟨0, by simp [strip]⟩
  | succ fuel ih =>
    obtain ⟨n, e⟩ := d
    simp only [strip]
    split
    · obtain ⟨k, hk⟩ := ih ⟨n / 10, e + 1⟩
      injection hk with hdigits hexponent
      refine ⟨k + 1, ?_⟩
      rw [Decimal.mk.injEq, Nat.pow_succ, ← Nat.mul_assoc, ← hdigits]
      exact ⟨by omega, by omega⟩
    · exact ⟨0, by simp⟩

theorem toSingle_strip (negative : Bool) (fuel : Nat) (d : Decimal) :
    toSingle negative (strip fuel d) = toSingle negative d := by
  obtain ⟨k, hk⟩ := exists_scale_strip fuel d
  conv_rhs => rw [hk]
  exact (toSingle_scale ..).symm

/-! ## Signs -/

/-- The sign of a result is the one asked for, and its magnitude does not depend on it. -/
theorem exists_magnitude_toSingle (d : Decimal) :
    ∃ m ≤ Single.infinityBits, ∀ negative, d.toSingle negative = Single.ofMagnitude negative m := by
  unfold toSingle
  dsimp only
  split
  · exact ⟨0, by decide, fun _ => rfl⟩
  · split
    · exact ⟨0, by decide, fun _ => rfl⟩
    · split
      · exact ⟨_, Nat.le_refl _, fun _ => rfl⟩
      · unfold Single.ofRatio
        split
        · exact ⟨0, by decide, fun _ => rfl⟩
        · exact ⟨_, Nat.min_le_right _ _, fun _ => rfl⟩

/-! ## The exact decimal of a single -/

theorem ofScaled_natCast (m k : Nat) : ofScaled m k = ⟨m * 2 ^ k, 0⟩ := by
  simp [ofScaled, Nat.shiftLeft_eq]

theorem ofScaled_neg (m k : Nat) : ofScaled m (-k) = ⟨m * 5 ^ k, -k⟩ := by
  cases k with
  | zero => simp [ofScaled]
  | succ k =>
    rw [ofScaled, if_neg (by omega), neg_neg, Int.toNat_natCast]
    rfl

/-- The exact decimal of a finite single is within the range that is computed with. -/
theorem width_ofScaled_bounds {m : Nat} {e : Int} (hm : m ≠ 0) (hlt : m < 2 ^ 24) (hlo : -149 ≤ e)
    (hhi : e ≤ 104) :
    -46 < (width (ofScaled m e).digits : Int) + (ofScaled m e).exponent ∧
      (width (ofScaled m e).digits : Int) + (ofScaled m e).exponent < 40 := by
  have hwidth := width_pos (ofScaled m e).digits
  obtain ⟨k, rfl | rfl⟩ := e.eq_nat_or_neg
  · rw [ofScaled_natCast] at hwidth ⊢
    have hle : width (m * 2 ^ k) ≤ 39 := by
      rw [width_le_iff (by positivity)]
      calc m * 2 ^ k < 2 ^ 24 * 2 ^ k := by gcongr
        _ ≤ 2 ^ 24 * 2 ^ 104 := by gcongr <;> omega
        _ < 10 ^ 39 := by norm_num
    simp only
    omega
  · rw [ofScaled_neg] at hwidth ⊢
    have hle : width (m * 5 ^ k) ≤ 39 + k := by
      rw [width_le_iff (by positivity), Nat.pow_add]
      calc m * 5 ^ k < 10 ^ 39 * 5 ^ k := by
            gcongr
            exact hlt.trans (by norm_num)
        _ ≤ 10 ^ 39 * 10 ^ k := by gcongr; omega
    have hge : k < width (m * 5 ^ k) + 46 := by
      by_contra hcon
      have hsmall : m * 5 ^ k < 10 ^ (k - 46) := (width_le_iff (by positivity)).1 (by omega)
      have hlarge : 10 ^ (k - 46) ≤ 5 ^ k := by
        refine Nat.le_of_mul_le_mul_right (c := 10 ^ 46) ?_ (by positivity)
        calc 10 ^ (k - 46) * 10 ^ 46 = 5 ^ k * 2 ^ k := by
              rw [← Nat.pow_add, ← Nat.mul_pow]
              congr 1
              omega
          _ ≤ 5 ^ k * 2 ^ 149 := by gcongr <;> omega
          _ ≤ 5 ^ k * 10 ^ 46 := Nat.mul_le_mul_left _ (by norm_num)
      have := Nat.le_mul_of_pos_left (5 ^ k) (Nat.pos_of_ne_zero hm)
      omega
    simp only
    omega

/-- The exact decimal of a single stands for the single. With an exponent below zero, powers of five
take the place of powers of two. -/
theorem toSingle_ofScaled (negative : Bool) {m : Nat} {e : Int} (hm : m ≠ 0) (hlt : m < 2 ^ 24)
    (hlo : -149 ≤ e) (hhi : e ≤ 104) :
    (ofScaled m e).toSingle negative = Single.ofScaled negative m e := by
  obtain ⟨htop₁, htop₂⟩ := width_ofScaled_bounds hm hlt hlo hhi
  have hdigits : (ofScaled m e).digits ≠ 0 := by
    unfold ofScaled
    split
    · rw [Nat.shiftLeft_eq]
      positivity
    · show m * 5 ^ _ ≠ 0
      positivity
  unfold toSingle Single.ofScaled
  simp only [if_neg hdigits, if_neg (not_le.2 htop₁), if_neg (not_le.2 htop₂), shift_eq,
    Nat.shiftLeft_eq]
  refine Single.ofRatio_congr negative (by positivity) (by positivity) ?_
  obtain ⟨k, rfl | rfl⟩ := e.eq_nat_or_neg
  · rw [ofScaled_natCast]
    simp
  · rw [ofScaled_neg]
    simp only [Int.toNat_neg_natCast, neg_neg, Int.toNat_natCast, pow_zero, mul_one, one_mul]
    rw [Nat.mul_assoc, ← Nat.mul_pow]

end Decimal

namespace Single

/-! ## The shortest decimal -/

/-- A decimal that is found on a grid reads back as the single, for that is what it was tested for.
-/
theorem readsBack_of_onGrid {x : Single} {num den : Nat} {g : Int} {d : Decimal}
    (h : x.onGrid num den g = some d) : x.readsBack d = true := by
  unfold onGrid at h
  dsimp only at h
  split at h
  · rename_i hlow
    cases h
    exact (Bool.and_eq_true _ _ ▸ hlow).1
  · split at h <;> cases h
    assumption

/-- The decimal chosen for a finite single rounds to it, up to the sign. -/
theorem toSingle_shortest {x : Single} (h : x.isFinite = true) :
    x.shortest.toSingle false = ofMagnitude false x.magnitude := by
  obtain ⟨m, e, hview⟩ := exists_view_of_isFinite h
  have hexact := ofScaled_view hview false
  unfold shortest
  rw [hview]
  dsimp only
  split
  · rename_i hm
    subst hm
    rw [← hexact]
    simp [Decimal.toSingle, ofScaled, ofRatio]
  · rename_i hm
    rw [Decimal.toSingle_strip]
    cases hfound : (List.range 9).findSome? _ with
    | some d =>
      obtain ⟨i, -, hi⟩ := List.exists_of_findSome?_eq_some hfound
      exact of_decide_eq_true (readsBack_of_onGrid hi)
    | none =>
      obtain ⟨hlt, hcases⟩ := view_finite hview
      have hbounds : m < 2 ^ 24 ∧ -149 ≤ e ∧ e ≤ 104 := by
        unfold exponentUnit infinityBits minExponent at *
        omega
      rw [Option.getD_none, Decimal.toSingle_ofScaled false hm hbounds.1 hbounds.2.1 hbounds.2.2,
        hexact]

end Single

end PascalMips
