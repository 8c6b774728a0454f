import PascalMips.Literal
import PascalMips.Proofs.Single.Decimal
import PascalMips.ValueType

/-!
# Literals that the compiler writes

The text of a 32-bit integer is an integer literal of that value, and the spelling of a finite
single is a real literal of that value (`real?_spell`). The spelling has the digits of the shortest
decimal, in one of two layouts; both read as that decimal, with zeros added at most.
-/

namespace PascalMips.Literal

/-! ## Digits -/

theorem digitsValue_eq (ds : List Char) : digitsValue ds = Nat.ofDigitChars 10 ds 0 := rfl

@[simp] theorem digitsValue_toDigits (n : Nat) : digitsValue (Nat.toDigits 10 n) = n := by
  rw [digitsValue_eq, Nat.ofDigitChars_ten_toDigits]

theorem isDigit_of_mem_toDigits {n : Nat} {c : Char} (h : c ∈ Nat.toDigits 10 n) :
    c.isDigit = true := Nat.isDigit_of_mem_toDigits (by omega) (by omega) h

/-- Zeros behind digits are powers of ten. -/
theorem digitsValue_append_zeros (ds : List Char) (k : Nat) :
    digitsValue (ds ++ List.replicate k '0') = digitsValue ds * 10 ^ k := by
  rw [digitsValue_eq, Nat.ofDigitChars_append, Nat.ofDigitChars_replicate_zero, Nat.mul_comm]
  rfl

theorem digitsValue_zeros_append (k : Nat) (ds : List Char) :
    digitsValue (List.replicate k '0' ++ ds) = digitsValue ds := by
  rw [digitsValue_eq, Nat.ofDigitChars_append, Nat.ofDigitChars_replicate_zero, Nat.mul_zero]
  rfl

theorem natural?_toDigits (n : Nat) : natural? (Nat.toDigits 10 n) = some n := by
  have hall : (Nat.toDigits 10 n).all Char.isDigit = true :=
    List.all_eq_true.2 fun _ => isDigit_of_mem_toDigits
  rw [natural?, if_pos ⟨Nat.toDigits_ne_nil, hall⟩, digitsValue_toDigits]

theorem splitSign_of_isDigit {c : Char} (h : c.isDigit = true ∨ c = '.') (cs : List Char) :
    splitSign (c :: cs) = (false, c :: cs) := by
  unfold splitSign
  split
  · rename_i heq
    cases heq
    exact absurd h (by decide)
  · rename_i heq
    cases heq
    exact absurd h (by decide)
  · rfl

theorem exists_toDigits_cons (n : Nat) :
    ∃ c cs, Nat.toDigits 10 n = c :: cs ∧ c.isDigit = true := by
  cases h : Nat.toDigits 10 n with
  | nil => exact absurd h Nat.toDigits_ne_nil
  | cons c cs =>
    refine ⟨c, cs, rfl, isDigit_of_mem_toDigits (n := n) ?_⟩
    rw [h]
    exact List.mem_cons_self

theorem splitSign_toDigits (n : Nat) :
    splitSign (Nat.toDigits 10 n) = (false, Nat.toDigits 10 n) := by
  obtain ⟨c, cs, heq, hc⟩ := exists_toDigits_cons n
  rw [heq]
  exact splitSign_of_isDigit (.inl hc) cs

/-! ## Integers -/

theorem toList_toString (i : Int) : (toString i).toList =
    if 0 ≤ i then Nat.toDigits 10 i.toNat else '-' :: Nat.toDigits 10 (-i).toNat := by
  show i.repr.toList = _
  rw [Int.repr_eq_if]
  split
  · rw [Nat.toList_repr]
  · rw [String.toList_append, Nat.toList_repr]
    rfl

/-- The sign and the digits of an integer's text give the integer back. -/
theorem splitSign_toString (i : Int) :
    splitSign (toString i).toList = (decide (i < 0), Nat.toDigits 10 i.natAbs) := by
  rw [toList_toString]
  split
  · rename_i h
    rw [splitSign_toDigits, decide_eq_false (by omega), show i.toNat = i.natAbs by omega]
  · rename_i h
    rw [decide_eq_true (by omega), show (-i).toNat = i.natAbs by omega]
    rfl

/-- An integer in range is read back from its text. -/
theorem integer?_toString {i : Int} (h : InRange i) : integer? (toString i) = some i := by
  have hvalue : (if i < 0 then -(i.natAbs : Int) else i.natAbs) = i := by
    split <;> omega
  simp only [integer?, splitSign_toString, natural?_toDigits, Option.bind_eq_bind, Option.bind_some,
    decide_eq_true_iff, hvalue, if_pos h]

theorem inRange_of_integer? {text : String} {i : Int} (h : integer? text = some i) : InRange i := by
  unfold integer? at h
  simp only [Option.bind_eq_bind, Option.bind_eq_some_iff, Option.ite_none_right_eq_some,
    Option.some.injEq] at h
  obtain ⟨n, -, hi, rfl⟩ := h
  exact hi

theorem ofLiteral_toString (i : Int) : ValueType.ofLiteral (toString i) = .integer := by
  have hpoint : '.' ∉ (toString i).toList := by
    have hdigits (n : Nat) : '.' ∉ Nat.toDigits 10 n := fun h => by
      cases isDigit_of_mem_toDigits h
    rw [toList_toString]
    split
    · exact hdigits _
    · simp [hdigits]
  rw [ValueType.ofLiteral, if_neg hpoint]

/-! ## Reals -/

/-- Digits, a point, digits and an exponent. -/
theorem decimal?_point {whole frac rest : List Char} (hw : whole ≠ [])
    (hwhole : ∀ c ∈ whole, c.isDigit = true) (hfrac : ∀ c ∈ frac, c.isDigit = true)
    (hrest : rest.takeWhile Char.isDigit = []) :
    decimal? (whole ++ '.' :: (frac ++ rest)) =
      (exponentPart? rest).map fun e => ⟨digitsValue (whole ++ frac), e - frac.length⟩ := by
  have hdrop : rest.dropWhile Char.isDigit = rest := by
    have := List.takeWhile_append_dropWhile (p := Char.isDigit) (l := rest)
    rwa [hrest] at this
  have htake : (whole ++ '.' :: (frac ++ rest)).takeWhile Char.isDigit = whole := by
    rw [List.takeWhile_append_of_pos hwhole, List.takeWhile_cons_of_neg (by decide),
      List.append_nil]
  have hdrop' : (whole ++ '.' :: (frac ++ rest)).dropWhile Char.isDigit =
      '.' :: (frac ++ rest) := by
    rw [List.dropWhile_append_of_pos hwhole, List.dropWhile_cons_of_neg (by decide)]
  unfold decimal?
  simp only [htake, hdrop', List.takeWhile_append_of_pos hfrac, List.dropWhile_append_of_pos hfrac,
    hrest, hdrop, hw, false_and, if_false, List.append_nil]
  cases exponentPart? rest <;> rfl

theorem exponentPart?_toString (i : Int) :
    exponentPart? ('e' :: (toString i).toList) = some i := by
  have hvalue : (if i < 0 then -(i.natAbs : Int) else i.natAbs) = i := by
    split <;> omega
  simp only [exponentPart?, true_or, if_true, splitSign_toString, natural?_toDigits,
    Option.bind_eq_bind, Option.bind_some, decide_eq_true_iff, hvalue]
  rfl

/-- Digits around a point, without exponent. -/
theorem decimal?_of_digits {whole frac : List Char} (hw : whole ≠ [])
    (hdigits : ∀ c ∈ whole ++ frac, c.isDigit = true) :
    decimal? (whole ++ '.' :: frac) = some ⟨digitsValue (whole ++ frac), -frac.length⟩ := by
  have h : decimal? (whole ++ '.' :: (frac ++ [])) = _ :=
    decimal?_point hw (fun c hc => hdigits c (List.mem_append_left _ hc))
      (fun c hc => hdigits c (List.mem_append_right _ hc)) rfl
  rw [List.append_nil] at h
  rw [h]
  simp [exponentPart?]

section Layout

variable {ds : List Char} (hpos : 0 < ds.length) (hmem : ∀ c ∈ ds, c.isDigit = true)

include hpos hmem

/-- The layout without exponent, with the point where the exponent says. -/
theorem decimal?_plain (e : Int) :
    ∃ k : Nat, decimal? (plain ds (ds.length + e)) = some ⟨digitsValue ds * 10 ^ k, e - k⟩ := by
  have hzeros (k : Nat) : ∀ c ∈ List.replicate k '0', c.isDigit = true := by
    intro c hc
    rw [List.eq_of_mem_replicate hc]
    rfl
  unfold plain
  split
  · rename_i hpoint
    have hdigits : ∀ c ∈ ['0'] ++ (List.replicate (-(ds.length + e)).toNat '0' ++ ds),
        c.isDigit = true := by
      intro c hc
      simp only [List.mem_append, List.mem_singleton] at hc
      obtain rfl | hc | hc := hc
      · rfl
      · exact hzeros _ c hc
      · exact hmem c hc
    refine ⟨0, (decimal?_of_digits (by simp) hdigits).trans ?_⟩
    rw [← List.append_assoc, ← List.replicate_one, ← List.replicate_add, digitsValue_zeros_append]
    simp
    omega
  · rename_i hpoint
    dsimp only
    split
    · rename_i hdrop
      rw [List.drop_eq_nil_iff] at hdrop
      have he : ((ds.length : Int) + e).toNat - ds.length = e.toNat := by omega
      have hdigits : ∀ c ∈ ds ++ List.replicate e.toNat '0' ++ ['0'], c.isDigit = true := by
        intro c hc
        simp only [List.mem_append, List.mem_singleton] at hc
        obtain (hc | hc) | rfl := hc
        · exact hmem c hc
        · exact hzeros _ c hc
        · rfl
      refine ⟨e.toNat + 1, ?_⟩
      rw [he, List.take_of_length_le hdrop, 
        decimal?_of_digits (List.append_ne_nil_of_left_ne_nil (List.ne_nil_of_length_pos hpos) _)
          hdigits,
        List.append_assoc, ← List.replicate_one, ← List.replicate_add, digitsValue_append_zeros]
      simp
      omega
    · rename_i hdrop
      rw [List.drop_eq_nil_iff] at hdrop
      refine ⟨0, ?_⟩
      rw [Nat.sub_eq_zero_of_le (by omega), List.replicate_zero, List.append_nil,
        decimal?_of_digits (List.ne_nil_of_length_pos (by rw [List.length_take]; omega))
          (by rwa [List.take_append_drop]), List.take_append_drop]
      simp
      omega

/-- The layout with exponent. -/
theorem decimal?_scientific (e : Int) :
    ∃ k : Nat, decimal? (scientific ds (ds.length + e)) =
      some ⟨digitsValue ds * 10 ^ k, e - k⟩ := by
  have htake : ds.take 1 ≠ [] :=
    List.ne_nil_of_length_pos (by rw [List.length_take]; omega)
  have hwhole : ∀ c ∈ ds.take 1, c.isDigit = true := fun c hc => hmem c (List.mem_of_mem_take hc)
  have hrest : ('e' :: (toString ((ds.length : Int) + e - 1)).toList).takeWhile Char.isDigit = [] :=
    List.takeWhile_cons_of_neg (by decide)
  unfold scientific
  rw [List.append_assoc, List.cons_append]
  split
  · rename_i hdrop
    have hlength : ds.length = 1 := by
      rw [List.drop_eq_nil_iff] at hdrop
      omega
    refine ⟨1, ?_⟩
    rw [decimal?_point htake hwhole (by simp) hrest, exponentPart?_toString,
      List.take_of_length_le (by omega)]
    have := digitsValue_append_zeros ds 1
    simp_all
  · refine ⟨0, ?_⟩
    rw [decimal?_point htake hwhole (fun c hc => hmem c (List.mem_of_mem_drop hc)) hrest,
      exponentPart?_toString, List.take_append_drop]
    simp
    omega

end Layout

/-- A decimal begins with a digit or a point. -/
theorem exists_cons_of_decimal? {cs : List Char} {d : Decimal} (h : decimal? cs = some d) :
    ∃ c rest, cs = c :: rest ∧ (c.isDigit = true ∨ c = '.') := by
  cases cs with
  | nil => simp [decimal?] at h
  | cons c rest =>
    refine ⟨c, rest, rfl, ?_⟩
    by_contra hcon
    rw [not_or] at hcon
    have htake := List.takeWhile_cons_of_neg (l := rest) hcon.1
    have hdrop := List.dropWhile_cons_of_neg (l := rest) hcon.1
    simp only [decimal?, htake, hdrop] at h
    split at h
    · rename_i heq
      exact hcon.2 (List.cons.inj heq).1
    · simp at h

/-- A real is read as its sign and its decimal. What is a decimal is none of the words for infinity
and for no number. -/
theorem real?_of_decimal? {text : String} {negative : Bool} {cs : List Char} {d : Decimal}
    (htext : text.toList = if negative then '-' :: cs else cs) (h : decimal? cs = some d) :
    real? text = some (d.toSingle negative) := by
  obtain ⟨c, rest, rfl, hc⟩ := exists_cons_of_decimal? h
  have hsign : splitSign text.toList = (negative, c :: rest) := by
    rw [htext]
    cases negative with
    | false => exact splitSign_of_isDigit hc rest
    | true => rfl
  have hlower : c.toLower = c := by
    obtain hc | rfl := hc
    · simp only [Char.isDigit, Bool.and_eq_true, decide_eq_true_iff] at hc
      unfold Char.toLower
      grind
    · rfl
  have hne {b : Char} (l : List Char) (hb : ¬(b.isDigit = true ∨ b = '.')) :
      (c :: rest).map Char.toLower ≠ b :: l := by
    intro heq
    rw [List.map_cons, hlower] at heq
    exact hb ((List.cons.inj heq).1 ▸ hc)
  have hinf : (c :: rest).map Char.toLower ≠ "inf".toList := hne _ (by decide)
  have hinfinity : (c :: rest).map Char.toLower ≠ "infinity".toList := hne _ (by decide)
  have hnan : (c :: rest).map Char.toLower ≠ "nan".toList := hne _ (by decide)
  unfold real?
  rw [hsign]
  dsimp only
  rw [if_neg (not_or.2 ⟨hinf, hinfinity⟩), if_neg hnan, h]
  rfl

/-- A spelling is a sign and a decimal with a point that rounds like the shortest one. -/
theorem exists_body_spell (x : Single) : ∃ body d,
    (spell x).toList = (if x.negative then '-' :: body else body) ∧ '.' ∈ body ∧
      decimal? body = some d ∧ ∀ negative, d.toSingle negative = x.shortest.toSingle negative := by
  have hpos : 0 < (Nat.toDigits 10 x.shortest.digits).length := Nat.length_toDigits_pos
  have hmem : ∀ c ∈ Nat.toDigits 10 x.shortest.digits, c.isDigit = true :=
    fun _ => isDigit_of_mem_toDigits
  by_cases hzero : x.shortest.digits = 0
  · refine ⟨['0', '.', '0'], ⟨0, -1⟩, by simp [spell, hzero], by simp, rfl, fun negative => ?_⟩
    simp [Decimal.toSingle, hzero]
  · by_cases hplain :
      isPlain ((Nat.toDigits 10 x.shortest.digits).length + x.shortest.exponent) = true
    · obtain ⟨k, hk⟩ := decimal?_plain hpos hmem x.shortest.exponent
      refine ⟨_, _, by simp [spell, hzero, hplain], ?_, hk, fun negative => ?_⟩
      · unfold plain
        split <;> simp
      · rw [digitsValue_toDigits]
        exact Decimal.toSingle_scale ..
    · obtain ⟨k, hk⟩ := decimal?_scientific hpos hmem x.shortest.exponent
      refine ⟨_, _, by simp [spell, hzero, hplain], by simp [scientific], hk, fun negative => ?_⟩
      rw [digitsValue_toDigits]
      exact Decimal.toSingle_scale ..

/-- A finite single is spelled as a literal of its value. -/
theorem real?_spell {x : Single} (h : x.isFinite = true) : real? (spell x) = some x := by
  obtain ⟨body, d, htext, -, hd, hround⟩ := exists_body_spell x
  have hshort := Single.toSingle_shortest h
  obtain ⟨m, hm, hmagnitude⟩ := x.shortest.exists_magnitude_toSingle
  have hlt : m < Single.signBit := Nat.lt_of_le_of_lt hm (by decide)
  rw [hmagnitude] at hshort
  have hmx := congrArg Single.magnitude hshort
  rw [Single.magnitude_ofMagnitude false hlt,
    Single.magnitude_ofMagnitude false x.magnitude_lt] at hmx
  rw [real?_of_decimal? htext hd, hround, hmagnitude, hmx, x.ofMagnitude_magnitude]

theorem ofLiteral_spell (x : Single) : ValueType.ofLiteral (spell x) = .real := by
  obtain ⟨body, d, htext, hpoint, -⟩ := exists_body_spell x
  have hmem : '.' ∈ (spell x).toList := by
    rw [htext]
    split
    · exact List.mem_cons_of_mem _ hpoint
    · exact hpoint
  rw [ValueType.ofLiteral, if_pos hmem]

end PascalMips.Literal
