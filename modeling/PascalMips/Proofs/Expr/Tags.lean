import PascalMips.Proofs.Expr.Typing
import PascalMips.Proofs.Lower.Marks
import PascalMips.Proofs.Lower.Tags

/-!
# Tags of expressions

Code for a well-typed expression, lowered without a diagnostic, leaves a word of the type of the
expression in the register at the cursor, whatever way its operands had to be converted
(`Expr.yields_lower`).
-/

namespace PascalMips.Lower

variable {ctx : Context} {c : Counters} {s s₀ : Tagging} {n : Nat}

/-- From sound tags the code leads to a word of the type in the register at the cursor. It keeps
the counters and the registers below. -/
def Yields (ctx : Context) (x : Lower Unit) (type : ValueType) : Prop :=
  ∀ c s, s.Sound ctx.signature → Tagged x ctx c
    (fun _ c' s' => c' = c ∧ s.Keeps ctx.signature c.cursor s' ∧ s'.Holds c.cursor type) s

/-- Code that yields a value of a type leads on to whatever follows from that. -/
theorem Yields.tagged {x : Lower Unit} {type : ValueType} {Q : Unit → Counters → Tagging → Prop}
    (hx : Yields ctx x type) (hs : s.Sound ctx.signature)
    (h : ∀ s', s.Keeps ctx.signature c.cursor s' → s'.Holds c.cursor type → Q () c s') :
    Tagged x ctx c Q s := by
  refine (hx c s hs).mono ?_
  rintro _ _ s' ⟨rfl, hkeeps, hholds⟩
  exact h s' hkeeps hholds

/-! ## Values -/

/-- A literal is loaded as a word of its type: a number, or the bits of a single. -/
theorem yields_literal (text : String) (type : ValueType) :
    Yields ctx (literal text type) type := by
  intro c s hs
  have hkeeps := Tagging.Keeps.refl hs c.cursor
  refine tagged_bind (tagged_cursor (tagged_bind (tagged_register fun i hi => ?_)))
  cases type with
  | integer =>
    dsimp only
    split
    · refine tagged_emit hs ⟨Tagging.suits_nil, trivial⟩ rfl ?_
      rintro _ ⟨⟩
      exact ⟨rfl, hkeeps.result hi _⟩
    · exact tagged_diagnose
  | real =>
    dsimp only
    split
    · refine tagged_emit hs ⟨Tagging.suits_nil, trivial⟩ rfl ?_
      rintro _ ⟨⟩
      exact ⟨rfl, hkeeps.result hi _⟩
    · exact tagged_diagnose

/-- A variable is loaded as a word of its declared type. -/
theorem yields_variableValue {name : String} {type : ValueType}
    (htype : ctx.symbols.type? name = some type) : Yields ctx (variableValue name) type := by
  intro c s hs
  have hkeeps := Tagging.Keeps.refl hs c.cursor
  refine tagged_bind (tagged_cursor (tagged_bind (tagged_register fun i hi => ?_)))
  refine tagged_bind (tagged_locate fun place hplace => ?_)
  refine tagged_load hs (hs.place?_address place.1) (Context.slot_of_place hplace htype) ?_
  have hresult := hkeeps.result hi (.ofType type)
  rw [Tag.type_ofType] at hresult
  exact ⟨rfl, hresult⟩

/-! ## Array elements -/

/-- The offset of an element is an integer. -/
theorem tagged_elementOffset {i : Fin 8} {lo : Int} {Q : Unit → Counters → Tagging → Prop}
    (hkeeps : s₀.Keeps ctx.signature n s) (htype : (s.read (.s i)).type = .integer)
    (h : ∀ s', s₀.Keeps ctx.signature n s' → (s'.read .t9).type = .integer → Q () c s') :
    Tagged (elementOffset (.s i) lo) ctx c Q s := by
  unfold elementOffset
  split
  · refine tagged_emit hkeeps.sound ⟨Tagging.suits_nil, trivial⟩ rfl ?_
    rintro _ ⟨⟩
    exact h _ (hkeeps.write .t9 trivial _) (by simp [htype])
  · split
    · refine tagged_emit hkeeps.sound ⟨Tagging.suits_one htype, trivial⟩ rfl ?_
      rintro _ ⟨⟩
      exact h _ (hkeeps.write .t9 trivial _) (by simp)
    · refine tagged_bind (tagged_emit hkeeps.sound ⟨Tagging.suits_nil, trivial⟩ rfl ?_)
      rintro _ ⟨⟩
      have hbound := hkeeps.write .t9 trivial (.constant lo)
      refine tagged_emit hbound.sound
        ⟨Tagging.suits_two (by simp [htype]) (by simp), trivial⟩ rfl ?_
      rintro _ ⟨⟩
      exact h _ (hbound.write .t9 trivial _) (by simp)

/-- The sum of an integer and the place of an array is an address in that place. -/
theorem tagged_addPlace {place : Storage} {Q : Unit → Counters → Tagging → Prop}
    (hkeeps : s₀.Keeps ctx.signature n s) (hoffset : s.read .t9 = .integer)
    (h : ∀ s', s₀.Keeps ctx.signature n s' → s'.read .t9 = .address place → Q () c s') :
    Tagged (addPlace place) ctx c Q s := by
  cases place with
  | global label =>
    refine tagged_bind (tagged_emit hkeeps.sound ⟨Tagging.suits_nil, trivial⟩ rfl ?_)
    rintro _ ⟨⟩
    have hstart := hkeeps.write .t8 trivial (.address (.global label))
    refine tagged_emit hstart.sound
      ⟨Tagging.suits_two (by simp [hoffset]) (by simp), trivial⟩ rfl ?_
    rintro _ ⟨⟩
    exact h _ (hstart.write .t9 trivial _) (by simp [hoffset, AluOp.tag, Tag.add])
  | stack offset =>
    have hstack := hkeeps.sound.stack
    refine tagged_bind (tagged_emit hkeeps.sound
      ⟨Tagging.suits_two (by simp [hoffset]) (by simp [hstack]), trivial⟩ rfl ?_)
    rintro _ ⟨⟩
    have hframe := hkeeps.write .t9 trivial (AluOp.add.tag (s.read .t9) (s.read .sp))
    have ht9 : (s.write .t9 (AluOp.add.tag (s.read .t9) (s.read .sp))).read .t9 =
        .address (.stack 0) := by
      simp [hoffset, hstack, AluOp.tag, Tag.add]
    split
    · next hzero =>
      rw [hzero] at h
      exact tagged_pure (h _ hframe ht9)
    · refine tagged_emit hframe.sound ⟨Tagging.suits_one (by simp), trivial⟩ rfl ?_
      rintro _ ⟨⟩
      exact h _ (hframe.write .t9 trivial _) (by simp [ht9, Tag.shift])

/-- The address of an element tells the place of its array. -/
theorem tagged_elementAddress {name : String} {indexType : ValueType} {index : Lower Unit}
    {Q : Bool → Counters → Tagging → Prop} (hindex : Yields ctx index indexType)
    (hs : s.Sound ctx.signature)
    (h : ∀ s' place, s.Keeps ctx.signature (c.cursor + 1) s' → ctx.place? name = some place →
      s'.read .t9 = .address place.1 → Q true c s') :
    Tagged (elementAddress name indexType index) ctx c Q s := by
  refine tagged_bind (tagged_take (tagged_bind (hindex.tagged hs fun s₁ hkeeps hholds => ?_)))
  refine tagged_bind (tagged_cursor (tagged_bind (tagged_register fun i hi => ?_)))
  refine tagged_bind (tagged_release ?_)
  rw [Counters.release_take]
  refine tagged_bind (tagged_convert hkeeps (Nat.le_of_eq hi) (hholds.read hi)
    fun s₂ hkeeps htype _ => ?_)
  refine tagged_bind (tagged_locate fun place hplace => ?_)
  refine tagged_bind (tagged_elementOffset hkeeps htype fun s₃ hkeeps htype => ?_)
  refine tagged_bind (tagged_emit hkeeps.sound ⟨Tagging.suits_one htype, trivial⟩ rfl ?_)
  rintro _ ⟨⟩
  have hscaled := hkeeps.write .t9 trivial .integer
  refine tagged_bind (tagged_addPlace hscaled (by simp) fun s₄ hkeeps ht9 => ?_)
  exact tagged_pure (h s₄ place hkeeps hplace ht9)

/-- An element is loaded as a word of the type of its array, through an address that is an integer.
-/
theorem yields_elementValue {name : String} {type indexType : ValueType} {index : Lower Unit}
    (htype : ctx.symbols.type? name = some type) (hindex : Yields ctx index indexType) :
    Yields ctx (elementValue name indexType index) type := by
  intro c s hs
  refine tagged_bind (tagged_cursor (tagged_bind (tagged_register fun i hi => ?_)))
  refine tagged_bind (tagged_elementAddress hindex hs fun s₁ place hkeeps hplace ht9 => ?_)
  refine tagged_load hkeeps.sound (Tagging.place?_offset_zero ht9)
    (Context.slot_of_place hplace htype) ?_
  have hresult := (hkeeps.mono (by omega)).result hi (.ofType type)
  rw [Tag.type_ofType] at hresult
  exact ⟨rfl, hresult⟩

/-! ## Operations -/

/-- After both operands, each register holds a word of its type, since the second keeps what is
below it. -/
theorem tagged_operands {left right : Lower Unit} {a b : ValueType}
    {Q : Unit → Counters → Tagging → Prop} (hleft : Yields ctx left a) (hright : Yields ctx right b)
    (hs : s.Sound ctx.signature)
    (h : ∀ s', s.Keeps ctx.signature (c.cursor + 1) s' → s'.Holds (c.cursor + 1) a →
      s'.Holds (c.cursor + 2) b → Q () c s') :
    Tagged (operands left right) ctx c Q s := by
  refine tagged_bind (tagged_take (tagged_bind (hleft.tagged hs fun s₁ hkeeps₁ ha => ?_)))
  refine tagged_bind (tagged_take (tagged_bind (hright.tagged hkeeps₁.sound
    fun s₂ hkeeps₂ hb => ?_)))
  rw [Counters.take_take] at hkeeps₂ hb ⊢
  refine tagged_release ?_
  rw [Counters.release_take]
  rw [Counters.cursor_take] at hkeeps₁ hkeeps₂ ha hb
  exact h s₂ (hkeeps₁.trans hkeeps₂ (by omega)) (ha.of_keeps hkeeps₂ (by omega)) hb

/-- Two values in registers of the pool from `n` on, of the types `a` and `b`, and a register for a
result. -/
structure Operands (ctx : Context) (s₀ s : Tagging) (n : Nat) (d i j : Fin 8) (a b : ValueType) :
    Prop where
  keeps : s₀.Keeps ctx.signature n s
  result : n = d.val
  left : n ≤ i.val
  right : n ≤ j.val
  ne : i ≠ j
  leftType : (s.read (.s i)).type = a
  rightType : (s.read (.s j)).type = b

section

variable {d i j : Fin 8} {a b type : ValueType} {Q : Unit → Counters → Tagging → Prop}

/-- A comparison leaves an integer. Its operands are compared as integers if both are, and otherwise
as reals. -/
theorem tagged_compare {relation : Relation} (ho : Operands ctx s₀ s n d i j a b)
    (h : ∀ s', s₀.Keeps ctx.signature n s' ∧ s'.Holds n .integer → Q () c s') :
    Tagged (compare relation (.s d) (.s i) (.s j) a b) ctx c Q s := by
  unfold compare
  split
  · next hwiden =>
    obtain ⟨rfl, rfl⟩ := ValueType.widen_eq_integer.1 hwiden
    refine tagged_emit ho.keeps.sound ⟨Tagging.suits_two ho.leftType ho.rightType, trivial⟩ rfl ?_
    rintro _ ⟨⟩
    exact h _ (ho.keeps.result ho.result .integer)
  · refine tagged_bind (tagged_floatOperands ho.keeps ho.leftType ho.rightType
      fun s₁ hkeeps hf0 hf1 => ?_)
    refine tagged_bind (tagged_emit hkeeps.sound ⟨Tagging.suits_two hf0 hf1, trivial⟩ rfl ?_)
    rintro _ ⟨⟩
    refine tagged_bind (tagged_emit hkeeps.sound ⟨Tagging.suits_nil, trivial⟩ rfl ?_)
    rintro _ ⟨⟩
    have hone := hkeeps.result ho.result (.constant 1)
    refine tagged_emit hone.1.sound ⟨Tagging.suits_nil, trivial⟩ rfl ?_
    rintro _ ⟨⟩
    · exact h _ (hone.1.result ho.result (.constant 0))
    · exact h _ hone

/-- Operands are converted to integers, each in its own register. -/
theorem tagged_integerOperands (ho : Operands ctx s₀ s n d i j a b)
    (h : ∀ s', Operands ctx s₀ s' n d i j .integer .integer → Q () c s') :
    Tagged (integerOperands (.s i) a (.s j) b) ctx c Q s := by
  have hne : Reg.s j ≠ .s i := fun heq => ho.ne (Reg.s.inj heq).symm
  refine tagged_bind (tagged_convert ho.keeps ho.left ho.leftType fun s₁ hkeeps hleft hframe => ?_)
  have hright : (s₁.read (.s j)).type = b := by rw [hframe _ hne, ho.rightType]
  refine tagged_convert hkeeps ho.right hright fun s₂ hkeeps hright hframe => ?_
  have hleft : (s₂.read (.s i)).type = .integer := by rw [hframe _ hne.symm, hleft]
  exact h s₂ ⟨hkeeps, ho.result, ho.left, ho.right, ho.ne, hleft, hright⟩

/-- A sum, difference, product or quotient has the wider of the types of its operands. -/
theorem tagged_arithmetic {integer : Lower Unit} {float : FloatOp}
    (ho : Operands ctx s₀ s n d i j a b) (htype : type = a.widen b)
    (hinteger : Operands ctx s₀ s n d i j .integer .integer → 
      (∀ s', s₀.Keeps ctx.signature n s' ∧ s'.Holds n .integer → Q () c s') →
        Tagged integer ctx c Q s)
    (h : ∀ s', s₀.Keeps ctx.signature n s' ∧ s'.Holds n type → Q () c s') :
    Tagged (arithmetic integer float type (.s d) (.s i) (.s j) a b) ctx c Q s := by
  cases type with
  | integer =>
    obtain ⟨rfl, rfl⟩ := ValueType.widen_eq_integer.1 htype.symm
    exact hinteger ho h
  | real =>
    refine tagged_bind (tagged_floatOperands ho.keeps ho.leftType ho.rightType
      fun s₁ hkeeps hf0 hf1 => ?_)
    refine tagged_bind (tagged_emit hkeeps.sound ⟨Tagging.suits_two hf0 hf1, trivial⟩ rfl ?_)
    rintro _ ⟨⟩
    have hcomputed := hkeeps.writeFloat .f0 .real
    refine tagged_emit hcomputed.sound ⟨Tagging.suits_nil, trivial⟩ rfl ?_
    rintro _ ⟨⟩
    rw [Tagging.fregs_writeFloat_self]
    exact h _ (hcomputed.result ho.result _)

theorem tagged_alu {op : AluOp} (ho : Operands ctx s₀ s n d i j .integer .integer)
    (h : ∀ s', s₀.Keeps ctx.signature n s' ∧ s'.Holds n .integer → Q () c s') :
    Tagged (emit (.alu op (.s d) (.s i) (.s j))) ctx c Q s := by
  refine tagged_emit ho.keeps.sound ⟨Tagging.suits_two ho.leftType ho.rightType, trivial⟩ rfl ?_
  rintro _ ⟨⟩
  have hresult := ho.keeps.result ho.result (op.tag (s.read (.s i)) (s.read (.s j)))
  rw [AluOp.type_tag] at hresult
  exact h _ hresult

/-- Multiplication and division leave their results outside of the general registers. -/
theorem tagged_throughPair {op copy : Instr} (ho : Operands ctx s₀ s n d i j .integer .integer)
    (hop : op = .mult (.s i) (.s j) ∨ op = .div (.s i) (.s j))
    (hcopy : copy = .mflo (.s d) ∨ copy = .mfhi (.s d))
    (h : ∀ s', s₀.Keeps ctx.signature n s' ∧ s'.Holds n .integer → Q () c s') :
    Tagged (do emit op; emit copy) ctx c Q s := by
  have hfits : op.Fits ctx.signature s := by
    rcases hop with rfl | rfl <;>
      exact ⟨Tagging.suits_two ho.leftType ho.rightType, trivial⟩
  have hpair : s₀.Keeps ctx.signature n { s with hi := .integer, lo := .integer } :=
    ⟨⟨ho.keeps.sound.holds, ho.keeps.sound.stack⟩, ho.keeps.below⟩
  refine tagged_bind (tagged_emit ho.keeps.sound hfits (by rcases hop with rfl | rfl <;> rfl) ?_)
  intro s₁ hs₁
  have hs₁ : s₁ = { s with hi := .integer, lo := .integer } := by
    rcases hop with rfl | rfl <;> cases hs₁ <;> rfl
  rw [hs₁]
  refine tagged_emit hpair.sound ?_ ?_ ?_
  · rcases hcopy with rfl | rfl <;> exact ⟨Tagging.suits_nil, trivial⟩
  · rcases hcopy with rfl | rfl <;> rfl
  · intro s₂ hs₂
    rcases hcopy with rfl | rfl <;> cases hs₂ <;> exact h _ (hpair.result ho.result .integer)

/-- An operator leaves a word of the type that it derives, operator by operator. -/
theorem tagged_apply {op : BinaryOp} (ho : Operands ctx s₀ s n d i j a b)
    (htype : type = op.resultType a b)
    (h : ∀ s', s₀.Keeps ctx.signature n s' ∧ s'.Holds n type → Q () c s') :
    Tagged (apply op type (.s d) (.s i) (.s j) a b) ctx c Q s := by
  cases op with
  | rel relation =>
    subst htype
    exact tagged_compare ho h
  | and =>
    subst htype
    exact tagged_bind (tagged_integerOperands ho fun s' ho' => tagged_alu ho' h)
  | or =>
    subst htype
    exact tagged_bind (tagged_integerOperands ho fun s' ho' => tagged_alu ho' h)
  | div =>
    subst htype
    exact tagged_bind (tagged_integerOperands ho fun s' ho' =>
      tagged_throughPair ho' (.inr rfl) (.inl rfl) h)
  | mod =>
    subst htype
    exact tagged_bind (tagged_integerOperands ho fun s' ho' =>
      tagged_throughPair ho' (.inr rfl) (.inr rfl) h)
  | add => exact tagged_arithmetic ho htype tagged_alu h
  | sub => exact tagged_arithmetic ho htype tagged_alu h
  | mul =>
    exact tagged_arithmetic ho htype (fun ho' => tagged_throughPair ho' (.inl rfl) (.inl rfl)) h
  | divide =>
    exact tagged_arithmetic ho htype (fun ho' => tagged_throughPair ho' (.inr rfl) (.inl rfl)) h

end

/-- An operation yields a value of its derived type. -/
theorem yields_binary {op : BinaryOp} {type a b : ValueType} {left right : Lower Unit}
    (htype : type = op.resultType a b) (hleft : Yields ctx left a) (hright : Yields ctx right b) :
    Yields ctx (binary op type a b left right) type := by
  intro c s hs
  refine tagged_bind (tagged_cursor (tagged_bind (tagged_operands hleft hright hs
    fun s₁ hkeeps ha hb => ?_)))
  refine tagged_bind (tagged_register fun d hd => tagged_bind (tagged_register fun i hi =>
    tagged_bind (tagged_register fun j hj => ?_)))
  have hne : i ≠ j := by
    rintro rfl
    omega
  exact tagged_apply ⟨hkeeps.mono (by omega), hd, by omega, by omega, hne, ha.read hi, hb.read hj⟩
    htype fun s' hs' => ⟨rfl, hs'⟩

/-- Negation yields a value of the type of its operand, and `not` an integer. -/
theorem yields_unary {op : UnaryOp} {type a : ValueType} {operand : Lower Unit}
    (htype : type = op.resultType a) (hoperand : Yields ctx operand a) :
    Yields ctx (unary op type a operand) type := by
  intro c s hs
  refine tagged_bind (tagged_cursor (tagged_bind (tagged_take (tagged_bind (hoperand.tagged hs
    fun s₁ hkeeps hholds => ?_)))))
  refine tagged_bind (tagged_release ?_)
  rw [Counters.release_take]
  refine tagged_bind (tagged_register fun d hd => tagged_bind (tagged_register fun i hi => ?_))
  rw [Counters.cursor_take] at hkeeps hholds
  replace hkeeps : s.Keeps ctx.signature c.cursor s₁ := hkeeps.mono (by omega)
  have hvalue := hholds.read hi
  split
  · -- the operand of a negation has the type of the result
    cases htype
    refine tagged_emit hkeeps.sound ⟨Tagging.suits_two rfl hvalue, trivial⟩ rfl ?_
    rintro _ ⟨⟩
    exact ⟨rfl, hkeeps.result hd .integer⟩
  · cases htype
    refine tagged_throughFloat hkeeps (Nat.le_of_eq hd) hvalue
      (fun _ hf => ⟨Tagging.suits_one hf, trivial⟩) rfl ?_
      fun s₂ hkeeps (hreal : _ = ValueType.real) _ => ?_
    · rintro _ _ ⟨⟩
      rfl
    · exact ⟨rfl, hkeeps, d, hd, hreal⟩
  · subst htype
    refine tagged_bind (tagged_convert hkeeps (by omega) hvalue fun s₂ hkeeps hvalue _ => ?_)
    refine tagged_emit hkeeps.sound ⟨Tagging.suits_two hvalue rfl, trivial⟩ rfl ?_
    rintro _ ⟨⟩
    exact ⟨rfl, hkeeps.result hd .integer⟩

/-! ## Calls -/

/-- From sound tags the code leads to words of the types in the registers above the cursor, and
moves the cursor to the last of them. -/
def YieldsAll (ctx : Context) (x : Lower Unit) (types : List ValueType) : Prop :=
  ∀ c s, s.Sound ctx.signature → Tagged x ctx c
    (fun _ c' s' => c' = c.take types.length ∧ s.Keeps ctx.signature (c.cursor + 1) s' ∧
      s'.HoldsAll (c.cursor + 1) types) s

/-- Arguments in the pool from `index` on are passed in argument registers. -/
theorem tagged_passArguments {targets : List (Fin 4)} {types : List ValueType} {index : Nat}
    {Q : Unit → Counters → Tagging → Prop} (hkeeps : s₀.Keeps ctx.signature n s)
    (hnodup : targets.Nodup) (hholds : s.HoldsAll index types)
    (h : ∀ s', s₀.Keeps ctx.signature n s' →
      (∀ p ∈ targets.zip types, (s'.read (.a p.1)).type = p.2) →
      (∀ k, k ∉ targets → s'.read (.a k) = s.read (.a k)) → Q () c s') :
    Tagged (passArguments index (targets.map Reg.a)) ctx c Q s := by
  induction targets generalizing index types s with
  | nil => exact tagged_pure (h s hkeeps (by simp) fun _ _ => rfl)
  | cons k ks ih =>
    obtain ⟨hk, hks⟩ := List.nodup_cons.1 hnodup
    refine tagged_bind (tagged_register fun i hi => tagged_bind
      (tagged_emit hkeeps.sound ⟨Tagging.suits_nil, trivial⟩ rfl ?_))
    rintro _ ⟨⟩
    have hpassed := hkeeps.write (.a k) trivial (s.read (.s i))
    have hpool (j : Fin 8) : (s.write (.a k) (s.read (.s i))).read (.s j) = s.read (.s j) := by simp
    have hother (l : Fin 4) (hl : l ∉ k :: ks) :
        (s.write (.a k) (s.read (.s i))).read (.a l) = s.read (.a l) :=
      Tagging.read_write_of_ne _ fun heq => hl (by rw [Reg.a.inj heq]; exact List.mem_cons_self)
    cases types with
    | nil =>
      have hnone : (s.write (.a k) (s.read (.s i))).HoldsAll (index + 1) [] := trivial
      refine ih hpassed hks hnone fun s' hkeeps' _ hframe => ?_
      refine h s' hkeeps' (by simp) fun l hl => ?_
      rw [hframe l fun hmem => hl (List.mem_cons_of_mem _ hmem), hother l hl]
    | cons type types =>
      refine ih hpassed hks (hholds.2.of_keeps hpool) fun s' hkeeps' htypes hframe => ?_
      refine h s' hkeeps' (List.forall_mem_cons.2 ⟨?_, htypes⟩) fun l hl => ?_
      · simp [hframe k hk, hholds.1.read hi]
      · rw [hframe l fun hmem => hl (List.mem_cons_of_mem _ hmem), hother l hl]

/-- Arguments that a row of registers holds are passed with their types, one by one. -/
theorem tagged_passAll {params : List ValueType} {index : Nat}
    {Q : Unit → Counters → Tagging → Prop} (hkeeps : s₀.Keeps ctx.signature n s)
    (hholds : s.HoldsAll index params)
    (h : ∀ s', s₀.Keeps ctx.signature n s' → s'.Passes params → Q () c s') :
    Tagged (passArguments index (Reg.arguments.take params.length)) ctx c Q s := by
  let targets : List (Fin 4) := [0, 1, 2, 3]
  have htargets (k : Fin 4) : targets[k.val]? = some k := by decide +revert
  have hregs : Reg.arguments.take params.length = (targets.take params.length).map Reg.a := by
    rw [List.map_take]
    rfl
  rw [hregs]
  refine tagged_passArguments hkeeps ((List.take_sublist ..).nodup (by decide)) hholds
    fun s' hkeeps' hpassed _ => h s' hkeeps' fun k type hk => ?_
  have hlt := (List.getElem?_eq_some_iff.1 hk).1
  have hzip : ((targets.take params.length).zip params)[k.val]? = some (k, type) := by
    rw [List.getElem?_zip_eq_some, List.getElem?_take_of_lt hlt]
    exact ⟨htargets k, hk⟩
  exact hpassed _ (List.mem_of_getElem? hzip)

/-- A call of a subprogram with as many arguments as it has parameters gives a result of the type of
its name. -/
theorem tagged_call {name : String} {count : Nat} {params : List ValueType}
    {arguments : List ValueType → Lower Unit} {Q : Bool → Counters → Tagging → Prop}
    (hparams : ctx.symbols.params? name = some params) (hcount : count = params.length)
    (harguments : YieldsAll ctx (arguments params) params) (hs : s.Sound ctx.signature)
    (h : ∀ s', s.Keeps ctx.signature (c.cursor + 1) s' →
      (∀ type, ctx.symbols.type? name = some type → (s'.read .v0).type = type) → Q true c s') :
    Tagged (call name count arguments) ctx c Q s := by
  obtain ⟨symbol, hlookup, hsymbol⟩ := Option.bind_eq_some_iff.1 hparams
  obtain ⟨depth, hfind⟩ := SymbolTable.lookup?_eq_some hlookup
  have hdeclared : ctx.signature.routine (routineLabel ctx.path depth name) params
      symbol.binding.type? := ⟨name, depth, symbol, hfind, rfl, hsymbol, rfl⟩
  have htype : ctx.symbols.type? name = symbol.binding.type? := by
    rw [SymbolTable.type?, hlookup, Option.bind_some]
  subst hcount
  refine tagged_bind (tagged_routine? hfind hsymbol ?_)
  dsimp only
  split
  · exact tagged_bind tagged_diagnose
  · refine tagged_bind (tagged_cursor (tagged_bind ((harguments c s hs).mono ?_)))
    rintro _ _ s₁ ⟨rfl, hkeeps, hholds⟩
    refine tagged_bind (tagged_passAll hkeeps hholds fun s₂ hkeeps hpasses => ?_)
    refine tagged_bind (tagged_release ?_)
    rw [Counters.release_take]
    refine tagged_bind (tagged_emit hkeeps.sound
      ⟨Tagging.suits_nil, params, _, hdeclared, hpasses⟩ rfl ?_)
    intro s₃ hstep
    cases hstep with
    | jal hcalls =>
      refine tagged_pure (h s₃ (hkeeps.calls hcalls) fun type hresult => ?_)
      rw [htype] at hresult
      exact hcalls.result params type (hresult ▸ hdeclared)

/-- A call yields a value of the declared type if it passes as many arguments as there are
parameters. -/
theorem yields_callValue {name : String} {count : Nat} {type : ValueType} {params : List ValueType}
    {arguments : List ValueType → Lower Unit} (htype : ctx.symbols.type? name = some type)
    (hparams : ctx.symbols.params? name = some params) (hcount : count = params.length)
    (harguments : YieldsAll ctx (arguments params) params) :
    Yields ctx (callValue name count arguments) type := by
  intro c s hs
  refine tagged_bind (tagged_call hparams hcount harguments hs fun s₁ hkeeps hresult => ?_)
  refine tagged_bind (tagged_cursor (tagged_bind (tagged_register fun i hi => ?_)))
  refine tagged_emit hkeeps.sound ⟨Tagging.suits_nil, trivial⟩ rfl ?_
  rintro _ ⟨⟩
  have hvalue := (hkeeps.mono (by omega)).result hi (s₁.read .v0)
  rw [hresult type htype] at hvalue
  exact ⟨rfl, hvalue⟩

end PascalMips.Lower

namespace PascalMips

/-- A call passes as many arguments as the visible subprogram has parameters. -/
def Need.FedIn (t : SymbolTable) : Need → Prop
  | call name count => (t.params? name).map List.length = some count
  | _ => True

instance (t : SymbolTable) : DecidablePred (Need.FedIn t)
  | .call .. => inferInstanceAs (Decidable (_ = _))
  | .number .. => .isTrue trivial
  | .place _ => .isTrue trivial

namespace Expr

open Lower

/-- The type of a node is the type of what its name stands for. -/
def HasNameType (t : SymbolTable) : Expr → Prop
  | var name type => t.type? name = some type
  | element name type _ => t.type? name = some type
  | call name type _ => t.type? name = some type
  | _ => True

instance (t : SymbolTable) : DecidablePred (HasNameType t)
  | var .. => inferInstanceAs (Decidable (_ = _))
  | element .. => inferInstanceAs (Decidable (_ = _))
  | call .. => inferInstanceAs (Decidable (_ = _))
  | literal .. => .isTrue trivial
  | binary .. => .isTrue trivial
  | unary .. => .isTrue trivial

/-- The nodes of an expression have the types of their names, and operations the types that follow
from their operands. -/
def TypedIn (t : SymbolTable) (e : Expr) : Prop := e.All fun d => d.HasNameType t ∧ d.HasDerivedType

instance (t : SymbolTable) : DecidablePred (TypedIn t) :=
  fun e => inferInstanceAs (Decidable (e.All _))

def AllTypedIn (t : SymbolTable) (es : List Expr) : Prop :=
  AllOf (fun d => d.HasNameType t ∧ d.HasDerivedType) es

instance (t : SymbolTable) : DecidablePred (AllTypedIn t) :=
  fun es => inferInstanceAs (Decidable (AllOf _ es))

variable {ctx : Context}

mutual

/-- Code for a well-typed expression with fed calls leaves a word of its type in the register at the
cursor. -/
theorem yields_lower : ∀ {e : Expr}, e.TypedIn ctx.symbols →
    (∀ need ∈ e.needs, need.FedIn ctx.symbols) → Yields ctx e.lower e.type
  | literal text type, _, _ => by
    rw [lower]
    exact yields_literal text type
  | var name type, ⟨hname, _⟩, _ => by
    rw [lower]
    exact yields_variableValue hname
  | element name type index, ⟨⟨hname, _⟩, hindex⟩, hfed => by
    rw [lower]
    rw [needs, List.forall_mem_cons] at hfed
    exact yields_elementValue hname (yields_lower hindex hfed.2)
  | call name type args, ⟨⟨hname, _⟩, hargs⟩, hfed => by
    rw [lower]
    rw [needs, List.forall_mem_cons] at hfed
    obtain ⟨params, hparams, hlength⟩ := Option.map_eq_some_iff.1 hfed.1
    exact yields_callValue hname hparams hlength.symm
      (yieldsAll_lowerArgs hargs hfed.2 hlength.symm)
  | binary op left right type, ⟨⟨_, htype⟩, hleft, hright⟩, hfed => by
    rw [lower]
    rw [needs, List.forall_mem_append] at hfed
    exact yields_binary htype (yields_lower hleft hfed.1) (yields_lower hright hfed.2)
  | unary op operand type, ⟨⟨_, htype⟩, hoperand⟩, hfed => by
    rw [lower]
    rw [needs] at hfed
    exact yields_unary htype (yields_lower hoperand hfed)

/-- Arguments are left as words of the types of the parameters. -/
theorem yieldsAll_lowerArgs : ∀ {args : List Expr} {params : List ValueType},
    AllTypedIn ctx.symbols args → (∀ need ∈ needsAll args, need.FedIn ctx.symbols) →
      args.length = params.length → YieldsAll ctx (lowerArgs args params) params
  | [], [], _, _, _ => by
    rw [lowerArgs]
    exact fun c s hs => tagged_pure ⟨rfl, .refl hs _, trivial⟩
  | arg :: args, param :: params, ⟨harg, hargs⟩, hfed, hlength => by
    rw [lowerArgs]
    rw [needsAll, List.forall_mem_append] at hfed
    intro c s hs
    refine tagged_bind (tagged_take (tagged_bind ((yields_lower harg hfed.1).tagged hs
      fun s₁ hkeeps hvalue => ?_)))
    refine tagged_bind (tagged_cursor (tagged_bind (tagged_register fun i hi => ?_)))
    refine tagged_bind (tagged_convert hkeeps (Nat.le_of_eq hi) (hvalue.read hi)
      fun s₂ hkeeps htype _ => ?_)
    have hrest := yieldsAll_lowerArgs hargs hfed.2 (Nat.succ.inj hlength) (c.take 1) s₂ hkeeps.sound
    refine hrest.mono ?_
    rintro _ _ s₃ ⟨rfl, hkeeps', hholds⟩
    rw [Counters.cursor_take] at hkeeps hkeeps' hholds hi
    have hfirst : s₂.Holds (c.cursor + 1) param := ⟨i, hi, htype⟩
    refine ⟨?_, hkeeps.trans hkeeps' (by omega), hfirst.of_keeps hkeeps' (by omega), hholds⟩
    rw [Counters.take_take, List.length_cons, Nat.add_comm]

end

end Expr

end PascalMips
