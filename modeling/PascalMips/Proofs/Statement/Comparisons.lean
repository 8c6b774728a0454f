import PascalMips.Proofs.Constant
import PascalMips.Proofs.Lower.Cursor
import PascalMips.Proofs.Machine.Run

/-!
# Comparisons of reals

A comparison is decided in three places: by the code that leaves 0 or 1, by the code that branches
on a test, and where constants are folded. The two kinds of code always agree, since both test the
flag of the same instruction for the same state. Folding differs from them exactly if `>` or `>=`
meets a not-a-number: there is no instruction for these two, so the code tests for the opposite, and
an opposite that is false of a not-a-number makes the comparison hold
(`Lower.comparison_of_reals`).
-/

namespace PascalMips

/-! ## Tests and relations -/

namespace Single

variable {x y : Single}

theorem lt_of_isNaN (h : x.isNaN = true ∨ y.isNaN = true) : x.lt y = false := by
  unfold lt
  rcases h with h | h <;> simp [h]

theorem le_of_isNaN (h : x.isNaN = true ∨ y.isNaN = true) : x.le y = false := by
  unfold le
  rcases h with h | h <;> simp [h]

end Single

namespace Relation

/-- The tests of the processor decide a comparison as it is meant, unless `>` or `>=` meets a
not-a-number. -/
theorem holdsByTest_eq_iff (relation : Relation) (x y : Single) :
    relation.holdsByTest x y = relation.holdsReal x y ↔
      ¬((relation = .gt ∨ relation = .ge) ∧ (x.isNaN = true ∨ y.isNaN = true)) := by
  by_cases h : x.isNaN = true ∨ y.isNaN = true
  · have h' : y.isNaN = true ∨ x.isNaN = true := h.symm
    cases relation with
    | gt => simp [holdsByTest, holdsReal, Single.le_of_isNaN h, Single.lt_of_isNaN h', h]
    | ge => simp [holdsByTest, holdsReal, Single.le_of_isNaN h', Single.lt_of_isNaN h, h]
    | _ => simp [holdsByTest, holdsReal]
  · obtain ⟨hx, hy⟩ := not_or.1 h
    have heq := relation.holdsByTest_eq (Bool.eq_false_of_not_eq_true hx)
      (Bool.eq_false_of_not_eq_true hy)
    exact iff_of_true heq fun hboth => h hboth.2

end Relation

/-- The value that a word of a type stands for. -/
def Constant.ofWord : ValueType → Word → Constant
  | .integer, w => integer w.toInt
  | .real, w => real ⟨w⟩

/-- Values of which one is real are compared as reals. -/
theorem Constant.compare_ofWord {s t : ValueType} (h : s.widen t = .real) (relation : Relation)
    (a b : Word) :
    compare relation (ofWord s a) (ofWord t b) = relation.holdsReal (s.toReal a) (t.toReal b) := by
  cases s with
  | integer =>
    cases t with
    | integer => cases h
    | real => rfl
  | real => cases t <;> rfl

/-! ## Code -/

namespace Image

variable {p : Image} {m : Machine} {ctx : Context} {c : Counters}

theorem executes_mark (d : Diagnostic) : p.Executes [.mark d] m m := by
  intro pc h
  refine Relation.ReflTransGen.single ?_
  simp [step, h.line]

/-- Choosing a register costs nothing at run time. -/
theorem executes_register (i : Nat) : p.Executes (Lower.register i ctx c).lines m m := by
  cases h : Reg.pool[i]? with
  | none =>
    rw [Lower.register_of_none h]
    exact executes_mark _
  | some r =>
    rw [Lower.register_of_some h]
    exact .nil p m

theorem executes_floatOperand (r : Reg) (type : ValueType) (f : FReg) :
    p.Executes (Lower.floatOperand r type f ctx c).lines m
      (m.writeFloat f (type.toReal (m.read r)).bits) := by
  cases type with
  | real => exact .instr fun _ => rfl
  | integer =>
    refine .cons (fun _ => rfl) (.instr fun _ => ?_)
    simp [Instr.exec, Machine.writeFloat, ValueType.toReal]

theorem executes_floatOperands (r₁ r₂ : Reg) (s t : ValueType) :
    p.Executes (Lower.floatOperands r₁ s r₂ t ctx c).lines m
      ((m.writeFloat .f0 (s.toReal (m.read r₁)).bits).writeFloat .f1
        (t.toReal (m.read r₂)).bits) := by
  have hread (w : Word) : (m.writeFloat .f0 w).read r₂ = m.read r₂ := by cases r₂ <;> rfl
  rw [← hread (s.toReal (m.read r₁)).bits]
  exact (executes_floatOperand r₁ s .f0).append (executes_floatOperand r₂ t .f1)

end Image

namespace Lower

/-- The register that is taken for an index of the pool. -/
def registerAt (i : Nat) : Reg := Reg.pool[i]?.getD .s7

theorem value_register (i : Nat) (ctx : Context) (c : Counters) :
    (register i ctx c).value = registerAt i := by
  unfold registerAt
  cases h : Reg.pool[i]? with
  | none => rw [register_of_none h, Option.getD_none]
  | some r => rw [register_of_some h, Option.getD_some]

theorem registerAt_ne_zero (i : Nat) : registerAt i ≠ .zero := by
  unfold registerAt
  cases h : Reg.pool[i]? with
  | none => exact (by decide : Reg.s7 ≠ .zero)
  | some r =>
    have hpool : ∀ r ∈ Reg.pool, r ≠ .zero := by decide
    exact hpool r (List.mem_of_getElem? h)

/-- The machine with two singles in the floating point registers and the flag of their test. -/
def tested (m : Machine) (relation : Relation) (x y : Single) : Machine :=
  { (m.writeFloat .f0 x.bits).writeFloat .f1 y.bits with
    flag := (floatTest relation).1.exec x y }

/-- The code looks for the state of the flag in which the comparison does not hold. -/
theorem flag_tested (m : Machine) (relation : Relation) (x y : Single) :
    (tested m relation x y).flag = !(floatTest relation).2 ↔ relation.holdsByTest x y = false := by
  cases relation <;> simp [tested, floatTest, FloatTest.exec, Relation.holdsByTest]

variable {p : Image} {relation : Relation} {s t : ValueType}

theorem executes_tested (p : Image) (relation : Relation) (r₁ r₂ : Reg) (ctx : Context)
    (c : Counters) (m : Machine) :
    p.Executes ((floatOperands r₁ s r₂ t ctx c).lines ++
        [.instr (.compare (floatTest relation).1 .f0 .f1)]) m
      (tested m relation (s.toReal (m.read r₁)) (t.toReal (m.read r₂))) := by
  refine (Image.executes_floatOperands r₁ r₂ s t).append (.instr fun _ => ?_)
  simp [Instr.exec, tested, Machine.writeFloat]

/-- The code of a comparison leaves 0 or 1. -/
theorem executes_compare (p : Image) (relation : Relation) (hreal : s.widen t = .real) {d : Reg}
    (hd : d ≠ .zero) (r₁ r₂ : Reg) (ctx : Context) (c : Counters) (m : Machine) :
    ∃ m', p.Executes (compare relation d r₁ r₂ s t ctx c).lines m m' ∧ m'.read d =
      Word.ofBool (relation.holdsByTest (s.toReal (m.read r₁)) (t.toReal (m.read r₂))) := by
  have hlines : (compare relation d r₁ r₂ s t ctx c).lines =
      ((floatOperands r₁ s r₂ t ctx c).lines ++
          [.instr (.compare (floatTest relation).1 .f0 .f1)]) ++
        [.instr (.li d 1), .instr (.moveIf (!(floatTest relation).2) d .zero)] := by
    rw [List.append_assoc]
    simp only [compare, hreal]
    rfl
  rw [hlines]
  have hflag (x y : Single) (w : Word) : ((tested m relation x y).write d w).flag =
      !(floatTest relation).2 ↔ relation.holdsByTest x y = false := flag_tested m relation x y
  refine ⟨_, (executes_tested p relation r₁ r₂ ctx c m).append
    (.cons (fun _ => rfl) (.instr fun _ => rfl)), ?_⟩
  cases hholds : relation.holdsByTest (s.toReal (m.read r₁)) (t.toReal (m.read r₂)) with
  | false =>
    rw [if_pos ((hflag _ _ _).2 hholds), Machine.read_write _ _ _ _ hd, if_pos rfl]
    rfl
  | true =>
    rw [if_neg (by rw [hflag, hholds]; decide), Machine.read_write _ _ _ _ hd, if_pos rfl]
    rfl

/-- The code of two operands, from line `pc` on, comes to its end with `a` and `b` in the registers
above the cursor. -/
structure OperandsLeave (p : Image) (ctx : Context) (c : Counters) (left right : Expr) (pc : Nat)
    (m m' : Machine) (a b : Word) : Prop where
  reaches : p.Reaches (pc, m) (pc + (operands left.lower right.lower ctx c).lines.length, m')
  left : m'.read (registerAt (c.cursor + 1)) = a
  right : m'.read (registerAt (c.cursor + 2)) = b

variable {ctx : Context} {c : Counters} {left right : Expr} {pc : Nat} {m m' : Machine} {a b : Word}

theorem OperandsLeave.then {ys : List Line} {m'' : Machine}
    (h : OperandsLeave p ctx c left right pc m m' a b)
    (hcode : p.Has pc ((operands left.lower right.lower ctx c).lines ++ ys))
    (hys : p.Executes ys m' m'') :
    p.Reaches (pc, m) (pc + ((operands left.lower right.lower ctx c).lines ++ ys).length, m'') :=
  (h.reaches.trans (hys _ hcode.right)).of_eq (by rw [List.length_append, Nat.add_assoc])

/-- The code that leaves a comparison as a value. -/
theorem reaches_comparison (hreal : left.type.widen right.type = .real) {type : ValueType}
    (hcode : p.Has pc ((Expr.binary (.rel relation) left right type).lower ctx c).lines)
    (hoperands : OperandsLeave p ctx c left right pc m m' a b) :
    ∃ m'', p.Reaches (pc, m)
        (pc + ((Expr.binary (.rel relation) left right type).lower ctx c).lines.length, m'') ∧
      m''.read (registerAt c.cursor) =
        Word.ofBool (relation.holdsByTest (left.type.toReal a) (right.type.toReal b)) := by
  simp only [Expr.lower, binary, bind_apply, cursor_apply, still_register _ _ _, value_register,
    List.nil_append] at hcode ⊢
  obtain ⟨m'', hcompare, hread⟩ := executes_compare p relation hreal (registerAt_ne_zero c.cursor)
    (registerAt (c.cursor + 1)) (registerAt (c.cursor + 2)) ctx
    (operands left.lower right.lower ctx c).counters m'
  rw [hoperands.left, hoperands.right] at hread
  refine ⟨m'', hoperands.then hcode ?_, hread⟩
  exact (Image.executes_register _).append ((Image.executes_register _).append
    ((Image.executes_register _).append hcompare))

/-- The code that branches unless a comparison holds. -/
theorem reaches_branchUnless_comparison (hreal : left.type.widen right.type = .real)
    {type : ValueType} {l : Label} {target : Nat}
    (hcode : p.Has pc (branchUnless (.binary (.rel relation) left right type) l ctx c).lines)
    (htarget : p.find? l = some target)
    (hoperands : OperandsLeave p ctx c left right pc m m' a b) :
    ∃ m'', p.Reaches (pc, m)
      (if relation.holdsByTest (left.type.toReal a) (right.type.toReal b) then
        pc + (branchUnless (.binary (.rel relation) left right type) l ctx c).lines.length
      else target, m'') := by
  have hlines : (branchUnless (.binary (.rel relation) left right type) l ctx c).lines =
      ((operands left.lower right.lower ctx c).lines ++
        ((register (c.cursor + 1) ctx (operands left.lower right.lower ctx c).counters).lines ++
          ((register (c.cursor + 2) ctx (operands left.lower right.lower ctx c).counters).lines ++
            ((floatOperands (registerAt (c.cursor + 1)) left.type (registerAt (c.cursor + 2))
              right.type ctx (operands left.lower right.lower ctx c).counters).lines ++
                [.instr (.compare (floatTest relation).1 .f0 .f1)])))) ++
        [.instr (.branchIf (!(floatTest relation).2) l)] := by
    simp only [branchUnless, compareUnless, hreal, bind_apply, cursor_apply, still_register _ _ _,
      still_floatOperands _ _ _ _ _ _, value_register, List.nil_append, List.append_assoc]
    rfl
  rw [hlines] at hcode ⊢
  have htested := executes_tested (s := left.type) (t := right.type) p relation
    (registerAt (c.cursor + 1)) (registerAt (c.cursor + 2)) ctx
    (operands left.lower right.lower ctx c).counters m'
  rw [hoperands.left, hoperands.right] at htested
  have hreaches := hoperands.then hcode.left ((Image.executes_register _).append
    ((Image.executes_register _).append htested))
  have hflag := flag_tested m' relation (left.type.toReal a) (right.type.toReal b)
  refine ⟨_, hreaches.trans (Image.reaches_instr hcode.right rfl ?_)⟩
  cases hholds : relation.holdsByTest (left.type.toReal a) (right.type.toReal b) with
  | false =>
    rw [if_pos (hflag.2 hholds)]
    exact htarget
  | true =>
    rw [if_neg (by rw [hflag, hholds]; decide), if_pos rfl]
    refine congrArg some ?_
    simp only [List.length_append, List.length_singleton]
    omega

/-- The two kinds of code for a comparison decide it alike, whatever the words in the registers of
the operands are: by the tests of the processor, after a conversion of integers to singles. Folding
decides it in the same way exactly if it is not `>` or `>=` with a not-a-number. -/
theorem comparison_of_reals (relation : Relation) {left right : Expr}
    (hreal : left.type.widen right.type = .real) (type : ValueType) (l : Label) (ctx : Context)
    (c : Counters) (a b : Word) : ∃ holds : Bool,
    holds = relation.holdsByTest (left.type.toReal a) (right.type.toReal b) ∧
    (∀ p pc m m', p.Has pc ((Expr.binary (.rel relation) left right type).lower ctx c).lines →
      OperandsLeave p ctx c left right pc m m' a b →
        ∃ m'', p.Reaches (pc, m)
            (pc + ((Expr.binary (.rel relation) left right type).lower ctx c).lines.length, m'') ∧
          m''.read (registerAt c.cursor) = Word.ofBool holds) ∧
    (∀ p pc m m' target,
      p.Has pc (branchUnless (.binary (.rel relation) left right type) l ctx c).lines →
      p.find? l = some target → OperandsLeave p ctx c left right pc m m' a b →
        ∃ m'', p.Reaches (pc, m) (if holds then
            pc + (branchUnless (.binary (.rel relation) left right type) l ctx c).lines.length
          else target, m'')) ∧
    (holds = Constant.compare relation (.ofWord left.type a) (.ofWord right.type b) ↔
      ¬((relation = .gt ∨ relation = .ge) ∧
        ((left.type.toReal a).isNaN = true ∨ (right.type.toReal b).isNaN = true))) := by
  refine ⟨relation.holdsByTest (left.type.toReal a) (right.type.toReal b), rfl, ?_, ?_, ?_⟩
  · intro p pc m m' hcode hoperands
    exact reaches_comparison hreal hcode hoperands
  · intro p pc m m' target hcode htarget hoperands
    exact reaches_branchUnless_comparison hreal hcode htarget hoperands
  · rw [Constant.compare_ofWord hreal]
    exact relation.holdsByTest_eq_iff _ _

/-! ## A variable that is not a number -/

/-- A real variable `x` under a label. -/
def realContext : Context where
  symbols := ⟨[], [⟨0, "x", .scalar .real, none⟩], 1⟩
  storage := ⟨[(0, .global (.ofVariable "x"))]⟩
  path := []

/-- The code that leaves a comparison of `x` with one as a value. -/
def comparisonWithOne (relation : Relation) : List Line :=
  ((Expr.ofBinary (.rel relation) (.var "x" .real) (.ofLiteral "1.0")).lower realContext
    .start).lines

/-- Every word of the memory is not a number. -/
def nanMachine : Machine where
  regs _ := 0
  hi := 0
  lo := 0
  fregs _ := 0
  flag := false
  memory _ := 0x7fc00000
  input := []
  output := ""

def comparisonImage (relation : Relation) : Image :=
  .ofLines (comparisonWithOne relation) (fun _ => 0x10010000) (fun _ => 0) (fun _ => "")
    (by cases relation <;> decide +kernel)

/-- The code of the operands. -/
def loadsWithOne : List Line :=
  [.instr (.lw (registerAt 1) (.label (.ofVariable "x"))),
    .instr (.liBits (registerAt 2) ⟨0x3f800000⟩)]

theorem comparisonImage_has (relation : Relation) :
    (comparisonImage relation).Has 0 (comparisonWithOne relation) := List.prefix_refl _

theorem comparisonImage_operands (relation : Relation) : ∃ m',
    OperandsLeave (comparisonImage relation) realContext .start (.var "x" .real)
      (.ofLiteral "1.0") 0 nanMachine m' 0x7fc00000 0x3f800000 := by
  have hlines : (operands (Expr.var "x" .real).lower (Expr.ofLiteral "1.0").lower realContext
      .start).lines = loadsWithOne := by decide +kernel
  have hcode : (comparisonImage relation).Has 0 loadsWithOne := by
    show loadsWithOne <+: (comparisonWithOne relation).drop 0
    cases relation <;> decide +kernel
  have hload (pc : Nat) : (Instr.lw (registerAt 1) (.label (.ofVariable "x"))).exec
      (comparisonImage relation) pc nanMachine =
        some (.next, nanMachine.write (registerAt 1) 0x7fc00000) := by
    have hdata : (comparisonImage relation).data (.ofVariable "x") = 0x10010000 := rfl
    simp only [Instr.exec, Machine.effective, hdata, Machine.load]
    rw [if_pos (by decide)]
    rfl
  have hexecutes : (comparisonImage relation).Executes loadsWithOne nanMachine
      ((nanMachine.write (registerAt 1) 0x7fc00000).write (registerAt 2) 0x3f800000) :=
    .cons hload (.instr fun _ => rfl)
  have hreaches := hexecutes 0 hcode
  rw [← hlines] at hreaches
  exact ⟨_, hreaches, rfl, rfl⟩

/-- With `<=` the code and folding agree that a not-a-number is not below one. -/
theorem nan_not_le_one : ∃ m', (comparisonImage .le).Reaches (0, nanMachine)
      ((comparisonWithOne .le).length, m') ∧
    m'.read (registerAt 0) = Word.ofBool (Constant.compare .le (.ofWord .real 0x7fc00000)
      (.ofWord .real 0x3f800000)) := by
  obtain ⟨m', hoperands⟩ := comparisonImage_operands .le
  obtain ⟨holds, -, hvalue, -, hagree⟩ := comparison_of_reals .le
    (show (Expr.var "x" .real).type.widen (Expr.ofLiteral "1.0").type = .real by decide +kernel)
    .integer (.otherwise 0) realContext .start 0x7fc00000 0x3f800000
  obtain ⟨m'', hreaches, hread⟩ := hvalue _ 0 nanMachine m' (comparisonImage_has .le) hoperands
  have hholds := hagree.2 (by decide)
  exact ⟨m'', hreaches.of_eq (Nat.zero_add _), hread.trans (congrArg Word.ofBool hholds)⟩

/-- With `>` the code takes a not-a-number to be above one; folding does not. -/
theorem nan_gt_one : (∃ m', (comparisonImage .gt).Reaches (0, nanMachine)
      ((comparisonWithOne .gt).length, m') ∧ m'.read (registerAt 0) = Word.ofBool true) ∧
    Constant.compare .gt (.ofWord .real 0x7fc00000) (.ofWord .real 0x3f800000) = false := by
  obtain ⟨m', hoperands⟩ := comparisonImage_operands .gt
  obtain ⟨m'', hreaches, hread⟩ :=
    reaches_comparison (by decide +kernel) (comparisonImage_has .gt) hoperands
  have hholds : Relation.holdsByTest .gt (ValueType.real.toReal 0x7fc00000)
      (ValueType.real.toReal 0x3f800000) = true := by decide +kernel
  exact ⟨⟨m'', hreaches.of_eq (Nat.zero_add _), hread.trans (congrArg Word.ofBool hholds)⟩,
    by decide +kernel⟩

end Lower

end PascalMips
