import PascalMips.Proofs.Lower.Basic
import PascalMips.Proofs.Machine.Run
import PascalMips.Statement.Lower

/-!
# Labels of lowered code

Code for expressions defines no label and draws no number (`Plain`). Code for statements defines
labels with the numbers that it draws itself, each of them once (`Draws`); so the labels of one
piece of code are not those of another that was lowered before or after it.
-/

namespace PascalMips

/-- The label has a number that was drawn on the way from `c` to `c'`. -/
def Label.DrawnBetween (c c' : Counters) : Label → Prop
  | otherwise n => c.ifs ≤ n ∧ n < c'.ifs
  | endIf n => c.ifs ≤ n ∧ n < c'.ifs
  | loop n => c.loops ≤ n ∧ n < c'.loops
  | endLoop n => c.loops ≤ n ∧ n < c'.loops
  | main => False
  | named _ => False

namespace Lower

variable {α β : Type}

/-! ## Code without labels -/

/-- The code defines no label and draws no number, in any context. -/
structure Plain (x : Lower α) : Prop where
  labels : ∀ ctx c, labelsOf (x ctx c).lines = []
  ifs : ∀ ctx c, (x ctx c).counters.ifs = c.ifs
  loops : ∀ ctx c, (x ctx c).counters.loops = c.loops

theorem plain_pure (a : α) : Plain (pure a : Lower α) :=
  ⟨fun _ _ => rfl, fun _ _ => rfl, fun _ _ => rfl⟩

/-- Plain code, one piece after the other, is plain. -/
theorem Plain.bind {x : Lower α} {f : α → Lower β} (hx : Plain x) (hf : ∀ a, Plain (f a)) :
    Plain (x >>= f) where
  labels ctx c := by
    rw [bind_apply, labelsOf_append, hx.labels, (hf _).labels]
    rfl
  ifs ctx c := by rw [bind_apply, (hf _).ifs, hx.ifs]
  loops ctx c := by rw [bind_apply, (hf _).loops, hx.loops]

theorem plain_emit (i : Instr) : Plain (emit i) := ⟨fun _ _ => rfl, fun _ _ => rfl, fun _ _ => rfl⟩

theorem plain_diagnose (d : Diagnostic) : Plain (diagnose d) :=
  ⟨fun _ _ => rfl, fun _ _ => rfl, fun _ _ => rfl⟩

theorem plain_cursor : Plain cursor := ⟨fun _ _ => rfl, fun _ _ => rfl, fun _ _ => rfl⟩

theorem plain_take (count : Nat) : Plain (take count) :=
  ⟨fun _ _ => rfl, fun _ _ => rfl, fun _ _ => rfl⟩

theorem plain_release (count : Nat) : Plain (release count) :=
  ⟨fun _ _ => rfl, fun _ _ => rfl, fun _ _ => rfl⟩

theorem plain_register (i : Nat) : Plain (register i) := by
  unfold register
  split
  · exact plain_pure _
  · exact (plain_diagnose _).bind fun _ => plain_pure _

/-- Where a name has no place, the code is marked, which is plain. -/
theorem plain_locate (name : String) : Plain (locate name) := by
  have hfind : Plain (find? name) := ⟨fun _ _ => rfl, fun _ _ => rfl, fun _ _ => rfl⟩
  refine hfind.bind fun found => ?_
  split
  · exact (plain_diagnose _).bind fun _ => plain_pure _
  · exact (plain_diagnose _).bind fun _ => plain_pure _
  · exact plain_pure _

theorem plain_convert (r : Reg) (s t : ValueType) : Plain (convert r s t) := by
  cases s <;> cases t <;> exact ⟨fun _ _ => rfl, fun _ _ => rfl, fun _ _ => rfl⟩

/-! ### Expressions -/

theorem plain_literal (text : String) (type : ValueType) : Plain (literal text type) := by
  refine plain_cursor.bind fun _ => (plain_register _).bind fun r => ?_
  split <;> split
  · exact plain_emit _
  · exact plain_diagnose _
  · exact plain_emit _
  · exact plain_diagnose _

theorem plain_variableValue (name : String) : Plain (variableValue name) := by
  refine plain_cursor.bind fun _ => (plain_register _).bind fun r =>
    (plain_locate _).bind fun l => ?_
  split
  · exact plain_emit _
  · exact plain_pure _

theorem plain_elementOffset (r : Reg) (lo : Int) : Plain (elementOffset r lo) := by
  unfold elementOffset
  split
  · exact plain_emit _
  · split
    · exact plain_emit _
    · exact (plain_emit _).bind fun _ => plain_emit _

theorem plain_addPlace (s : Storage) : Plain (addPlace s) := by
  cases s with
  | global label => exact (plain_emit _).bind fun _ => plain_emit _
  | stack offset =>
    refine (plain_emit _).bind fun _ => ?_
    split
    · exact plain_pure _
    · exact plain_emit _

theorem plain_elementAddress (name : String) (type : ValueType) {index : Lower Unit}
    (h : Plain index) : Plain (elementAddress name type index) := by
  refine (plain_take _).bind fun _ => h.bind fun _ => plain_cursor.bind fun _ =>
    (plain_register _).bind fun r => (plain_release _).bind fun _ => (plain_convert _ _ _).bind
      fun _ => (plain_locate _).bind fun l => ?_
  split
  · exact plain_pure _
  · exact (plain_elementOffset _ _).bind fun _ => (plain_emit _).bind fun _ =>
      (plain_addPlace _).bind fun _ => plain_pure _

theorem plain_elementValue (name : String) (type : ValueType) {index : Lower Unit}
    (h : Plain index) : Plain (elementValue name type index) := by
  refine plain_cursor.bind fun _ => (plain_register _).bind fun r =>
    (plain_elementAddress name type h).bind fun found => ?_
  split
  · exact plain_emit _
  · exact plain_pure _

theorem plain_operands {left right : Lower Unit} (hl : Plain left) (hr : Plain right) :
    Plain (operands left right) :=
  (plain_take _).bind fun _ => hl.bind fun _ => (plain_take _).bind fun _ => hr.bind fun _ =>
    plain_release _

theorem plain_floatOperands (a b : Reg) (s t : ValueType) : Plain (floatOperands a s b t) := by
  cases s <;> cases t <;> exact ⟨fun _ _ => rfl, fun _ _ => rfl, fun _ _ => rfl⟩

theorem plain_apply (op : BinaryOp) (type : ValueType) (d a b : Reg) (s t : ValueType) :
    Plain (apply op type d a b s t) := by
  cases op <;> cases type <;> cases s <;> cases t <;>
    exact ⟨fun _ _ => rfl, fun _ _ => rfl, fun _ _ => rfl⟩

theorem plain_binary (op : BinaryOp) (type s t : ValueType) {left right : Lower Unit}
    (hl : Plain left) (hr : Plain right) : Plain (binary op type s t left right) :=
  plain_cursor.bind fun _ => (plain_operands hl hr).bind fun _ => (plain_register _).bind fun _ =>
    (plain_register _).bind fun _ => (plain_register _).bind fun _ => plain_apply ..

theorem plain_unary (op : UnaryOp) (type t : ValueType) {operand : Lower Unit}
    (h : Plain operand) : Plain (unary op type t operand) := by
  refine plain_cursor.bind fun _ => (plain_take _).bind fun _ => h.bind fun _ =>
    (plain_release _).bind fun _ => (plain_register _).bind fun _ =>
      (plain_register _).bind fun _ => ?_
  split
  · exact plain_emit _
  · exact (plain_emit _).bind fun _ => (plain_emit _).bind fun _ => plain_emit _
  · exact (plain_convert _ _ _).bind fun _ => plain_emit _

theorem plain_passArguments (i : Nat) (targets : List Reg) : Plain (passArguments i targets) := by
  induction targets generalizing i with
  | nil => exact plain_pure _
  | cons r rs ih =>
    exact (plain_register _).bind fun _ => (plain_emit _).bind fun _ => ih (i + 1)

/-- A call jumps to a label and defines none. -/
theorem plain_call (name : String) (count : Nat) {arguments : List ValueType → Lower Unit}
    (h : ∀ params, Plain (arguments params)) : Plain (call name count arguments) := by
  have hroutine : Plain (routine? name) := ⟨fun _ _ => rfl, fun _ _ => rfl, fun _ _ => rfl⟩
  refine hroutine.bind fun found => ?_
  split
  · exact (plain_diagnose _).bind fun _ => plain_pure _
  · split
    · exact (plain_diagnose _).bind fun _ => plain_pure _
    · exact plain_cursor.bind fun _ => (h _).bind fun _ => (plain_passArguments _ _).bind fun _ =>
        (plain_release _).bind fun _ => (plain_emit _).bind fun _ => plain_pure _

theorem plain_callValue (name : String) (count : Nat) {arguments : List ValueType → Lower Unit}
    (h : ∀ params, Plain (arguments params)) : Plain (callValue name count arguments) := by
  refine (plain_call name count h).bind fun found => ?_
  split
  · exact plain_cursor.bind fun _ => (plain_register _).bind fun _ => plain_emit _
  · exact plain_pure _

end Lower

namespace Expr

open Lower

mutual

/-- Code for expressions defines no labels. -/
theorem plain_lower : ∀ e : Expr, Plain e.lower
  | literal .. => by rw [lower]; exact plain_literal ..
  | var .. => by rw [lower]; exact plain_variableValue ..
  | element name _ index => by rw [lower]; exact plain_elementValue _ _ (plain_lower index)
  | call name _ args => by rw [lower]; exact plain_callValue _ _ (plain_lowerArgs args)
  | binary op left right type => by
    rw [lower]; exact plain_binary _ _ _ _ (plain_lower left) (plain_lower right)
  | unary op operand type => by rw [lower]; exact plain_unary _ _ _ (plain_lower operand)

/-- Arguments are expressions and conversions. -/
theorem plain_lowerArgs : ∀ (args : List Expr) (params : List ValueType),
    Plain (lowerArgs args params)
  | [], _ => by rw [lowerArgs]; exact plain_pure _
  | _ :: _, [] => by rw [lowerArgs]; exact plain_pure _
  | arg :: args, param :: params => by
    rw [lowerArgs]
    exact (plain_take _).bind fun _ => (plain_lower arg).bind fun _ => plain_cursor.bind fun _ =>
      (plain_register _).bind fun _ => (plain_convert _ _ _).bind fun _ =>
        plain_lowerArgs args params

end

end Expr

/-! ## Code with labels of its own -/

namespace Label

variable {c c' d d' : Counters} {l : Label}

theorem DrawnBetween.mono (h : l.DrawnBetween c c') (hifs : d.ifs ≤ c.ifs)
    (hloops : d.loops ≤ c.loops) (hifs' : c'.ifs ≤ d'.ifs) (hloops' : c'.loops ≤ d'.loops) :
    l.DrawnBetween d d' := by
  cases l <;> simp only [DrawnBetween] at h ⊢ <;> omega

/-- A number is drawn once. -/
theorem DrawnBetween.disjoint (h : l.DrawnBetween c c') (h' : l.DrawnBetween d d')
    (hifs : c'.ifs ≤ d.ifs) (hloops : c'.loops ≤ d.loops) : False := by
  cases l <;> simp only [DrawnBetween] at h h' <;> omega

end Label

/-- Code lowered with the counters `c` defines labels with numbers that it draws, none of them
twice. -/
structure Lowered.Draws {α : Type} (c : Counters) (r : Lowered α) : Prop where
  ifs : c.ifs ≤ r.counters.ifs
  loops : c.loops ≤ r.counters.loops
  drawn : ∀ l ∈ labelsOf r.lines, l.DrawnBetween c r.counters
  nodup : (labelsOf r.lines).Nodup

namespace Lower

variable {α β : Type}

/-- The code defines labels with numbers that it draws, none of them twice, in any context. -/
def Draws (x : Lower α) : Prop := ∀ ctx c, (x ctx c).Draws c

/-- Plain code draws nothing and defines nothing. -/
theorem Plain.draws {x : Lower α} (h : Plain x) : Draws x := by
  intro ctx c
  refine ⟨Nat.le_of_eq (h.ifs ctx c).symm, Nat.le_of_eq (h.loops ctx c).symm, ?_, ?_⟩
  · intro l hl
    rw [h.labels] at hl
    cases hl
  · rw [h.labels]
    exact List.nodup_nil

/-- One piece of code after the other: the numbers that the second draws come after those of the
first, so their labels are different. -/
theorem Draws.bind {x : Lower α} {f : α → Lower β} (hx : Draws x) (hf : ∀ a, Draws (f a)) :
    Draws (x >>= f) := by
  intro ctx c
  have h₁ := hx ctx c
  have h₂ := hf (x ctx c).value ctx (x ctx c).counters
  refine ⟨Nat.le_trans h₁.ifs h₂.ifs, Nat.le_trans h₁.loops h₂.loops, ?_, ?_⟩
  · intro l hl
    rw [bind_apply, labelsOf_append, List.mem_append] at hl
    rcases hl with hl | hl
    · exact (h₁.drawn l hl).mono (Nat.le_refl _) (Nat.le_refl _) h₂.ifs h₂.loops
    · exact (h₂.drawn l hl).mono h₁.ifs h₁.loops (Nat.le_refl _) (Nat.le_refl _)
  · rw [bind_apply, labelsOf_append, List.nodup_append]
    refine ⟨h₁.nodup, h₂.nodup, ?_⟩
    rintro l hl _ hl' rfl
    exact (h₁.drawn l hl).disjoint (h₂.drawn l hl') (Nat.le_refl _) (Nat.le_refl _)

/-! ### Statements -/

theorem plain_compareUnless (relation : Relation) (left right : Expr) (l : Label) :
    Plain (compareUnless relation left right l) := by
  refine plain_cursor.bind fun _ => (plain_operands left.plain_lower right.plain_lower).bind
    fun _ => (plain_register _).bind fun _ => (plain_register _).bind fun _ => ?_
  split
  · exact plain_emit _
  · exact (plain_floatOperands ..).bind fun _ => (plain_emit _).bind fun _ => plain_emit _

theorem plain_valueUnless (test : Expr) (l : Label) : Plain (valueUnless test l) :=
  (test.plain_lower).bind fun _ => plain_cursor.bind fun _ => (plain_register _).bind
    fun _ => (plain_convert ..).bind fun _ => (plain_emit _).bind fun _ => plain_emit _

/-- A test names its label and does not define it. -/
theorem plain_branchUnless (test : Expr) (l : Label) : Plain (branchUnless test l) := by
  unfold branchUnless
  split
  · exact plain_compareUnless ..
  · exact plain_valueUnless ..

/-- A store is an address and an instruction. -/
theorem plain_store (target : Target) (r : Reg) : Plain (store target r) := by
  cases target with
  | var name type =>
    refine (plain_locate _).bind fun found => ?_
    split
    · exact plain_emit _
    · exact plain_pure _
  | element name type index =>
    refine (plain_elementAddress _ _ index.plain_lower).bind fun found => ?_
    split
    · exact plain_emit _
    · exact plain_pure _

theorem plain_assign (target : Target) (value : Expr) : Plain (assign target value) :=
  value.plain_lower.bind fun _ => plain_cursor.bind fun _ => (plain_register _).bind fun _ =>
    (plain_convert ..).bind fun _ => plain_store ..

theorem plain_callService (service : Service) : Plain (callService service) :=
  (plain_emit _).bind fun _ => plain_emit _

theorem plain_read (target : Target) : Plain (read target) := by
  refine plain_cursor.bind fun _ => (plain_register _).bind fun _ => ?_
  split <;> exact (plain_callService _).bind fun _ => (plain_emit _).bind fun _ => plain_store ..

theorem plain_write (value : Expr) : Plain (write value) := by
  refine value.plain_lower.bind fun _ => plain_cursor.bind fun _ => (plain_register _).bind
    fun r => Plain.bind ?_ fun _ => (plain_emit _).bind fun _ => plain_callService _
  cases value.type <;> exact (plain_emit _).bind fun _ => plain_callService _

theorem plain_callProcedure (name : String) (args : List Expr) : Plain (callProcedure name args) :=
  (plain_call _ _ (Expr.plain_lowerArgs args)).bind fun _ => plain_pure _

/-- The lines of a choice: the test, the first branch, a jump over the second, and the second
between the two labels. -/
theorem lines_branch (test : Expr) (yes no : Lower Unit) (ctx : Context) (c : Counters) :
    ∃ c₁ c₂ c₃ : Counters, (branch test yes no ctx c).lines =
      (branchUnless test (.otherwise c.ifs) ctx c₁).lines ++ ((yes ctx c₂).lines ++
        .instr (.j (.endIf c.ifs)) :: .label (.otherwise c.ifs) ::
          ((no ctx c₃).lines ++ [.label (.endIf c.ifs)])) :=
  ⟨_, _, _, rfl⟩

/-- The labels of a choice: those of its branches and, around the second of them, its own. -/
theorem labels_branch (test : Expr) (yes no : Lower Unit) (ctx : Context) (c : Counters) :
    ∃ c₂ : Counters, c₂.ifs = c.ifs + 1 ∧ c₂.loops = c.loops ∧
      labelsOf (branch test yes no ctx c).lines = labelsOf (yes ctx c₂).lines ++
        .otherwise c.ifs :: (labelsOf (no ctx (yes ctx c₂).counters).lines ++ [.endIf c.ifs]) ∧
      (branch test yes no ctx c).counters = (no ctx (yes ctx c₂).counters).counters := by
  have htest := plain_branchUnless test (.otherwise c.ifs)
  refine ⟨(branchUnless test (.otherwise c.ifs) ctx { c with ifs := c.ifs + 1 }).counters,
    htest.ifs .., htest.loops .., ?_, rfl⟩
  simp only [branch, bind_apply, nextIf_apply, labelsOf_append, htest.labels]
  rfl

/-- A choice draws one number for its two labels and lowers both branches after that, so the labels
inside have greater numbers. -/
theorem draws_branch (test : Expr) {yes no : Lower Unit} (hyes : Draws yes) (hno : Draws no) :
    Draws (branch test yes no) := by
  intro ctx c
  obtain ⟨c₂, hifs, hloops, hlabels, hcount⟩ := labels_branch test yes no ctx c
  have h₁ := hyes ctx c₂
  have h₂ := hno ctx (yes ctx c₂).counters
  have hifs₁ := h₁.ifs
  have hloops₁ := h₁.loops
  have hifs₂ := h₂.ifs
  have hloops₂ := h₂.loops
  refine ⟨by rw [hcount]; omega, by rw [hcount]; omega, ?_, ?_⟩
  · rw [hcount]
    intro l hl
    simp only [hlabels, List.mem_append, List.mem_cons, List.not_mem_nil, or_false] at hl
    obtain hl | rfl | hl | rfl := hl
    · exact (h₁.drawn l hl).mono (by omega) (by omega) hifs₂ hloops₂
    · exact ⟨Nat.le_refl _, by omega⟩
    · exact (h₂.drawn l hl).mono (by omega) (by omega) (Nat.le_refl _) (Nat.le_refl _)
    · exact ⟨Nat.le_refl _, by omega⟩
  · -- the labels of the branches have greater numbers than the two of the choice itself
    have hfresh :
        ∀ l ∈ labelsOf (yes ctx c₂).lines ++ labelsOf (no ctx (yes ctx c₂).counters).lines,
        l ≠ .otherwise c.ifs ∧ l ≠ .endIf c.ifs := by
      intro l hl
      have hdrawn : l.DrawnBetween c₂ (no ctx (yes ctx c₂).counters).counters := by
        rcases List.mem_append.1 hl with hl | hl
        · exact (h₁.drawn l hl).mono (Nat.le_refl _) (Nat.le_refl _) hifs₂ hloops₂
        · exact (h₂.drawn l hl).mono hifs₁ hloops₁ (Nat.le_refl _) (Nat.le_refl _)
      constructor <;> rintro rfl <;> simp only [Label.DrawnBetween] at hdrawn <;> omega
    have hdisjoint : ∀ l ∈ labelsOf (yes ctx c₂).lines,
        l ∉ labelsOf (no ctx (yes ctx c₂).counters).lines := fun l hl hl' =>
      (h₁.drawn l hl).disjoint (h₂.drawn l hl') (Nat.le_refl _) (Nat.le_refl _)
    have := h₁.nodup
    have := h₂.nodup
    rw [hlabels]
    grind

/-- The lines of a loop: the test and the body, and a jump back, between the two labels. -/
theorem lines_loop (test : Expr) (body : Lower Unit) (ctx : Context) (c : Counters) :
    ∃ c₁ c₂ : Counters, (loop test body ctx c).lines = .label (.loop c.loops) ::
      ((branchUnless test (.endLoop c.loops) ctx c₁).lines ++ ((body ctx c₂).lines ++
        .instr (.j (.loop c.loops)) :: [.label (.endLoop c.loops)])) :=
  ⟨_, _, rfl⟩

/-- The labels of a loop: around those of its body its own. -/
theorem labels_loop (test : Expr) (body : Lower Unit) (ctx : Context) (c : Counters) :
    ∃ c₂ : Counters, c₂.ifs = c.ifs ∧ c₂.loops = c.loops + 1 ∧
      labelsOf (loop test body ctx c).lines =
        .loop c.loops :: (labelsOf (body ctx c₂).lines ++ [.endLoop c.loops]) ∧
      (loop test body ctx c).counters = (body ctx c₂).counters := by
  have htest := plain_branchUnless test (.endLoop c.loops)
  refine ⟨(branchUnless test (.endLoop c.loops) ctx { c with loops := c.loops + 1 }).counters,
    htest.ifs .., htest.loops .., ?_, rfl⟩
  simp only [loop, bind_apply, nextLoop_apply, label_apply, labelsOf_append, htest.labels]
  rfl

/-- A loop draws one number for its two labels, and its body draws the following ones. -/
theorem draws_loop (test : Expr) {body : Lower Unit} (hbody : Draws body) :
    Draws (loop test body) := by
  intro ctx c
  obtain ⟨c₂, hifs, hloops, hlabels, hcount⟩ := labels_loop test body ctx c
  have h := hbody ctx c₂
  have hifs' := h.ifs
  have hloops' := h.loops
  refine ⟨by rw [hcount]; omega, by rw [hcount]; omega, ?_, ?_⟩
  · rw [hcount]
    intro l hl
    simp only [hlabels, List.mem_append, List.mem_cons, List.not_mem_nil, or_false] at hl
    obtain rfl | hl | rfl := hl
    · exact ⟨Nat.le_refl _, by omega⟩
    · exact (h.drawn l hl).mono (by omega) (by omega) (Nat.le_refl _) (Nat.le_refl _)
    · exact ⟨Nat.le_refl _, by omega⟩
  · have hfresh : ∀ l ∈ labelsOf (body ctx c₂).lines, l ≠ .loop c.loops ∧ l ≠ .endLoop c.loops := by
      intro l hl
      have hdrawn := h.drawn l hl
      constructor <;> rintro rfl <;> simp only [Label.DrawnBetween] at hdrawn <;> omega
    have := h.nodup
    rw [hlabels]
    grind

end Lower

namespace Statement

open Lower

mutual

/-- The labels of a statement's code are its own. -/
theorem draws_lower : ∀ s : Statement, Draws s.lower
  | assign .. => by rw [lower]; exact (plain_assign ..).draws
  | compound body => by rw [lower]; exact draws_lowerAll body
  | branch test yes no => by rw [lower]; exact draws_branch test (draws_lower yes) (draws_lower no)
  | loop test body => by rw [lower]; exact draws_loop test (draws_lower body)
  | call .. => by rw [lower]; exact (plain_callProcedure ..).draws
  | read .. => by rw [lower]; exact (plain_read ..).draws
  | write .. => by rw [lower]; exact (plain_write ..).draws

theorem draws_lowerAll : ∀ ss : List Statement, Draws (lowerAll ss)
  | [] => by rw [lowerAll]; exact (plain_pure ()).draws
  | s :: ss => by rw [lowerAll]; exact (draws_lower s).bind fun _ => draws_lowerAll ss

end

end Statement

end PascalMips
