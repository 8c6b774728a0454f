import Mathlib.Logic.Function.Basic
import Mathlib.Logic.Relation
import PascalMips.Lower.Storage
import PascalMips.Proofs.Machine.Calls

/-!
# The machine with tagged words

The words of the machine do not tell integers from singles. Here each word has a tag for what it
represents, and an instruction handles the tags of the words it reads and writes. Of some integers a
tag tells more: which constant was loaded, or from which place an address was computed, so that the
words behind an address are known as those of a place.

`Instr.Fits` says that an instruction reads the tags it can compute with, and `Instr.Steps` what it
does to the tags. A conditional jump goes both ways and an access reaches any word of the place that
its address was computed from, as it does if an index is in range. So the paths of the machine
(`Tagging.Path`) are all paths through the code, whatever the values are. A call is taken as one
step that keeps what a subprogram has to keep and gives a result of the declared type.

`Leads` and `Anchored` reason about paths: code that leads from a state to a condition does so on
every path, if that is also true from each label on (`Tagging.safe_of_leads`).
-/

namespace PascalMips

/-! ## Tags -/

/-- What a word represents. -/
inductive Tag where
  | integer
  | constant (value : Int)
  | address (place : Storage)
  | real
deriving DecidableEq

namespace Tag

def type : Tag → ValueType
  | integer => .integer
  | constant _ => .integer
  | address _ => .integer
  | real => .real

/-- The tag of a word of which nothing else is known. -/
def ofType : ValueType → Tag
  | .integer => integer
  | .real => real

@[simp] theorem type_integer : integer.type = .integer := rfl

@[simp] theorem type_constant (value : Int) : (constant value).type = .integer := rfl

@[simp] theorem type_address (place : Storage) : (address place).type = .integer := rfl

@[simp] theorem type_real : real.type = .real := rfl

@[simp] theorem type_ofType (t : ValueType) : (ofType t).type = t := by cases t <;> rfl

/-- A sum. An address stays one in the words of its place. -/
def add : Tag → Tag → Tag
  | address place, _ => address place
  | _, address place => address place
  | _, _ => integer

/-- A sum with a constant. On the stack it leads to the place at that distance. -/
def shift (n : Int) : Tag → Tag
  | address (.stack offset) => address (.stack (offset + n))
  | address (.global label) => address (.global label)
  | _ => integer

/-- The place that an address tells. -/
def place? : Tag → Option Storage
  | address place => some place
  | _ => none

/-- Whatever is added up, the sum is an integer. -/
@[simp] theorem type_add (a b : Tag) : (a.add b).type = .integer := by cases a <;> cases b <;> rfl

@[simp] theorem type_shift (n : Int) (a : Tag) : (a.shift n).type = .integer := by
  rcases a with _ | _ | ⟨_ | _⟩ | _ <;> rfl

@[simp] theorem shift_zero (place : Storage) : (address place).shift 0 = address place := by
  cases place with
  | global => rfl
  | stack offset => rw [shift, Int.add_zero]

end Tag

/-- The tags of all words: those in registers, and those in memory by the place they belong to and
their number in it. -/
structure Tagging where
  regs : Reg → Tag
  hi : ValueType
  lo : ValueType
  fregs : FReg → ValueType
  memory : Storage → Int → ValueType

namespace Tagging

/-- The tag of the word in a register; `$zero` holds zero. -/
def read (s : Tagging) : Reg → Tag
  | .zero => .constant 0
  | r => s.regs r

def write (s : Tagging) (r : Reg) (t : Tag) : Tagging :=
  { s with regs := Function.update s.regs r t }

def writeFloat (s : Tagging) (f : FReg) (t : ValueType) : Tagging :=
  { s with fregs := Function.update s.fregs f t }

/-- A word of a place gets a tag. -/
def store (s : Tagging) (place : Storage) (number : Int) (t : ValueType) : Tagging :=
  { s with memory := Function.update s.memory place (Function.update (s.memory place) number t) }

/-- The place whose words an access goes to, if the address tells it. -/
def place? (s : Tagging) : Address → Option Storage
  | .label l => some (.global l)
  | .offset n base => ((s.read base).shift n).place?

theorem read_eq {s : Tagging} {r : Reg} (h : r ≠ .zero) : s.read r = s.regs r := by
  cases r with
  | zero => exact absurd rfl h
  | _ => rfl

@[simp] theorem read_write_self {s : Tagging} {r : Reg} (t : Tag) (h : r ≠ .zero) :
    (s.write r t).read r = t := by
  rw [read_eq h]
  exact Function.update_self ..

/-- Writing a register leaves the tags of the others. -/
@[simp] theorem read_write_of_ne {s : Tagging} {r r' : Reg} (t : Tag) (h : r' ≠ r) :
    (s.write r t).read r' = s.read r' := by
  by_cases hzero : r' = .zero
  · rw [hzero]
    rfl
  · rw [read_eq hzero, read_eq hzero]
    exact Function.update_of_ne h ..

@[simp] theorem fregs_write (s : Tagging) (r : Reg) (t : Tag) : (s.write r t).fregs = s.fregs := rfl

/-- The registers of the floating-point unit are apart from the others. -/
@[simp] theorem read_writeFloat (s : Tagging) (f : FReg) (t : ValueType) (r : Reg) :
    (s.writeFloat f t).read r = s.read r := by
  cases r <;> rfl

@[simp] theorem fregs_writeFloat_self (s : Tagging) (f : FReg) (t : ValueType) :
    (s.writeFloat f t).fregs f = t :=
  Function.update_self ..

@[simp] theorem writeFloat_writeFloat (s : Tagging) (f : FReg) (t u : ValueType) :
    (s.writeFloat f t).writeFloat f u = s.writeFloat f u := by
  simp [writeFloat]

@[simp] theorem fregs_writeFloat_of_ne {s : Tagging} {f f' : FReg} (t : ValueType) (h : f' ≠ f) :
    (s.writeFloat f t).fregs f' = s.fregs f' :=
  Function.update_of_ne h ..

@[simp] theorem read_store (s : Tagging) (place : Storage) (number : Int) (t : ValueType)
    (r : Reg) : (s.store place number t).read r = s.read r := by
  cases r <;> rfl

end Tagging

/-- What is declared: the types of places, and under labels the types of the parameters and the
results of subprograms. -/
structure Signature where
  slot : Storage → ValueType → Prop
  routine : Label → List ValueType → Option ValueType → Prop

/-- All words of places have the declared types, and the stack pointer is the address of the
frame. -/
structure Tagging.Sound (sig : Signature) (s : Tagging) : Prop where
  holds : ∀ place type, sig.slot place type → ∀ number, s.memory place number = type
  stack : s.read .sp = .address (.stack 0)

namespace Tagging.Sound

variable {sig : Signature} {s : Tagging}

/-- Tags stay sound if a register other than the stack pointer is written. -/
theorem write (h : s.Sound sig) {r : Reg} (hr : r ≠ .sp) (t : Tag) : (s.write r t).Sound sig :=
  ⟨h.holds, (read_write_of_ne t hr.symm).trans h.stack⟩

theorem writeFloat (h : s.Sound sig) (f : FReg) (t : ValueType) : (s.writeFloat f t).Sound sig :=
  ⟨h.holds, h.stack⟩

/-- A word of the declared type may be stored. -/
theorem store (h : s.Sound sig) {place : Storage} {t : ValueType} (hslot : sig.slot place t)
    (number : Int) : (s.store place number t).Sound sig := by
  refine ⟨fun place' t' hslot' number' => ?_, h.stack⟩
  by_cases hplace : place' = place
  · subst hplace
    have ht : t = t' := by rw [← h.holds place' t hslot 0, h.holds place' t' hslot' 0]
    show Function.update s.memory place' _ place' number' = t'
    rw [Function.update_self]
    by_cases hnumber : number' = number
    · rw [hnumber, Function.update_self, ht]
    · rw [Function.update_of_ne hnumber, h.holds place' t' hslot']
  · show Function.update s.memory place _ place' number' = t'
    rw [Function.update_of_ne hplace, h.holds place' t' hslot']

/-- An address of a place leads to the place, for the stack pointer holds the address of the frame.
-/
theorem place?_address (h : s.Sound sig) (place : Storage) :
    s.place? place.address = some place := by
  cases place with
  | global label => rfl
  | stack offset =>
    show ((s.read .sp).shift offset).place? = some (.stack offset)
    rw [h.stack, Tag.shift, Int.zero_add]
    rfl

end Tagging.Sound

/-! ## Instructions -/

/-- A word that an instruction computes with. -/
inductive Operand where
  | general (reg : Reg)
  | float (reg : FReg)

def Tagging.typeOf (s : Tagging) : Operand → ValueType
  | .general reg => (s.read reg).type
  | .float reg => s.fregs reg

@[simp] theorem Tagging.typeOf_general (s : Tagging) (r : Reg) :
    s.typeOf (.general r) = (s.read r).type := rfl

@[simp] theorem Tagging.typeOf_float (s : Tagging) (f : FReg) :
    s.typeOf (.float f) = s.fregs f := rfl

def Address.operands : Address → List (Operand × ValueType)
  | label _ => []
  | offset _ base => [(.general base, .integer)]

/-- The words that an instruction computes with, and what each has to represent. Words that are only
copied are not among them. -/
def Instr.operands : Instr → List (Operand × ValueType)
  | alu _ _ rs rt => [(.general rs, .integer), (.general rt, .integer)]
  | addi _ rs _ => [(.general rs, .integer)]
  | sll _ rs _ => [(.general rs, .integer)]
  | mult rs rt => [(.general rs, .integer), (.general rt, .integer)]
  | div rs rt => [(.general rs, .integer), (.general rt, .integer)]
  | set _ _ rs rt => [(.general rs, .integer), (.general rt, .integer)]
  | branch _ rs rt _ => [(.general rs, .integer), (.general rt, .integer)]
  | lw _ address => address.operands
  | sw _ address => address.operands
  | jr rs => [(.general rs, .integer)]
  | cvtSingle _ fs => [(.float fs, .integer)]
  | cvtWord _ fs => [(.float fs, .real)]
  | float _ _ fs ft => [(.float fs, .real), (.float ft, .real)]
  | negSingle _ fs => [(.float fs, .real)]
  | compare _ fs ft => [(.float fs, .real), (.float ft, .real)]
  | _ => []

/-- The words that a service of the operating system reads, by its code: it prints an integer, a
single or a character, reads an integer or a single, or ends the program. -/
def serviceOperands? : Int → Option (List (Operand × ValueType))
  | 1 => some [(.general .a0, .integer)]
  | 2 => some [(.float .f12, .real)]
  | 5 => some []
  | 6 => some []
  | 10 => some []
  | 11 => some [(.general .a0, .integer)]
  | _ => none

namespace Tagging

/-- The operands represent what they have to. -/
def Suits (s : Tagging) (operands : List (Operand × ValueType)) : Prop :=
  ∀ operand ∈ operands, s.typeOf operand.1 = operand.2

theorem suits_nil {s : Tagging} : s.Suits [] := List.forall_mem_nil _

theorem suits_one {s : Tagging} {x : Operand} {t : ValueType} (h : s.typeOf x = t) :
    s.Suits [(x, t)] :=
  List.forall_mem_singleton.2 h

theorem suits_two {s : Tagging} {x y : Operand} {t u : ValueType} (hx : s.typeOf x = t)
    (hy : s.typeOf y = u) : s.Suits [(x, t), (y, u)] :=
  List.forall_mem_cons.2 ⟨hx, suits_one hy⟩

/-- A register that holds the address of a place leads to the place. -/
theorem place?_offset_zero {s : Tagging} {base : Reg} {place : Storage}
    (h : s.read base = .address place) : s.place? (.offset 0 base) = some place := by
  show ((s.read base).shift 0).place? = some place
  rw [h, Tag.shift_zero]
  rfl

/-- What tells a place is an integer. -/
theorem suits_address {s : Tagging} {a : Address} {place : Storage} (h : s.place? a = some place) :
    s.Suits a.operands := by
  cases a with
  | label => exact suits_nil
  | offset n base =>
    refine suits_one ?_
    show (s.read base).type = .integer
    change ((s.read base).shift n).place? = some place at h
    cases hread : s.read base with
    | real =>
      rw [hread] at h
      cases h
    | _ => rfl

/-- The argument registers hold words of the types of the parameters. -/
def Passes (s : Tagging) (params : List ValueType) : Prop :=
  ∀ (k : Fin 4) (type : ValueType), params[k.val]? = some type → (s.read (.a k)).type = type

end Tagging

namespace Instr

/-- What an instruction needs beside its operands: an access needs a declared place, and a store a
word of the declared type; a call needs a declared subprogram and arguments of the types of its
parameters; and a service needs the words that it reads. -/
def Needs (sig : Signature) (s : Tagging) : Instr → Prop
  | lw _ address => ∃ place type, s.place? address = some place ∧ sig.slot place type
  | sw rs address => ∃ place, s.place? address = some place ∧ sig.slot place (s.read rs).type
  | jal label => ∃ params result, sig.routine label params result ∧ s.Passes params
  | syscall => ∃ code operands, s.read .v0 = .constant code ∧
      serviceOperands? code = some operands ∧ s.Suits operands
  | _ => True

/-- The instruction reads what it can compute with. -/
def Fits (sig : Signature) (s : Tagging) (i : Instr) : Prop := s.Suits i.operands ∧ i.Needs sig s

end Instr

/-- What a call of the subprogram under `label` keeps and gives: the registers for values and the
stack pointer are kept, the words of places keep their declared types, and a result has the declared
type. -/
structure Signature.Calls (sig : Signature) (label : Label) (s s' : Tagging) : Prop where
  pool : ∀ i, s'.read (.s i) = s.read (.s i)
  sp : s'.read .sp = s.read .sp
  holds : ∀ place type, sig.slot place type → (∀ number, s.memory place number = type) →
    ∀ number, s'.memory place number = type
  result : ∀ params type, sig.routine label params (some type) → (s'.read .v0).type = type

/-- The tags after a service, by its code. -/
def Tagging.serve (s : Tagging) : Int → Tagging
  | 5 => s.write .v0 .integer
  | 6 => s.writeFloat .f0 .real
  | _ => s

/-- The tag of the result of an operation. -/
def AluOp.tag : AluOp → Tag → Tag → Tag
  | add => Tag.add
  | _ => fun _ _ => .integer

@[simp] theorem AluOp.type_tag (op : AluOp) (a b : Tag) : (op.tag a b).type = .integer := by
  cases op with
  | add => exact Tag.type_add a b
  | _ => rfl

/-- What an instruction does to tags, wherever it goes on. -/
inductive Instr.Steps (sig : Signature) : Instr → Tagging → Tagging → Prop
  | li {s : Tagging} {rd : Reg} {value : Int} :
      Steps sig (.li rd value) s (s.write rd (.constant value))
  | liBits {s : Tagging} {rd : Reg} {value : Single} :
      Steps sig (.liBits rd value) s (s.write rd .real)
  | la {s : Tagging} {rd : Reg} {label : Label} :
      Steps sig (.la rd label) s (s.write rd (.address (.global label)))
  | lw {s : Tagging} {rd : Reg} {address : Address} {place : Storage}
      (h : s.place? address = some place) (number : Int) :
      Steps sig (.lw rd address) s (s.write rd (.ofType (s.memory place number)))
  | sw {s : Tagging} {rs : Reg} {address : Address} {place : Storage}
      (h : s.place? address = some place) (number : Int) :
      Steps sig (.sw rs address) s (s.store place number (s.read rs).type)
  | move {s : Tagging} {rd rs : Reg} : Steps sig (.move rd rs) s (s.write rd (s.read rs))
  | alu {s : Tagging} {op : AluOp} {rd rs rt : Reg} :
      Steps sig (.alu op rd rs rt) s (s.write rd (op.tag (s.read rs) (s.read rt)))
  | addi {s : Tagging} {rd rs : Reg} {value : Int} :
      Steps sig (.addi rd rs value) s (s.write rd ((s.read rs).shift value))
  | sll {s : Tagging} {rd rs : Reg} {amount : Nat} :
      Steps sig (.sll rd rs amount) s (s.write rd .integer)
  | mult {s : Tagging} {rs rt : Reg} :
      Steps sig (.mult rs rt) s { s with hi := .integer, lo := .integer }
  | div {s : Tagging} {rs rt : Reg} :
      Steps sig (.div rs rt) s { s with hi := .integer, lo := .integer }
  | mflo {s : Tagging} {rd : Reg} : Steps sig (.mflo rd) s (s.write rd (.ofType s.lo))
  | mfhi {s : Tagging} {rd : Reg} : Steps sig (.mfhi rd) s (s.write rd (.ofType s.hi))
  | set {s : Tagging} {relation : Relation} {rd rs rt : Reg} :
      Steps sig (.set relation rd rs rt) s (s.write rd .integer)
  | branch {s : Tagging} {relation : Relation} {rs rt : Reg} {label : Label} :
      Steps sig (.branch relation rs rt label) s s
  | mtc1 {s : Tagging} {rs : Reg} {fd : FReg} :
      Steps sig (.mtc1 rs fd) s (s.writeFloat fd (s.read rs).type)
  | mfc1 {s : Tagging} {rd : Reg} {fs : FReg} :
      Steps sig (.mfc1 rd fs) s (s.write rd (.ofType (s.fregs fs)))
  | cvtSingle {s : Tagging} {fd fs : FReg} :
      Steps sig (.cvtSingle fd fs) s (s.writeFloat fd .real)
  | cvtWord {s : Tagging} {fd fs : FReg} :
      Steps sig (.cvtWord fd fs) s (s.writeFloat fd .integer)
  | float {s : Tagging} {op : FloatOp} {fd fs ft : FReg} :
      Steps sig (.float op fd fs ft) s (s.writeFloat fd .real)
  | negSingle {s : Tagging} {fd fs : FReg} :
      Steps sig (.negSingle fd fs) s (s.writeFloat fd .real)
  | compare {s : Tagging} {test : FloatTest} {fs ft : FReg} : Steps sig (.compare test fs ft) s s
  | moveIf_taken {s : Tagging} {flag : Bool} {rd rs : Reg} :
      Steps sig (.moveIf flag rd rs) s (s.write rd (s.read rs))
  | moveIf_passed {s : Tagging} {flag : Bool} {rd rs : Reg} : Steps sig (.moveIf flag rd rs) s s
  | branchIf {s : Tagging} {flag : Bool} {label : Label} : Steps sig (.branchIf flag label) s s
  | j {s : Tagging} {label : Label} : Steps sig (.j label) s s
  | jal {s s' : Tagging} {label : Label} (h : sig.Calls label s s') : Steps sig (.jal label) s s'
  | jr {s : Tagging} {rs : Reg} : Steps sig (.jr rs) s s
  | syscall {s : Tagging} {code : Int} (h : s.read .v0 = .constant code) :
      Steps sig .syscall s (s.serve code)

/-! ## Paths -/

/-- Whether the next line may follow. A call comes back to it. -/
def Instr.falls : Instr → Bool
  | j _ => false
  | jr _ => false
  | _ => true

namespace Tagging

/-- From a line and tags to a next line and tags. -/
inductive Step (sig : Signature) (lines : List Line) : Nat × Tagging → Nat × Tagging → Prop
  | next {pc : Nat} {i : Instr} {s s' : Tagging} (hline : lines[pc]? = some (.instr i))
      (hfalls : i.falls = true) (hsteps : i.Steps sig s s') : Step sig lines (pc, s) (pc + 1, s')
  | jump {pc pc' : Nat} {i : Instr} {label : Label} {s s' : Tagging}
      (hline : lines[pc]? = some (.instr i)) (hjump : i.jump? = some label)
      (hlabel : lines[pc']? = some (.label label)) (hsteps : i.Steps sig s s') :
      Step sig lines (pc, s) (pc', s')
  | pass {pc : Nat} {line : Line} {s : Tagging} (hline : lines[pc]? = some line)
      (hpass : ∀ i, line ≠ .instr i) : Step sig lines (pc, s) (pc + 1, s)

/-- The paths through the lines. -/
def Path (sig : Signature) (lines : List Line) : Nat × Tagging → Nat × Tagging → Prop :=
  Relation.ReflTransGen (Step sig lines)

/-- On every path through the lines from the first on, all that is read fits and the tags are sound,
and at the end `Q` holds. -/
def Safe (s : Tagging) (sig : Signature) (lines : List Line) (Q : Tagging → Prop) : Prop :=
  ∀ pc s', Path sig lines (0, s) (pc, s') →
    (∀ i, lines[pc]? = some (.instr i) → i.Fits sig s') ∧ s'.Sound sig ∧
      (pc = lines.length → Q s')

end Tagging

theorem Tagging.Safe.mono {sig : Signature} {lines : List Line} {Q R : Tagging → Prop} {s : Tagging}
    (h : s.Safe sig lines Q) (hQR : ∀ s, Q s → R s) : s.Safe sig lines R :=
  fun pc s' hpath => ⟨(h pc s' hpath).1, (h pc s' hpath).2.1,
    fun hend => hQR s' ((h pc s' hpath).2.2 hend)⟩

/-! ## Reasoning about paths -/

/-- From `s` on, all that the lines read fits up to the next jump or label or the end; there the
tags are sound, and at the end `Q` holds. -/
def Leads (sig : Signature) (Q : Tagging → Prop) : List Line → Tagging → Prop
  | [], s => Q s
  | .instr i :: rest, s => s.Sound sig ∧ i.Fits sig s ∧ ∀ s', i.Steps sig s s' →
      (i.jump?.isSome → s'.Sound sig) ∧ (i.falls = true → Leads sig Q rest s')
  | .label _ :: _, s => s.Sound sig
  | _ :: rest, s => s.Sound sig ∧ Leads sig Q rest s

/-- From every label in the lines on, sound tags lead to `Q`. -/
def Anchored (sig : Signature) (Q : Tagging → Prop) (lines : List Line) : Prop :=
  ∀ before label after, lines = before ++ .label label :: after →
    ∀ s : Tagging, s.Sound sig → Leads sig Q after s

section

variable {sig : Signature} {Q R : Tagging → Prop} {s : Tagging} {lines xs ys : List Line}

/-- Through two pieces of code, each path goes to the end of the first and on from there. -/
theorem leads_append {s : Tagging} :
    Leads sig Q (xs ++ ys) s ↔ Leads sig (Leads sig Q ys) xs s := by
  induction xs generalizing s with
  | nil => exact Iff.rfl
  | cons line rest ih =>
    cases line with
    | instr i =>
      show _ ∧ _ ∧ (∀ s', _ → _ ∧ (_ → Leads sig Q (rest ++ ys) s')) ↔ _
      simp only [ih]
      exact Iff.rfl
    | label l => exact Iff.rfl
    | _ => exact and_congr_right fun _ => ih

/-- Code leads to whatever follows from what it leads to. -/
theorem Leads.mono (hQR : ∀ s, Q s → R s) {s : Tagging} (h : Leads sig Q lines s) :
    Leads sig R lines s := by
  induction lines generalizing s with
  | nil => exact hQR s h
  | cons line rest ih =>
    cases line with
    | instr i =>
      obtain ⟨hsound, hfits, hsteps⟩ := h
      refine ⟨hsound, hfits, fun s' hs' => ⟨(hsteps s' hs').1, fun hfalls => ?_⟩⟩
      exact ih ((hsteps s' hs').2 hfalls)
    | label l => exact h
    | _ => exact ⟨h.1, ih h.2⟩

/-- Where code leads to sound tags, all its tags are sound. -/
theorem Leads.sound (hQ : ∀ s, Q s → s.Sound sig) (h : Leads sig Q lines s) : s.Sound sig := by
  cases lines with
  | nil => exact hQ s h
  | cons line rest =>
    cases line with
    | label l => exact h
    | _ => exact h.1

theorem Anchored.mono (h : Anchored sig Q lines) (hQR : ∀ s, Q s → R s) : Anchored sig R lines :=
  fun before label after heq s hs => (h before label after heq s hs).mono hQR

theorem anchored_of_labelsOf_eq_nil (h : labelsOf lines = []) : Anchored sig Q lines := by
  rintro before label after rfl
  rw [labelsOf_append] at h
  exact absurd (List.append_eq_nil_iff.1 h).2 (List.cons_ne_nil _ _)

/-- Labels in either of two pieces of code are safe to jump to if they are so in both. -/
theorem anchored_append (hxs : Anchored sig (Leads sig Q ys) xs) (hys : Anchored sig Q ys) :
    Anchored sig Q (xs ++ ys) := by
  intro before label after heq s hs
  rcases List.append_eq_append_iff.1 heq with ⟨between, hbefore, hys'⟩ | ⟨between, hxs', hafter⟩
  · exact hys between label after hys' s hs
  · cases between with
    | nil => exact hys [] label after hafter.symm s hs
    | cons line rest =>
      obtain ⟨rfl, rfl⟩ := List.cons.inj hafter
      exact leads_append.2 (hxs before label rest hxs' s hs)

/-- A label is safe to jump to if the code behind it leads on from all sound tags. -/
theorem anchored_label_cons {label : Label} (hlines : Anchored sig Q lines)
    (h : ∀ s : Tagging, s.Sound sig → Leads sig Q lines s) :
    Anchored sig Q (.label label :: lines) := by
  intro before l after heq s hs
  cases before with
  | nil =>
    cases heq
    exact h s hs
  | cons line rest => exact hlines rest l after (List.cons.inj heq).2 s hs

theorem drop_of_getElem? {pc : Nat} {line : Line} (h : lines[pc]? = some line) :
    lines.drop pc = line :: lines.drop (pc + 1) := by
  obtain ⟨hlt, rfl⟩ := List.getElem?_eq_some_iff.1 h
  exact List.drop_eq_getElem_cons hlt

/-- Along a step of a path the lines still to come lead on to `Q`. -/
theorem Leads.step (hanchored : Anchored sig Q lines) {pc pc' : Nat} {s' : Tagging}
    (h : Leads sig Q (lines.drop pc) s) (hstep : Tagging.Step sig lines (pc, s) (pc', s')) :
    Leads sig Q (lines.drop pc') s' := by
  cases hstep with
  | next hline hfalls hsteps =>
    rw [drop_of_getElem? hline] at h
    exact (h.2.2 s' hsteps).2 hfalls
  | jump hline hjump hlabel hsteps =>
    rw [drop_of_getElem? hline] at h
    rw [drop_of_getElem? hlabel]
    exact (h.2.2 s' hsteps).1 (Option.isSome_iff_exists.2 ⟨_, hjump⟩)
  | @pass _ line _ hline hpass =>
    rw [drop_of_getElem? hline] at h
    cases line with
    | instr i => exact absurd rfl (hpass i)
    | label l =>
      refine hanchored (lines.take pc) l _ ?_ s h
      rw [← drop_of_getElem? hline, List.take_append_drop]
    | _ => exact h.2

/-- Code is safe if it leads to `Q` from its start and, whatever sound tags there are, from each of
its labels. -/
theorem Tagging.safe_of_leads (hQ : ∀ s, Q s → s.Sound sig) (hanchored : Anchored sig Q lines)
    (h : Leads sig Q lines s) : s.Safe sig lines Q := by
  intro pc s' hpath
  have hleads : Leads sig Q (lines.drop pc) s' := by
    -- the state is a pair, whose parts the induction has to take apart
    suffices hall : ∀ a b, Path sig lines a b → Leads sig Q (lines.drop a.1) a.2 →
        Leads sig Q (lines.drop b.1) b.2 from hall (0, s) (pc, s') hpath h
    intro a b hab ha
    induction hab with
    | refl => exact ha
    | tail _ hstep ih => exact ih.step hanchored hstep
  refine ⟨fun i hi => ?_, hleads.sound hQ, fun hend => ?_⟩
  · rw [drop_of_getElem? hi] at hleads
    exact hleads.2.1
  · rw [hend, List.drop_length] at hleads
    exact hleads

end

end PascalMips
