import PascalMips.Proofs.Machine.Basic

/-!
# Code in its place

`p.Has pc lines`: the program `p` has `lines` from line `pc` on. `p.Executes lines m m'`: wherever
`p` has `lines`, they take the machine from `m` to `m'` and from their first line to the line after
their last. Straight-line code is put together with `Executes.append`. Code with jumps needs its
labels to be found where it defines them (`Linked`), which is so if it defines none of them twice
and none is defined before it (`linked_of_nodup`).
-/

namespace PascalMips

/-- The label that a line defines. -/
def Line.label? : Line → Option Label
  | .label l => some l
  | _ => none

/-- The labels that lines define, in their order. -/
def labelsOf (lines : List Line) : List Label := lines.filterMap Line.label?

@[simp] theorem labelsOf_append (xs ys : List Line) :
    labelsOf (xs ++ ys) = labelsOf xs ++ labelsOf ys := List.filterMap_append

/-- Code has the labels that its lines define. -/
theorem mem_labelsOf {lines : List Line} {l : Label} : l ∈ labelsOf lines ↔ .label l ∈ lines := by
  unfold labelsOf
  rw [List.mem_filterMap]
  constructor
  · rintro ⟨line, hline, hl⟩
    cases line <;> cases hl
    exact hline
  · intro h
    exact ⟨_, h, rfl⟩

namespace Image

/-- A program loaded at address zero on, one word for each line. -/
def ofLines (lines : List Line) (data : Label → Word) (toWord : Single → Word)
    (showReal : Single → String) (h : 4 * lines.length < 4294967296) : Image where
  lines := lines
  data := data
  address n := BitVec.ofNat 32 (4 * n)
  lineAt? w := some (w.toNat / 4)
  toWord := toWord
  showReal := showReal
  lineAt?_address n hn := by
    rw [BitVec.toNat_ofNat, Nat.mod_eq_of_lt (by omega), Nat.mul_div_cancel_left n (by omega)]

variable {p : Image} {pc : Nat} {lines xs ys : List Line} {m m' m'' : Machine}

/-! ## Placement -/

/-- The program has `lines` from line `pc` on. -/
def Has (p : Image) (pc : Nat) (lines : List Line) : Prop := lines <+: p.lines.drop pc

theorem Has.left (h : p.Has pc (xs ++ ys)) : p.Has pc xs := (List.prefix_append xs ys).trans h

/-- The second of two pieces of code stands where the first ends. -/
theorem Has.right (h : p.Has pc (xs ++ ys)) : p.Has (pc + xs.length) ys := by
  obtain ⟨rest, hrest⟩ := h
  have hdrop : (p.lines.drop pc).drop xs.length = ys ++ rest := by simp [← hrest]
  exact ⟨rest, by rw [← hdrop, List.drop_drop]⟩

theorem Has.line {l : Line} (h : p.Has pc (l :: lines)) : p.lines[pc]? = some l := by
  obtain ⟨rest, hrest⟩ := h
  rw [← Nat.add_zero pc, ← List.getElem?_drop, ← hrest]
  rfl

/-- A line of the code is the line of the program at that distance. -/
theorem Has.getElem? (h : p.Has pc lines) {i : Nat} {l : Line} (hi : lines[i]? = some l) :
    p.lines[pc + i]? = some l := by
  obtain ⟨rest, hrest⟩ := h
  have hlt := (List.getElem?_eq_some_iff.1 hi).1
  rw [← List.getElem?_drop, ← hrest, List.getElem?_append_left hlt, hi]

/-- The lines before a line of the code are those before the code, and the code up to there. -/
theorem Has.take (h : p.Has pc lines) (i : Nat) (hi : i ≤ lines.length) :
    p.lines.take (pc + i) = p.lines.take pc ++ lines.take i := by
  obtain ⟨rest, hrest⟩ := h
  rw [List.take_add, ← hrest, List.take_append_of_le_length hi]

/-! ## Labels -/

/-- A label is found on the line that defines it, if no line before does. -/
theorem find?_eq {l : Label} (hl : p.lines[pc]? = some (.label l))
    (hfresh : .label l ∉ p.lines.take pc) : p.find? l = some pc := by
  have hlt : pc < p.lines.length := (List.getElem?_eq_some_iff.1 hl).1
  unfold find?
  rw [List.findIdx?_eq_some_iff_getElem]
  refine ⟨hlt, ?_, ?_⟩
  · simpa using (List.getElem?_eq_some_iff.1 hl).2
  · intro n hn
    have hmem : p.lines[n] ∈ p.lines.take pc := by
      rw [List.mem_take_iff_getElem]
      exact ⟨n, by omega, rfl⟩
    have : p.lines[n] ≠ .label l := fun h => hfresh (h ▸ hmem)
    simpa using this

/-- The program has `lines` from line `pc` on, and finds each of their labels where they define
it. -/
structure Linked (p : Image) (pc : Nat) (lines : List Line) : Prop where
  has : p.Has pc lines
  find? : ∀ (i : Nat) (l : Label), lines[i]? = some (.label l) → p.find? l = some (pc + i)

theorem Linked.left (h : p.Linked pc (xs ++ ys)) : p.Linked pc xs where
  has := h.has.left
  find? i l hi := by
    have hlt := (List.getElem?_eq_some_iff.1 hi).1
    exact h.find? i l (by rw [List.getElem?_append_left hlt, hi])

/-- The second of two pieces of linked code is linked where it stands. -/
theorem Linked.right (h : p.Linked pc (xs ++ ys)) : p.Linked (pc + xs.length) ys where
  has := h.has.right
  find? i l hi := by
    rw [Nat.add_assoc]
    exact h.find? (xs.length + i) l (by rw [List.getElem?_append_right (by omega)]; simpa using hi)

theorem Linked.tail {l : Line} (h : p.Linked pc (l :: lines)) : p.Linked (pc + 1) lines :=
  Linked.right (show p.Linked pc ([l] ++ lines) from h)

theorem Linked.find?_head {l : Label} (h : p.Linked pc (.label l :: lines)) :
    p.find? l = some pc := h.find? 0 l rfl

/-- Code is linked if its labels are all different and no earlier line defines one of them, since a
label is looked for from the start. -/
theorem linked_of_nodup (h : p.Has pc lines) (hnodup : (labelsOf lines).Nodup)
    (hfresh : ∀ l ∈ labelsOf lines, .label l ∉ p.lines.take pc) : p.Linked pc lines where
  has := h
  find? i l hi := by
    obtain ⟨hlt, hline⟩ := List.getElem?_eq_some_iff.1 hi
    refine find?_eq (h.getElem? hi) ?_
    rw [h.take i (Nat.le_of_lt hlt), List.mem_append, not_or]
    refine ⟨hfresh l (mem_labelsOf.2 (hline ▸ List.getElem_mem hlt)), fun hmem => ?_⟩
    -- the label would be defined a first time before line `i` and a second time there
    have hsplit : lines = lines.take i ++ .label l :: lines.drop (i + 1) := by
      rw [← hline, ← List.drop_eq_getElem_cons hlt, List.take_append_drop]
    rw [hsplit, labelsOf_append, List.nodup_append] at hnodup
    exact hnodup.2.2 l (mem_labelsOf.2 hmem) l (mem_labelsOf.2 List.mem_cons_self) rfl

/-! ## Runs -/

theorem Reaches.trans {a b c : Nat × Machine} (h : p.Reaches a b) (h' : p.Reaches b c) :
    p.Reaches a c := Relation.ReflTransGen.trans h h'

theorem Reaches.of_eq {a : Nat × Machine} {i j : Nat} (h : p.Reaches a (i, m)) (hij : i = j) :
    p.Reaches a (j, m) := hij ▸ h

/-- An instruction on the line, and what becomes of it. -/
theorem reaches_instr {i : Instr} {flow : Flow} {next : Nat} (hi : p.Has pc (.instr i :: lines))
    (he : i.exec p pc m = some (flow, m')) (hf : p.follow pc flow = some next) :
    p.Reaches (pc, m) (next, m') := by
  refine Relation.ReflTransGen.single ?_
  simp [step, hi.line, he, hf]

/-- A label on the line is passed. -/
theorem reaches_label {l : Label} (hl : p.Has pc (.label l :: lines)) :
    p.Reaches (pc, m) (pc + 1, m) := by
  refine Relation.ReflTransGen.single ?_
  simp [step, hl.line]

/-! ## Straight-line code -/

/-- Wherever the program has `lines`, they take `m` to `m'` from first to last. -/
def Executes (p : Image) (lines : List Line) (m m' : Machine) : Prop :=
  ∀ pc, p.Has pc lines → p.Reaches (pc, m) (pc + lines.length, m')

theorem Executes.nil (p : Image) (m : Machine) : p.Executes [] m m :=
  fun _ _ => Relation.ReflTransGen.refl

/-- Straight-line code, one piece after the other. -/
theorem Executes.append (hx : p.Executes xs m m') (hy : p.Executes ys m' m'') :
    p.Executes (xs ++ ys) m m'' := by
  intro pc h
  have h' := hy _ h.right
  rw [Nat.add_assoc, ← List.length_append] at h'
  exact (hx pc h.left).trans h'

/-- One instruction that goes on to the next line. -/
theorem Executes.instr {i : Instr} (h : ∀ pc, i.exec p pc m = some (.next, m')) :
    p.Executes [.instr i] m m' := fun pc hpc => reaches_instr hpc (h pc) rfl

theorem Executes.cons {i : Instr} (h : ∀ pc, i.exec p pc m = some (.next, m'))
    (hx : p.Executes xs m' m'') : p.Executes (.instr i :: xs) m m'' := by
  rw [← List.singleton_append]
  exact (Executes.instr h).append hx

end Image

end PascalMips
