import PascalMips.Proofs.Program.Names

/-!
# Labels are unique and closed

No label is defined twice in a generated program, not even two with the same text: the labels of
variables and routines are all different, and the labels inside the parts have numbers that are
drawn once. Every label that an instruction names is defined, jumps stay in their part, and every
part ends in the exit service or in a return; so control leaves a part by calls and returns alone
(`Program.labelsSound_of_parse`).
-/

namespace PascalMips

/-! ## Labels that are defined and named -/

/-- The label that a line defines, in code or in data. -/
def Line.defined? : Line → Option Label
  | label l => some l
  | word l => some l
  | words l _ => some l
  | _ => none

/-- The labels that lines define, in their order. -/
def definedIn (lines : List Line) : List Label := lines.filterMap Line.defined?

@[simp] theorem definedIn_append (xs ys : List Line) :
    definedIn (xs ++ ys) = definedIn xs ++ definedIn ys := List.filterMap_append

/-- The label that an instruction names. -/
def Instr.label? : Instr → Option Label
  | la _ l => some l
  | lw _ (.label l) => some l
  | sw _ (.label l) => some l
  | jal l => some l
  | i => i.jump?

/-- The instruction has to do with data: if it names a label, then one of data. -/
def Instr.IsData : Instr → Prop
  | la _ _ => True
  | lw _ _ => True
  | sw _ _ => True
  | _ => False

theorem Instr.IsData.jump?_eq_none {i : Instr} (h : i.IsData) : i.jump? = none := by
  cases i with
  | la | lw | sw => rfl
  | _ => cases h

theorem Instr.label?_of_jump? {i : Instr} {l : Label} (h : i.jump? = some l) :
    i.label? = some l := by
  cases i <;> first | exact h | cases h

/-- Plain instructions name no label. -/
theorem Instr.IsPlain.label?_eq_none {i : Instr} (h : i.IsPlain) : i.label? = none := by
  cases i with
  | lw rd address =>
    cases address with
    | label l => cases h
    | offset k base => rfl
  | la => cases h
  | sw => cases h
  | branch => cases h
  | branchIf => cases h
  | j => cases h
  | jal => cases h
  | _ => rfl

/-- The lines end where control does not go on to the next line: in the exit service or in a
return. -/
inductive Ends : List Line → Prop
  | exit (first : List Line) : Ends (first ++ [.instr (.li .v0 10), .instr .syscall])
  | return (first : List Line) : Ends (first ++ [.instr (.jr .ra)])

/-- The last line of a part is a service or a return. -/
theorem Ends.getLast? {lines : List Line} (h : Ends lines) :
    lines.getLast? = some (.instr .syscall) ∨ lines.getLast? = some (.instr (.jr .ra)) := by
  cases h with
  | exit first => exact .inl (List.getLast?_append_of_ne_nil _ (List.cons_ne_nil _ _))
  | «return» first => exact .inr List.getLast?_concat

/-! ## Labels in chunks -/

section Chunks

variable {ctx : Context} {uses : List Use} {targets : Label → Prop} {lines : List Line}

/-- Computing the address of an element names at most the label of the array. -/
theorem of_mem_addressInstrs {index : Reg} {lo : Int} {place : Storage} {i : Instr} {l : Label}
    (h : i ∈ addressInstrs index lo place) (hl : i.label? = some l) :
    i = .la .t8 l ∧ place = .global l := by
  rcases List.mem_append.1 h with h | h
  · unfold offsetInstrs at h
    split at h
    · cases List.mem_singleton.1 h
      cases hl
    · split at h
      · cases List.mem_singleton.1 h
        cases hl
      · simp only [List.mem_cons, List.not_mem_nil, or_false] at h
        rcases h with rfl | rfl <;> cases hl
  · rcases List.mem_cons.1 h with rfl | h
    · cases hl
    · cases place with
      | global label =>
        simp only [placeInstrs, List.mem_cons, List.not_mem_nil, or_false] at h
        rcases h with rfl | rfl
        · cases hl
          exact ⟨rfl, rfl⟩
        · cases hl
      | stack offset =>
        rcases List.mem_cons.1 h with rfl | h
        · cases hl
        · split at h
          · cases h
          · cases List.mem_singleton.1 h
            cases hl

/-- What a label that is named in a chunk stands for: a target of jumps, a global variable, or a
subprogram that is called. -/
theorem Chunk.label_cases (h : Chunk ctx uses targets lines) {i : Instr} {l : Label}
    (hi : .instr i ∈ lines) (hl : i.label? = some l) :
    (i.jump? = some l ∧ targets l) ∨
      (i.IsData ∧ ∃ x bounds?, ctx.place? x = some (.global l, bounds?)) ∨
      (i = .jal l ∧ ∃ x count params, .call x count ∈ uses ∧
        ctx.callee? x count = some (l, params)) := by
  cases h with
  | mark d => cases List.mem_singleton.1 hi
  | label l => cases List.mem_singleton.1 hi
  | plain h =>
    cases List.mem_singleton.1 hi
    rw [h.label?_eq_none] at hl
    cases hl
  | jump h htarget =>
    cases List.mem_singleton.1 hi
    cases (Instr.label?_of_jump? h).symm.trans hl
    exact .inl ⟨h, htarget⟩
  | @load x place bounds? n hplace =>
    cases List.mem_singleton.1 hi
    cases place with
    | global label =>
      cases hl
      exact .inr (.inl ⟨trivial, x, bounds?, hplace⟩)
    | stack offset => cases hl
  | @store x place bounds? rs hplace =>
    cases List.mem_singleton.1 hi
    cases place with
    | global label =>
      cases hl
      exact .inr (.inl ⟨trivial, x, bounds?, hplace⟩)
    | stack offset => cases hl
  | @element x place bounds? touch n huse hplace htouch =>
    obtain ⟨i', hi', heq⟩ := List.mem_map.1 hi
    cases heq
    rcases List.mem_append.1 hi' with hi' | hi'
    · obtain ⟨rfl, rfl⟩ := of_mem_addressInstrs hi' hl
      exact .inr (.inl ⟨trivial, x, bounds?, hplace⟩)
    · cases List.mem_singleton.1 hi'
      cases htouch <;> cases hl
  | @call x count label params huse hcallee =>
    cases List.mem_singleton.1 hi
    cases hl
    exact .inr (.inr ⟨rfl, x, count, params, huse, hcallee⟩)

/-- Code defines labels on lines of their own. -/
theorem Chunked.definedIn_eq (h : Chunked ctx uses targets lines) :
    definedIn lines = labelsOf lines := by
  obtain ⟨chunks, hchunks, rfl⟩ := h
  refine List.filterMap_congr fun line hline => ?_
  obtain ⟨xs, hxs, hline⟩ := List.mem_flatten.1 hline
  cases hchunks xs hxs with
  | element n huse hplace hi =>
    obtain ⟨i, -, rfl⟩ := List.mem_map.1 hline
    rfl
  | _ =>
    rw [List.mem_singleton.1 hline]
    rfl

/-- A label is named by a jump, by an access to a variable of the program, or by a call. -/
theorem Chunked.label_cases (h : Chunked ctx uses targets lines) {i : Instr} {l : Label}
    (hi : .instr i ∈ lines) (hl : i.label? = some l) :
    (i.jump? = some l ∧ targets l) ∨
      (i.IsData ∧ ∃ x bounds?, ctx.place? x = some (.global l, bounds?)) ∨
      (i = .jal l ∧ ∃ x count params, .call x count ∈ uses ∧
        ctx.callee? x count = some (l, params)) := by
  obtain ⟨chunks, hchunks, rfl⟩ := h
  obtain ⟨xs, hxs, hi⟩ := List.mem_flatten.1 hi
  exact (hchunks xs hxs).label_cases hi hl

end Chunks

/-! ## Labels in parts -/

/-- Registers are saved and restored relative to the stack pointer. -/
theorem mem_savedLines {action : Reg → Address → Instr} {index : Nat} {regs : List Reg}
    {line : Line} (h : line ∈ Lower.savedLines action index regs) :
    ∃ reg offset, line = .instr (action reg (.offset offset .sp)) := by
  induction regs generalizing index with
  | nil => cases h
  | cons reg regs ih =>
    rcases List.mem_cons.1 h with rfl | h
    · exact ⟨_, _, rfl⟩
    · exact ih h

theorem mem_moveLines {amount : Int} {line : Line} (h : line ∈ Lower.moveLines amount) :
    line = .instr (.addi .sp .sp amount) := by
  unfold Lower.moveLines at h
  split at h
  · cases h
  · exact List.mem_singleton.1 h

/-- The line neither defines nor names a label. -/
def Line.IsQuiet (line : Line) : Prop :=
  line.defined? = none ∧ ∀ i, line = .instr i → i.label? = none

theorem isQuiet_instr {i : Instr} (h : i.label? = none) : (Line.instr i).IsQuiet :=
  ⟨rfl, fun _ heq => Line.instr.inj heq ▸ h⟩

theorem isQuiet_mark (d : Diagnostic) : (Line.mark d).IsQuiet := ⟨rfl, fun _ heq => by cases heq⟩

theorem definedIn_quiet {lines : List Line} (h : ∀ line ∈ lines, line.IsQuiet) :
    definedIn lines = [] :=
  List.filterMap_eq_nil_iff.2 fun line hline => (h line hline).1

/-- What is done on entry neither defines nor names a label. -/
theorem isQuiet_prologueLines {f : Frame} {line : Line} (h : line ∈ Lower.prologueLines f) :
    line.IsQuiet := by
  rcases List.mem_append.1 h with h | h
  · rw [mem_moveLines h]
    exact isQuiet_instr rfl
  · rcases List.mem_append.1 h with h | h
    · obtain ⟨reg, offset, rfl⟩ := mem_savedLines h
      exact isQuiet_instr rfl
    · rw [mem_moveLines h]
      exact isQuiet_instr rfl

/-- Nor what is done on return. -/
theorem isQuiet_epilogueLines {f : Frame} {line : Line} (h : line ∈ Lower.epilogueLines f) :
    line.IsQuiet := by
  rcases List.mem_append.1 h with h | h
  · rw [mem_moveLines h]
    exact isQuiet_instr rfl
  · rcases List.mem_append.1 h with h | h
    · obtain ⟨reg, offset, rfl⟩ := mem_savedLines h
      exact isQuiet_instr rfl
    · rcases List.mem_append.1 h with h | h
      · rw [mem_moveLines h]
        exact isQuiet_instr rfl
      · rw [List.mem_singleton.1 h]
        exact isQuiet_instr rfl

/-- Nor storing the parameters, including those for which there is a mark only. -/
theorem isQuiet_storeLines {name : String} {offsets : List Nat} {regs : List Reg} {line : Line}
    (h : line ∈ Lower.storeLines name offsets regs) : line.IsQuiet := by
  induction offsets generalizing regs with
  | nil => cases h
  | cons offset offsets ih =>
    cases regs with
    | nil =>
      rcases List.mem_cons.1 h with rfl | h
      · exact isQuiet_mark _
      · exact ih h
    | cons reg regs =>
      rcases List.mem_cons.1 h with rfl | h
      · exact isQuiet_instr rfl
      · exact ih h

theorem isQuiet_resultLines {result : Option Nat} {line : Line}
    (h : line ∈ Lower.resultLines result) : line.IsQuiet := by
  cases result with
  | none => cases h
  | some offset =>
    rw [List.mem_singleton.1 h]
    exact isQuiet_instr rfl

/-- Around its body a part defines its start label and no other, names no label, and ends. -/
structure Part.Framed (part : Part) : Prop where
  start : .label part.start ∈ part.head
  head : definedIn part.head = [part.start]
  quiet : ∀ i, .instr i ∈ part.head ++ part.tail → i.label? = none
  tail : definedIn part.tail = []
  ends : Ends part.lines

namespace Part.Framed

variable {part : Part}

/-- The labels of a part are its start and those of its body. -/
theorem definedIn_lines (h : part.Framed) :
    definedIn part.lines = part.start :: definedIn part.body := by
  rw [Part.lines, definedIn_append, definedIn_append, h.head, h.tail, List.append_nil]
  rfl

/-- In a part, only the body names labels. -/
theorem mem_body (h : part.Framed) {i : Instr} {l : Label} (hi : .instr i ∈ part.lines)
    (hl : i.label? = some l) : .instr i ∈ part.body := by
  have hnone (hmem : .instr i ∈ part.head ++ part.tail) : False := by
    rw [h.quiet i hmem] at hl
    cases hl
  rcases List.mem_append.1 hi with hi | hi
  · exact (hnone (List.mem_append_left _ hi)).elim
  · rcases List.mem_append.1 hi with hi | hi
    · exact hi
    · exact (hnone (List.mem_append_right _ hi)).elim

end Part.Framed

/-- A routine is framed: with its prologue and epilogue, or with a return alone if its frame cannot
be laid out. -/
theorem Routine.framed_part (r : Routine) (c : Counters) : (r.part c).Framed := by
  unfold part
  cases r.layout with
  | ok f =>
    refine ⟨List.mem_cons_self, ?_, fun i hi => ?_,
      definedIn_quiet fun _ => isQuiet_epilogueLines, ?_⟩
    · show r.start :: definedIn (Lower.prologueLines f) = _
      rw [definedIn_quiet fun _ => isQuiet_prologueLines]
    · rcases List.mem_append.1 hi with hi | hi
      · rcases List.mem_cons.1 hi with heq | hi
        · cases heq
        · exact (isQuiet_prologueLines hi).2 i rfl
      · exact (isQuiet_epilogueLines hi).2 i rfl
    · simp only [Part.lines, Lower.epilogueLines, ← List.append_assoc]
      exact .return _
  | error f =>
    refine ⟨List.mem_cons_of_mem _ List.mem_cons_self, rfl, fun i hi => ?_, rfl,
      .return [_, _]⟩
    simp only [List.mem_append, List.mem_cons, List.not_mem_nil, or_false, reduceCtorEq,
      false_or] at hi
    cases hi
    rfl

namespace Program

variable {source : String} {program p : Program} {symbols : SymbolTable} {part : Part}

theorem framed_mainPart (p : Program) (symbols : SymbolTable) : (p.mainPart symbols).Framed := by
  refine ⟨List.mem_of_getElem? (i := 2) rfl, rfl, fun i hi => ?_, rfl, ?_⟩
  · simp only [mainPart, instrLines, List.map_cons, List.map_nil, List.mem_append, List.mem_cons,
      List.not_mem_nil, or_false, reduceCtorEq, false_or, Line.instr.injEq] at hi
    rcases hi with rfl | rfl <;> rfl
  · rw [Part.lines, ← List.append_assoc]
    exact .exit _

theorem framed_of_mem_parts (h : part ∈ p.parts symbols) : part.Framed := by
  rcases of_mem_parts h with rfl | ⟨r, -, c, rfl⟩
  · exact framed_mainPart p symbols
  · exact r.framed_part c

end Program

/-! ## No label is defined twice -/

/-- The labels of code that is lowered on the way from `c` to `c'`: some start labels, and labels
with numbers drawn on this way, none of them twice. -/
structure DrawnFrom (starts : List Label) (c c' : Counters) (labels : List Label) : Prop where
  ifs : c.ifs ≤ c'.ifs
  loops : c.loops ≤ c'.loops
  cases : ∀ l ∈ labels, l ∈ starts ∨ l.DrawnBetween c c'
  nodup : labels.Nodup

/-- No number was drawn for the label. -/
def Label.IsStart (l : Label) : Prop := ∀ c c', ¬l.DrawnBetween c c'

theorem Label.isStart_ofRoutine (path : List String) : (ofRoutine path).IsStart := fun _ _ => id

theorem Label.DrawnBetween.isMarked {c c' : Counters} {l : Label} (h : l.DrawnBetween c c') :
    l.IsMarked := by
  cases l with
  | named => cases h
  | _ => trivial

namespace DrawnFrom

variable {starts starts' labels labels' : List Label} {c c' c'' : Counters}

/-- Labels drawn on one way and on the next are drawn on the whole. They are different, for numbers
grow along the way and the start labels are disjoint. -/
theorem append (h : DrawnFrom starts c c' labels) (h' : DrawnFrom starts' c' c'' labels')
    (hstarts : ∀ l ∈ starts ++ starts', l.IsStart) (hdisjoint : List.Disjoint starts starts') :
    DrawnFrom (starts ++ starts') c c'' (labels ++ labels') := by
  obtain ⟨hstart, hstart'⟩ := List.forall_mem_append.1 hstarts
  refine ⟨h.ifs.trans h'.ifs, h.loops.trans h'.loops, fun l hl => ?_,
    h.nodup.append h'.nodup fun l hl hl' => ?_⟩
  · rcases List.mem_append.1 hl with hl | hl
    · refine (h.cases l hl).imp (List.mem_append_left _) fun hdrawn => ?_
      exact hdrawn.mono (Nat.le_refl _) (Nat.le_refl _) h'.ifs h'.loops
    · refine (h'.cases l hl).imp (List.mem_append_right _) fun hdrawn => ?_
      exact hdrawn.mono h.ifs h.loops (Nat.le_refl _) (Nat.le_refl _)
  · rcases h.cases l hl with hmem | hdrawn
    · rcases h'.cases l hl' with hmem' | hdrawn'
      · exact hdisjoint hmem hmem'
      · exact hstart l hmem _ _ hdrawn'
    · rcases h'.cases l hl' with hmem' | hdrawn'
      · exact hstart' l hmem' _ _ hdrawn
      · exact hdrawn.disjoint hdrawn' (Nat.le_refl _) (Nat.le_refl _)

/-- A start label in front of labels that are drawn. -/
theorem cons {l : Label} (hl : l.IsStart) (h : DrawnFrom [] c c' labels) :
    DrawnFrom [l] c c' (l :: labels) where
  ifs := h.ifs
  loops := h.loops
  cases := List.forall_mem_cons.2 ⟨.inl List.mem_cons_self, fun k hk =>
    .inr ((h.cases k hk).resolve_left List.not_mem_nil)⟩
  nodup := List.nodup_cons.2 ⟨fun hmem =>
    hl _ _ ((h.cases l hmem).resolve_left List.not_mem_nil), h.nodup⟩

end DrawnFrom

/-- The labels of statements are drawn on the way of lowering them. -/
theorem Statement.drawnFrom_lowerAll (ss : List Statement) (ctx : Context) (c : Counters) :
    DrawnFrom [] c (lowerAll ss ctx c).counters (definedIn (lowerAll ss ctx c).lines) := by
  have h := draws_lowerAll ss ctx c
  rw [(closed_lowerAll (fun _ hu => hu) c).definedIn_eq]
  exact ⟨h.ifs, h.loops, fun l hl => .inr (h.drawn l hl), h.nodup⟩

namespace Routine

/-- A routine adds its start label to those of its body. -/
theorem drawnFrom_lower {r : Routine} (hr : r.start.IsStart) (c : Counters) :
    DrawnFrom [r.start] c (r.lower c).counters (definedIn (r.lower c).lines) := by
  rw [← lines_part, (r.framed_part c).definedIn_lines, start_part]
  refine .cons hr ?_
  unfold part
  cases hlayout : r.layout with
  | ok f =>
    rw [lower_of_ok hlayout]
    simp only [definedIn_append, definedIn_quiet fun _ => isQuiet_storeLines,
      definedIn_quiet fun _ => isQuiet_resultLines, List.nil_append, List.append_nil]
    exact Statement.drawnFrom_lowerAll _ _ _
  | error f =>
    rw [lower_of_error hlayout]
    exact ⟨Nat.le_refl _, Nat.le_refl _, nofun, List.nodup_nil⟩

/-- The labels of routines, one after the other, are their start labels and labels that are drawn
once. The counters are handed on from routine to routine. -/
theorem drawnFrom_lines {rs : List Routine} (hrs : ∀ r ∈ rs, r.start.IsStart)
    (hnodup : (rs.map start).Nodup) (c : Counters) :
    DrawnFrom (rs.map start) c (after rs c) (definedIn (lines rs c)) := by
  induction rs generalizing c with
  | nil => exact ⟨Nat.le_refl _, Nat.le_refl _, nofun, List.nodup_nil⟩
  | cons r rs ih =>
    obtain ⟨hr, hrs'⟩ := List.forall_mem_cons.1 hrs
    obtain ⟨hmem, hnodup⟩ := List.nodup_cons.1 hnodup
    rw [lines_cons, definedIn_append]
    refine (drawnFrom_lower hr c).append (ih hrs' hnodup _) ?_ ?_
    · exact List.forall_mem_append.2 ⟨List.forall_mem_singleton.2 hr, List.forall_mem_map.2 hrs'⟩
    · exact List.disjoint_cons_left.2 ⟨hmem, List.disjoint_nil_left _⟩

theorem map_fst_written (rs : List Routine) (c : Counters) : (written rs c).map Prod.fst = rs := by
  induction rs generalizing c with
  | nil => rfl
  | cons r rs ih => exact congrArg (r :: ·) (ih _)

end Routine

namespace Program

variable {source : String} {program p : Program} {symbols : SymbolTable} {part : Part}

/-- The lines of the assembly of a program. -/
def assembly (p : Program) (symbols : SymbolTable) : List Line :=
  ((Generator.new symbols).emitProgram p).lines

theorem assembly_eq (h : (p.context symbols).At p symbols []) : p.assembly symbols =
    .directive .data :: p.vars.map (dataLine symbols) ++ (p.parts symbols).flatMap Part.lines := by
  rw [assembly, lines_emitProgram h, lines_data h]

/-- The data of a program defines the labels of its variables. -/
theorem definedIn_dataLines (vars : List Variable) (symbols : SymbolTable) :
    definedIn (vars.map (dataLine symbols)) = vars.map fun v => .ofVariable v.name := by
  induction vars with
  | nil => rfl
  | cons v vars ih =>
    have hline : (dataLine symbols v).defined? = some (.ofVariable v.name) := by
      unfold dataLine Generator.dataLine
      split <;> rfl
    show definedIn (dataLine symbols v :: vars.map (dataLine symbols)) = _
    rw [definedIn, List.filterMap_cons_some hline, ← definedIn, ih]
    rfl

/-- No label is defined twice. -/
theorem nodup_definedIn (h : (p.context symbols).At p symbols []) (hwords : p.Words) :
    (definedIn (p.assembly symbols)).Nodup ∧ ∀ l ∈ definedIn (p.assembly symbols), l.IsMarked := by
  obtain ⟨hvars, hstarts, hdisjoint⟩ := List.nodup_append'.1 (nodup_namedLabels h hwords)
  have hroutine : ∀ l ∈ (p.routines symbols).map Routine.start, ∃ path, l = .ofRoutine path :=
    List.forall_mem_map.2 fun r hr => ⟨_, (stands_of_mem_routines h hr).start⟩
  have hmain : DrawnFrom [.main] (Generator.data p symbols).counters
      (Generator.main p symbols).counters (definedIn (p.mainPart symbols).lines) := by
    rw [(framed_mainPart p symbols).definedIn_lines]
    exact .cons (fun _ _ => id) (Statement.drawnFrom_lowerAll _ _ _)
  have hisStart : ∀ l ∈ (p.routines symbols).map Routine.start, l.IsStart := by
    intro l hl
    obtain ⟨path, rfl⟩ := hroutine l hl
    exact Label.isStart_ofRoutine path
  have hcode := hmain.append
    (Routine.drawnFrom_lines (List.forall_mem_map.1 hisStart) hstarts _)
    (List.forall_mem_cons.2 ⟨fun _ _ => id, hisStart⟩) fun l hl hl' => by
      obtain ⟨path, rfl⟩ := hroutine l hl'
      cases List.mem_singleton.1 hl
  rw [← definedIn_append, ← flatMap_parts] at hcode
  have hdefined : definedIn (p.assembly symbols) = p.vars.map (fun v => .ofVariable v.name) ++
      definedIn ((p.parts symbols).flatMap Part.lines) := by
    rw [assembly_eq h, definedIn_append, ← definedIn_dataLines p.vars symbols]
    rfl
  rw [hdefined]
  constructor
  · refine hvars.append hcode.nodup fun l hl hl' => ?_
    obtain ⟨v, -, rfl⟩ := List.mem_map.1 hl
    rcases hcode.cases _ hl' with hmem | hdrawn
    · rcases List.mem_cons.1 hmem with heq | hmem
      · cases heq
      · exact hdisjoint hl hmem
    · cases hdrawn
  · refine List.forall_mem_append.2 ⟨List.forall_mem_map.2 fun v _ =>
      Label.isMarked_ofRoutine [v.name], fun l hl => ?_⟩
    rcases hcode.cases l hl with hmem | hdrawn
    · rcases List.mem_cons.1 hmem with rfl | hmem
      · trivial
      · obtain ⟨path, rfl⟩ := hroutine l hmem
        exact Label.isMarked_ofRoutine path
    · exact hdrawn.isMarked

/-! ## Labels that are named are defined -/

/-- The parts start with `main` and with the labels of the routines. -/
theorem starts_parts (p : Program) (symbols : SymbolTable) :
    (p.parts symbols).map Part.start = .main :: (p.routines symbols).map Routine.start := by
  have hroutines : (p.written symbols).map Prod.fst = p.routines symbols :=
    Routine.map_fst_written _ _
  rw [parts, List.map_cons, List.map_map, ← hroutines, List.map_map]
  exact congrArg _ (List.map_congr_left fun w _ => w.1.start_part w.2)

/-- A label that a part names is one of its body that a jump goes to, that of a variable, or the
start of a part that is called. -/
theorem label_cases (h : parse source = .ok (program, symbols))
    (hp : p = program ∨ p = program.fold) (hpart : part ∈ p.parts symbols) {i : Instr} {l : Label}
    (hi : .instr i ∈ part.lines) (hl : i.label? = some l) :
    (i.jump? = some l ∧ l ∈ labelsOf part.body) ∨
      (i.IsData ∧ l ∈ p.vars.map fun v => .ofVariable v.name) ∨
      (i = .jal l ∧ ∃ callee ∈ p.parts symbols, callee.start = l) := by
  have hat := at_of_parse h hp
  have hbody := (framed_of_mem_parts hpart).mem_body hi hl
  rcases (chunked_of_mem_parts hat hpart).label_cases hbody hl with
    hjump | ⟨hdata, x, bounds?, hplace⟩ | ⟨rfl, x, count, params, huse, hcallee⟩
  · exact .inl hjump
  · refine .inr (.inl ⟨hdata, ?_⟩)
    rw [← definedIn_dataLines p.vars symbols]
    refine List.mem_filterMap.2 ⟨_, dataLine_mem_of_mem_parts hat hpart hplace, ?_⟩
    cases bounds? <;> rfl
  · refine .inr (.inr ⟨rfl, ?_⟩)
    obtain ⟨r, hr, hstart⟩ := exists_routine_of_mem_parts h hp hpart huse hcallee
    have hmem : l ∈ (p.parts symbols).map Part.start := by
      rw [starts_parts, ← hstart]
      exact List.mem_cons_of_mem _ (List.mem_map_of_mem hr)
    exact List.mem_map.1 hmem

/-- Jumps stay in their part. -/
theorem label_of_jump (h : parse source = .ok (program, symbols))
    (hp : p = program ∨ p = program.fold) (hpart : part ∈ p.parts symbols) {i : Instr} {l : Label}
    (hi : .instr i ∈ part.lines) (hl : i.jump? = some l) : .label l ∈ part.lines := by
  rcases label_cases h hp hpart hi (Instr.label?_of_jump? hl) with
    ⟨-, hmem⟩ | ⟨hdata, -⟩ | ⟨rfl, -⟩
  · exact List.mem_append_right _ (List.mem_append_left _ (mem_labelsOf.1 hmem))
  · rw [hdata.jump?_eq_none] at hl
    cases hl
  · cases hl

theorem definedIn_subset (hpart : part ∈ p.parts symbols)
    (hat : (p.context symbols).At p symbols []) :
    definedIn part.lines ⊆ definedIn (p.assembly symbols) := by
  rw [assembly_eq hat, definedIn_append]
  refine List.Subset.trans ?_ (List.subset_append_right _ _)
  exact List.filterMap_subset _ fun line hline => List.mem_flatMap.2 ⟨part, hpart, hline⟩

end Program

/-! ## Control -/

/-- The labels of code are among those that the lines define. -/
theorem labelsOf_sublist (lines : List Line) : (labelsOf lines).Sublist (definedIn lines) := by
  induction lines with
  | nil => exact .slnil
  | cons line lines ih =>
    cases line with
    | label l => exact ih.cons_cons l
    | word l => exact ih.cons l
    | words l count => exact ih.cons l
    | _ => exact ih

namespace Program

variable {source : String} {program p : Program} {symbols : SymbolTable} {part : Part}
  {image : Image} {before after : List Part}

/-- The line on which a part starts, where the parts `before` come first. -/
def lineOf (p : Program) (before : List Part) : Nat :=
  p.vars.length + 1 + (before.flatMap Part.lines).length

/-- A part stands in the image where the parts before it end. -/
theorem has_part (hat : (p.context symbols).At p symbols [])
    (himage : image.lines = p.assembly symbols)
    (hsplit : p.parts symbols = before ++ part :: after) :
    image.Has (p.lineOf before) part.lines := by
  refine ⟨after.flatMap Part.lines, ?_⟩
  have hlines : image.lines = (.directive .data :: p.vars.map (dataLine symbols) ++
      before.flatMap Part.lines) ++ (part.lines ++ after.flatMap Part.lines) := by
    rw [himage, assembly_eq hat, hsplit, List.flatMap_append, List.flatMap_cons, List.append_assoc]
  rw [hlines, List.drop_left']
  simp [lineOf]
  omega

/-- A label of a part is found where the part defines it. -/
theorem find?_label (hat : (p.context symbols).At p symbols []) (hwords : p.Words)
    (himage : image.lines = p.assembly symbols) (hsplit : p.parts symbols = before ++ part :: after)
    {k : Nat} {l : Label} (hk : part.lines[k]? = some (.label l)) :
    image.find? l = some (p.lineOf before + k) := by
  have hnodup : (labelsOf image.lines).Nodup := by
    rw [himage]
    exact (nodup_definedIn hat hwords).1.sublist (labelsOf_sublist _)
  have hlinked : image.Linked 0 image.lines :=
    Image.linked_of_nodup List.prefix_rfl hnodup fun _ _ => List.not_mem_nil
  have hline := (has_part hat himage hsplit).getElem? hk
  rw [hlinked.find? _ l hline, Nat.zero_add]

/-- Control leaves a part by a call or a return alone, and by the exit service where it is not asked
to exit. -/
theorem stays_of_step (h : parse source = .ok (program, symbols))
    (hp : p = program ∨ p = program.fold) (himage : image.lines = p.assembly symbols)
    (hsplit : p.parts symbols = before ++ part :: after) {k next : Nat} {m m' : Machine}
    {line : Line} (hk : part.lines[k]? = some line)
    (hstep : image.step (p.lineOf before + k) m = some (next, m'))
    (hcall : ∀ l, line ≠ .instr (.jal l)) (hreturn : ∀ r, line ≠ .instr (.jr r)) :
    (∃ k' < part.lines.length, next = p.lineOf before + k') ∨
      k + 1 = part.lines.length ∧ line = .instr .syscall ∧ (m.read .v0).toNat ≠ 10 := by
  have hat := at_of_parse h hp
  have hpart : part ∈ p.parts symbols := by
    rw [hsplit]
    exact List.mem_append_right _ List.mem_cons_self
  have hlt : k < part.lines.length := (List.getElem?_eq_some_iff.1 hk).1
  have hline : image.lines[p.lineOf before + k]? = some line :=
    (has_part hat himage hsplit).getElem? hk
  -- the last line is the exit service, since it is no return
  have hlast (hend : ¬k + 1 < part.lines.length) : line = .instr .syscall := by
    have hgetLast : part.lines.getLast? = some line := by
      rw [List.getLast?_eq_getElem?, show part.lines.length - 1 = k by omega, hk]
    rcases (framed_of_mem_parts hpart).ends.getLast? with heq | heq
    · exact Option.some.inj (hgetLast.symm.trans heq)
    · exact absurd (Option.some.inj (hgetLast.symm.trans heq)) (hreturn .ra)
  unfold Image.step at hstep
  rw [hline] at hstep
  cases line with
  | instr i =>
    simp only [Option.bind_eq_bind, Option.bind_eq_some_iff, Option.pure_def, Option.some.injEq,
      Prod.mk.injEq, Prod.exists] at hstep
    obtain ⟨flow, m'', hexec, next', hfollow, rfl, rfl⟩ := hstep
    rcases Instr.flow_cases hexec with rfl | ⟨l, hl, rfl⟩ | ⟨l, rfl, -⟩ | ⟨r, rfl, -⟩
    · cases hfollow
      by_cases hend : k + 1 < part.lines.length
      · exact .inl ⟨k + 1, hend, by omega⟩
      · refine .inr ⟨by omega, hlast hend, fun h10 => ?_⟩
        cases hlast hend
        obtain ⟨_, hservice, -⟩ := Option.map_eq_some_iff.1 hexec
        simp only [Machine.service, h10] at hservice
        cases hservice
    · obtain ⟨k', hk'⟩ :=
        List.mem_iff_getElem?.1 (label_of_jump h hp hpart (List.mem_of_getElem? hk) hl)
      refine .inl ⟨k', (List.getElem?_eq_some_iff.1 hk').1, ?_⟩
      have hfind := find?_label hat (words_of_parse h hp) himage hsplit hk'
      exact Option.some.inj (hfollow.symm.trans hfind)
    · exact absurd rfl (hcall l)
    · exact absurd rfl (hreturn r)
  | _ =>
    cases hstep
    refine .inl ⟨k + 1, ?_, by omega⟩
    by_contra hend
    cases hlast hend

/-! ## Programs -/

/-- What is known of the labels in the assembly of `p`. It is data and then the main part and one
part for each subprogram. No text stands for two labels, and what is named is defined. Jumps stay in
their part, calls go to the start of a part, and each part ends in the exit service or in a return;
so nothing but calls and returns leads from one part into another. -/
structure LabelsSound (p : Program) (symbols : SymbolTable) : Prop where
  assembly : p.assembly symbols =
    .directive .data :: p.vars.map (dataLine symbols) ++ (p.parts symbols).flatMap Part.lines
  starts : (p.parts symbols).map Part.start = .main :: (p.routines symbols).map Routine.start
  routines : ∀ level outer, p.Has (level :: outer) →
    ∃ r ∈ p.routines symbols, r.start = .ofRoutine (Nesting.path (level :: outer))
  unique : ((definedIn (p.assembly symbols)).map Label.text).Nodup
  defined : ∀ i l, .instr i ∈ p.assembly symbols → i.label? = some l →
    l ∈ definedIn (p.assembly symbols)
  parts : ∀ part ∈ p.parts symbols, .label part.start ∈ part.lines ∧ Ends part.lines ∧
    (∀ i l, .instr i ∈ part.lines → i.jump? = some l → .label l ∈ part.lines) ∧
    ∀ l, .instr (.jal l) ∈ part.lines → ∃ callee ∈ p.parts symbols, callee.start = l
  stays : ∀ image : Image, image.lines = p.assembly symbols →
    ∀ before part after, p.parts symbols = before ++ part :: after →
      ∀ k line m next m', part.lines[k]? = some line →
        image.step (p.lineOf before + k) m = some (next, m') →
        (∀ l, line ≠ .instr (.jal l)) → (∀ r, line ≠ .instr (.jr r)) →
          (∃ k' < part.lines.length, next = p.lineOf before + k') ∨
            k + 1 = part.lines.length ∧ line = .instr .syscall ∧ (m.read .v0).toNat ≠ 10

/-- The labels of every program that is read from a text, folded or not, are unique and closed. -/
theorem labelsSound_of_parse {source : String} {program p : Program} {symbols : SymbolTable}
    (h : parse source = .ok (program, symbols)) (hp : p = program ∨ p = program.fold) :
    p.LabelsSound symbols := by
  have hat := at_of_parse h hp
  obtain ⟨hnodup, hmarked⟩ := nodup_definedIn hat (words_of_parse h hp)
  refine {
    assembly := assembly_eq hat
    starts := starts_parts p symbols
    routines := fun level outer hhas => ?_
    unique := hnodup.map_on fun l hl m hm => Label.text_inj (hmarked l hl) (hmarked m hm)
    defined := fun i l hi hl => ?_
    parts := fun part hpart => ?_
    stays := fun image himage before part after hsplit k line m next m' hk hstep =>
      stays_of_step h hp himage hsplit hk hstep }
  · obtain ⟨r, hr, -, hstart⟩ := exists_routine_of_has hat hhas
    exact ⟨r, hr, hstart⟩
  · rw [assembly_eq hat] at hi
    rcases List.mem_append.1 hi with hi | hi
    · -- data has no instructions
      rcases List.mem_cons.1 hi with heq | hi
      · cases heq
      · obtain ⟨v, -, heq⟩ := List.mem_map.1 hi
        unfold dataLine Generator.dataLine at heq
        split at heq <;> cases heq
    · obtain ⟨part, hpart, hi⟩ := List.mem_flatMap.1 hi
      have hframed := framed_of_mem_parts hpart
      rcases label_cases h hp hpart hi hl with ⟨-, hl⟩ | ⟨-, hl⟩ | ⟨-, callee, hcallee, rfl⟩
      · refine definedIn_subset hpart hat ?_
        rw [hframed.definedIn_lines]
        exact List.mem_cons_of_mem _ ((labelsOf_sublist _).subset hl)
      · rw [assembly_eq hat, definedIn_append, definedIn, List.filterMap_cons_none rfl, ← definedIn,
          definedIn_dataLines]
        exact List.mem_append_left _ hl
      · refine definedIn_subset hcallee hat ?_
        rw [(framed_of_mem_parts hcallee).definedIn_lines]
        exact List.mem_cons_self
  · have hframed := framed_of_mem_parts hpart
    refine ⟨List.mem_append_left _ hframed.start, hframed.ends,
      fun i l hi hl => label_of_jump h hp hpart hi hl, fun l hi => ?_⟩
    rcases label_cases h hp hpart hi rfl with ⟨hnone, -⟩ | ⟨hdata, -⟩ | ⟨-, hcallee⟩
    · cases hnone
    · cases hdata
    · exact hcallee

/-- A variable, a recursive function, and in it a function that takes the name of the variable. -/
def labelsSource : String :=
  "program p; var x: integer; function f(n: integer): integer; function x(n: integer): integer; " ++
  "begin x := n end; begin if n = 0 then f := 1 else f := f(n - 1) + x(n) end; " ++
  "begin while x < 3 do x := x + f(2) end."

theorem labelsSource_labelsSound :
    ∃ program symbols, parse labelsSource = .ok (program, symbols) ∧
      (definedIn (program.fold.assembly symbols)).map Label.text =
        ["_x", "main", "while0", "endWhile0", "_f", "else0", "endIf0", "_f_x"] ∧
      program.fold.LabelsSound symbols := by
  have hlabels : (parse labelsSource).toOption.map (fun parsed =>
      (definedIn (parsed.1.fold.assembly parsed.2)).map Label.text) =
        some ["_x", "main", "while0", "endWhile0", "_f", "else0", "endIf0", "_f_x"] := by
    decide +kernel
  obtain ⟨program, symbols, hparse, hlabels⟩ := exists_of_parse_map hlabels
  exact ⟨program, symbols, hparse, hlabels, labelsSound_of_parse hparse (.inr rfl)⟩

end Program

end PascalMips
