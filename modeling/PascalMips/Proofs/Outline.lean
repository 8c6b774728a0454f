import PascalMips.Outline

/-!
# Outlines can be told from their text

A written outline determines the outline, if its texts fit on lines and none starts as a mark does.
The text determines the rows, since a row ends at the first line break and its marks end where its
text starts (`rows_of_lines`). The rows determine the outlines, since the rows of a child stand
deeper than those of what follows it (`of_rowsAll`). So outlines that are written one after the
other are told apart too (`eq_of_text`).
-/

namespace PascalMips.Outline

/-- A text that fits on a line and does not start as a mark does. -/
structure IsLine (text : String) : Prop where
  newline : '\n' ∉ text.toList
  bar : text.toList.head? ≠ some '|'

/-- Every text of an outline fits on a line. -/
inductive Lined : Outline → Prop
  | node {text : String} {children : List Outline} (htext : IsLine text)
      (hchildren : ∀ child ∈ children, Lined child) : Lined (node text children)

mutual

theorem isLine_of_rows {level : Nat} : ∀ {outline : Outline}, outline.Lined →
    ∀ row ∈ outline.rows level, IsLine row.text
  | .node text children, h, row, hrow => by
    obtain ⟨htext, hchildren⟩ := h
    rw [rows] at hrow
    rcases List.mem_cons.1 hrow with rfl | hrow
    · exact htext
    · exact isLine_of_rowsAll hchildren row hrow

theorem isLine_of_rowsAll {level : Nat} : ∀ {outlines : List Outline},
    (∀ outline ∈ outlines, outline.Lined) → ∀ row ∈ rowsAll level outlines, IsLine row.text
  | [], _, row, hrow => absurd hrow List.not_mem_nil
  | outline :: outlines, h, row, hrow => by
    obtain ⟨hfirst, hrest⟩ := List.forall_mem_cons.1 h
    rw [rowsAll] at hrow
    rcases List.mem_append.1 hrow with hrow | hrow
    · exact isLine_of_rows hfirst row hrow
    · exact isLine_of_rowsAll hrest row hrow

end

/-! ## From text to rows -/

/-- The marks that lead a row. -/
def marks (level : Nat) : List Char := (List.replicate level "|-- ").flatMap String.toList

theorem marks_succ (level : Nat) : marks (level + 1) = '|' :: '-' :: '-' :: ' ' :: marks level := by
  rw [marks, List.replicate_succ, List.flatMap_cons]
  rfl

theorem newline_notMem_marks (level : Nat) : '\n' ∉ marks level := by
  induction level with
  | zero => exact List.not_mem_nil
  | succ level ih =>
    rw [marks_succ]
    simpa using ih

theorem render_append (row : Row) (rest : List Char) :
    row.render.toList ++ rest = (marks row.level ++ row.text.toList) ++ '\n' :: rest := by
  rw [Row.render, String.toList_append, String.toList_append, String.toList_join, marks,
    List.append_assoc]
  rfl

/-- Lines come apart at the first end of a line. -/
theorem split_at_newline : ∀ {line line' rest rest' : List Char}, '\n' ∉ line → '\n' ∉ line' →
    line ++ '\n' :: rest = line' ++ '\n' :: rest' → line = line' ∧ rest = rest'
  | [], [], _, _, _, _, h => ⟨rfl, (List.cons.inj h).2⟩
  | [], c :: _, _, _, _, hline', h =>
    absurd ((List.cons.inj h).1 ▸ List.mem_cons_self) hline'
  | c :: _, [], _, _, hline, _, h =>
    absurd ((List.cons.inj h).1 ▸ List.mem_cons_self) hline
  | c :: line, c' :: line', _, _, hline, hline', h => by
    obtain ⟨rfl, htail⟩ := List.cons.inj h
    obtain ⟨rfl, hrest⟩ := split_at_newline (mt (List.mem_cons_of_mem c) hline)
      (mt (List.mem_cons_of_mem c) hline') htail
    exact ⟨rfl, hrest⟩

/-- The level and the text of a row can be read back from its line, since no text starts with the
sign of a level. -/
theorem of_marks_append : ∀ {level level' : Nat} {text text' : String}, IsLine text → IsLine text' →
    marks level ++ text.toList = marks level' ++ text'.toList → level = level' ∧ text = text'
  | 0, 0, _, _, _, _, h => ⟨rfl, String.toList_inj.1 h⟩
  | 0, level' + 1, text, _, htext, _, h => by
    rw [marks_succ] at h
    exact absurd (congrArg List.head? h) htext.bar
  | level + 1, 0, _, text', _, htext', h => by
    rw [marks_succ] at h
    exact absurd (congrArg List.head? h).symm htext'.bar
  | level + 1, level' + 1, _, _, htext, htext', h => by
    rw [marks_succ, marks_succ] at h
    simp only [List.cons_append, List.cons.injEq, true_and] at h
    obtain ⟨rfl, rfl⟩ := of_marks_append htext htext' h
    exact ⟨rfl, rfl⟩

/-- Rows can be read back from their lines, by induction over the rows. -/
theorem rows_of_lines {rows rows' : List Row} (h : ∀ row ∈ rows, IsLine row.text)
    (h' : ∀ row ∈ rows', IsLine row.text)
    (heq : String.join (rows.map Row.render) = String.join (rows'.map Row.render)) :
    rows = rows' := by
  replace heq := congrArg String.toList heq
  rw [String.toList_join, String.toList_join, List.flatMap_map, List.flatMap_map] at heq
  have hline {row : Row} (hrow : IsLine row.text) : '\n' ∉ marks row.level ++ row.text.toList :=
    fun hmem => (List.mem_append.1 hmem).elim (newline_notMem_marks row.level) hrow.newline
  induction rows generalizing rows' with
  | nil =>
    cases rows' with
    | nil => rfl
    | cons row' rows' =>
      rw [List.flatMap_cons, render_append] at heq
      exact absurd heq.symm (List.append_ne_nil_of_right_ne_nil _ (List.cons_ne_nil _ _))
  | cons row rows ih =>
    rw [List.flatMap_cons, render_append] at heq
    cases rows' with
    | nil => exact absurd heq (List.append_ne_nil_of_right_ne_nil _ (List.cons_ne_nil _ _))
    | cons row' rows' =>
      obtain ⟨hrow, hrows⟩ := List.forall_mem_cons.1 h
      obtain ⟨hrow', hrows'⟩ := List.forall_mem_cons.1 h'
      rw [List.flatMap_cons, render_append] at heq
      obtain ⟨hfirst, hrest⟩ := split_at_newline (hline hrow) (hline hrow') heq
      have hsame : row = row' := Row.mk.injEq .. ▸ of_marks_append hrow hrow' hfirst
      rw [ih hrows hrows' hrest, hsame]

/-! ## From rows to outlines -/

/-- The first of the rows, if there is one, stands above a level. -/
def Above (level : Nat) (rows : List Row) : Prop := ∀ row ∈ rows.head?, row.level < level

theorem Above.rowsAll_append {level : Nat} {rows : List Row} (h : Above level rows) :
    ∀ outlines : List Outline, Above (level + 1) (rowsAll level outlines ++ rows)
  | [], row, hrow => Nat.lt_succ_of_lt (h row hrow)
  | .node text children :: outlines, row, hrow => by
    cases hrow
    exact Nat.lt_succ_self level

/-- Rows that stand above a level are none of those at it, so the outlines end where they begin. -/
theorem of_rowsAll : ∀ {outlines outlines' : List Outline} {level : Nat} {rows rows' : List Row},
    Above level rows → Above level rows' →
    rowsAll level outlines ++ rows = rowsAll level outlines' ++ rows' →
    outlines = outlines' ∧ rows = rows'
  | [], [], _, _, _, _, _, h => ⟨rfl, h⟩
  | [], .node text children :: outlines', level, rows, _, hrows, _, h => by
    rw [rowsAll, List.nil_append] at h
    exact absurd (hrows ⟨level, text⟩ (h ▸ rfl)) (Nat.lt_irrefl level)
  | .node text children :: outlines, [], level, _, rows', _, hrows', h => by
    rw [rowsAll, List.nil_append] at h
    exact absurd (hrows' ⟨level, text⟩ (h ▸ rfl)) (Nat.lt_irrefl level)
  | .node text children :: outlines, .node text' children' :: outlines', level, rows, rows',
      hrows, hrows', h => by
    simp only [rowsAll, Outline.rows, List.cons_append, List.append_assoc, List.cons.injEq,
      Row.mk.injEq, true_and] at h
    obtain ⟨rfl, hbelow⟩ := h
    -- What stands beside or after the first outline stands above its children.
    obtain ⟨rfl, hbeside⟩ :=
      of_rowsAll (hrows.rowsAll_append outlines) (hrows'.rowsAll_append outlines') hbelow
    obtain ⟨rfl, hafter⟩ := of_rowsAll hrows hrows' hbeside
    exact ⟨rfl, hafter⟩

/-! ## From text to outlines -/

theorem join_render (outlines : List Outline) :
    String.join (outlines.map render) = String.join ((rowsAll 0 outlines).map Row.render) := by
  induction outlines with
  | nil => rfl
  | cons outline outlines ih =>
    rw [rowsAll, List.map_append, String.join_append, List.map_cons, String.join_cons, ih]
    rfl

/-- Outlines can be read back from their text. -/
theorem eq_of_text {outlines outlines' : List Outline} (h : ∀ outline ∈ outlines, outline.Lined)
    (h' : ∀ outline ∈ outlines', outline.Lined)
    (heq : String.join (outlines.map render) = String.join (outlines'.map render)) :
    outlines = outlines' := by
  rw [join_render, join_render] at heq
  have hrows := rows_of_lines (isLine_of_rowsAll h) (isLine_of_rowsAll h') heq
  rw [← List.append_nil (rowsAll 0 outlines), ← List.append_nil (rowsAll 0 outlines')] at hrows
  have habove : Above 0 [] := by
    intro row hrow
    cases hrow
  exact (of_rowsAll habove habove hrows).1

end PascalMips.Outline
