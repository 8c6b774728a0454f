import PascalMips.Proofs.Program.Cursor
import PascalMips.Proofs.Statement.FoldedMarks

/-!
# Diagnostics of folded programs

A folded program has the routines of the program with their bodies folded, in the same contexts
(`Context.routines_fold`). Part by part its code is milder, so it has some of the diagnostics of the
program, in their order, and there is an assembly for both or for neither
(`Program.diagnostics_fold_sublist`).
-/

namespace PascalMips

/-! ## Folded routines -/

namespace Routine

/-- The routine of the folded program. -/
def fold (r : Routine) : Routine := { r with level := r.level.fold, outer := r.outer.fold }

theorem layout_fold (r : Routine) : r.fold.layout = r.layout := by
  obtain ⟨⟨_, ⟨kind, name, returns, args, vars, subprograms, body, location⟩, _⟩, _, _, _, _⟩ := r
  simp only [layout, sub, fold, Level.fold, Subprogram.fold]

theorem inside_fold (r : Routine) : r.fold.inside = r.inside := by
  rw [inside, frame, layout_fold]
  rfl

theorem lower_fold_of_ok {r : Routine} {f : Frame} (hf : r.layout = .ok f) (c : Counters) :
    r.fold.lower c =
      Lower.routine r.start r.sub.name f (Statement.foldAll r.sub.body) r.inside c := by
  rw [lower, inside_fold, code, layout_fold, hf]
  show Lower.routine r.start r.sub.fold.name f r.sub.fold.body r.inside c = _
  rw [Subprogram.name_fold, Subprogram.body_fold]

theorem milder_fold (r : Routine) (c : Counters) : (r.fold.lower c).Milder (r.lower c) := by
  cases hf : r.layout with
  | ok f =>
    have hbody := Statement.milder_foldAll r.sub.body r.inside c
    rw [lower_fold_of_ok hf, Lower.routine_apply, lower_of_ok hf]
    refine ⟨rfl, hbody.counters, ?_⟩
    simp only [diagnosticsOf_label_cons, diagnosticsOf_append]
    exact ((hbody.marks.append_right _).append_left _).append_left _
  | error f =>
    rw [lower_of_error (r.layout_fold.trans hf), lower_of_error hf]
    show Lowered.Milder ⟨(), c, [.mark (.frameTooLarge r.sub.fold.name), _, _]⟩ _
    rw [Subprogram.name_fold]
    exact .refl _

/-- Folded routines, one after the other, come to the same counters with some of the marks. -/
theorem milder_foldAll (rs : List Routine) (c : Counters) :
    after (rs.map fold) c = after rs c ∧
      (diagnosticsOf (lines (rs.map fold) c)).Sublist (diagnosticsOf (lines rs c)) := by
  induction rs generalizing c with
  | nil => exact ⟨rfl, .refl _⟩
  | cons r rs ih =>
    have hmilder := r.milder_fold c
    obtain ⟨hafter, hmarks⟩ := ih (r.lower c).counters
    rw [List.map_cons, after, after, lines_cons, lines_cons, hmilder.counters, diagnosticsOf_append,
      diagnosticsOf_append]
    exact ⟨hafter, hmilder.marks.append hmarks⟩

end Routine

namespace Context

mutual

theorem routinesOf_fold : ∀ (s : Subprogram) (ctx : Context) (outer : Nesting)
    (before after : List Subprogram), ctx.routinesOf outer.fold (Subprogram.foldAll before)
      (Subprogram.foldAll after) s.fold = (ctx.routinesOf outer before after s).map Routine.fold
  | ⟨kind, name, returns, args, vars, subprograms, body, location⟩, ctx, outer, before, after => by
    rw [Subprogram.fold, routinesOf, routinesOf]
    cases ctx.enter? name with
    | none => rfl
    | some entered =>
      obtain ⟨start, id, inner⟩ := entered
      have hinner := routines_fold subprograms inner (⟨before,
        ⟨kind, name, returns, args, vars, subprograms, body, location⟩, after⟩ :: outer) []
      simp only [List.map_cons, ← hinner, Routine.fold, Nesting.fold, Level.fold, Subprogram.fold,
        Subprogram.foldAll]

/-- The routines of folded subprograms are the folded routines of the subprograms. -/
theorem routines_fold : ∀ (ss : List Subprogram) (ctx : Context) (outer : Nesting)
    (before : List Subprogram), ctx.routines outer.fold (Subprogram.foldAll before)
      (Subprogram.foldAll ss) = (ctx.routines outer before ss).map Routine.fold
  | [], ctx, outer, before => by
    rw [Subprogram.foldAll, routines, routines]
    rfl
  | s :: ss, ctx, outer, before => by
    have hrest := routines_fold ss ctx outer (before ++ [s])
    rw [Subprogram.foldAll_eq_map, List.map_append, ← Subprogram.foldAll_eq_map] at hrest
    rw [Subprogram.foldAll, routines, routines, List.map_append, ← hrest,
      routinesOf_fold s ctx outer before ss]
    rfl

end

end Context

/-! ## Folded programs -/

namespace Program

theorem routines_fold (p : Program) (symbols : SymbolTable) :
    p.fold.routines symbols = (p.routines symbols).map Routine.fold :=
  Context.routines_fold p.subprograms (p.context symbols) [] []

/-- The main part, written after the data. -/
def lowerMain (p : Program) (symbols : SymbolTable) : Lowered Unit :=
  Generator.mainPart p.body (p.context symbols) (Generator.data p symbols).counters

theorem lowerMain_fold (p : Program) (symbols : SymbolTable) :
    p.fold.lowerMain symbols = Generator.mainPart (Statement.foldAll p.body) (p.context symbols)
      (Generator.data p symbols).counters :=
  rfl

/-- The diagnostics of a program: those of its data, of its main part and of its routines. -/
theorem diagnostics_emitProgram {p : Program} {symbols : SymbolTable}
    (h : (p.context symbols).At p symbols []) :
    ((Generator.new symbols).emitProgram p).diagnostics =
      diagnosticsOf (Generator.data p symbols).lines ++
        (diagnosticsOf (p.lowerMain symbols).lines ++
          diagnosticsOf (Routine.lines (p.routines symbols) (p.lowerMain symbols).counters)) := by
  rw [emitProgram_eq h, Generator.diagnostics, Generator.writeAll, Generator.main, Generator.run,
    diagnosticsOf_append, diagnosticsOf_append, List.append_assoc]
  rfl

theorem milder_lowerMain (p : Program) (symbols : SymbolTable) :
    (p.fold.lowerMain symbols).Milder (p.lowerMain symbols) := by
  rw [lowerMain_fold, lowerMain]
  refine Lower.milder_bind_apply (.refl _) (Lower.milder_bind_apply (.refl _) ?_)
  refine Lower.milder_bind_apply (.refl _) (Lower.milder_bind_apply ?_ (.refl _))
  exact Statement.milder_foldAll p.body _ _

/-- The generator of a folded program ends with the counters of that of the program. -/
theorem counters_emitProgram_fold {p : Program} {symbols : SymbolTable}
    (h : (p.context symbols).At p symbols []) (hfold : (p.fold.context symbols).At p.fold symbols []) :
    ((Generator.new symbols).emitProgram p.fold).counters =
      ((Generator.new symbols).emitProgram p).counters := by
  have hmain : (Generator.main p.fold symbols).counters = (Generator.main p symbols).counters :=
    (p.milder_lowerMain symbols).counters
  rw [emitProgram_eq h, emitProgram_eq hfold, routines_fold, Generator.writeAll, Generator.writeAll,
    hmain]
  exact (Routine.milder_foldAll _ _).1

/-- There is an assembly for a folded program exactly if there is one for the program. The diagnostics
of the folded program are some of those of the program, in their order; so there are none if the
program has none. -/
theorem diagnostics_fold_sublist {source : String} {program : Program} {symbols : SymbolTable}
    (h : parse source = .ok (program, symbols)) :
    let unfolded := ((Generator.new symbols).emitProgram program).diagnostics
    let folded := ((Generator.new symbols).emitProgram program.fold).diagnostics
    ((∃ out, program.fold.generate symbols = .ok out) ↔
        ∃ out, program.generate symbols = .ok out) ∧
      folded.Sublist unfolded ∧ (unfolded = [] → folded = []) := by
  intro unfolded folded
  have hat := at_of_parse h (.inl rfl)
  have hfold := at_of_parse h (.inr rfl)
  have hsublist : folded.Sublist unfolded := by
    have hunfolded : unfolded = _ := diagnostics_emitProgram hat
    have hfolded : folded = _ := diagnostics_emitProgram hfold
    have hmilder := program.milder_lowerMain symbols
    rw [hunfolded, hfolded, routines_fold, hmilder.counters]
    exact (hmilder.marks.append (Routine.milder_foldAll _ _).2).append_left _
  refine ⟨?_, hsublist, fun hnone => List.sublist_nil.1 (hnone ▸ hsublist)⟩
  rw [exists_generate_iff, exists_generate_iff, counters_emitProgram_fold hat hfold]

/-- The sum is too deep for the pool, and folding makes it a literal. -/
def deepSumSource : String :=
  "program p; var x: integer; begin if 1 < 2 then x := 1 + (2 + (3 + (4 + 5))) else x := 0 end."

theorem deepSumSource_diagnostics :
    ∃ program symbols, parse deepSumSource = .ok (program, symbols) ∧
      (∃ out, program.fold.generate symbols = .ok out) ∧
      ((Generator.new symbols).emitProgram program).diagnostics =
        [.outOfRegisters, .outOfRegisters] ∧
      ((Generator.new symbols).emitProgram program.fold).diagnostics = [] ∧
      ((Generator.new symbols).emitProgram program.fold).diagnostics.Sublist
        ((Generator.new symbols).emitProgram program).diagnostics := by
  have hfacts : (parse deepSumSource).toOption.map (fun parsed =>
      let unfolded := (Generator.new parsed.2).emitProgram parsed.1
      let folded := (Generator.new parsed.2).emitProgram parsed.1.fold
      decide (unfolded.counters.overdrawn = false ∧
        unfolded.diagnostics = [.outOfRegisters, .outOfRegisters] ∧ folded.diagnostics = [])) =
      some true := by
    decide +kernel
  obtain ⟨program, symbols, hparse, hall⟩ := exists_of_parse_map hfacts
  obtain ⟨hsolvent, hmarks, hnone⟩ := of_decide_eq_true hall
  obtain ⟨hcompletes, hsublist, -⟩ := diagnostics_fold_sublist hparse
  exact ⟨program, symbols, hparse, hcompletes.2 (exists_generate_iff.2 hsolvent), hmarks, hnone,
    hsublist⟩

end Program

end PascalMips
