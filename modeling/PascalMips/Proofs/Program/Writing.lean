import PascalMips.Program.Lower
import PascalMips.Proofs.Symbol.Scopes

/-!
# What writing subprograms does to the table

A generator takes the scope off a subprogram, works inside it and puts it back. Over a well-formed
table the names and the path are then what they were (`resumes_emitSubprogram`), whatever the
subprogram: where it has no symbol or no scope the generator goes nowhere.
-/

namespace PascalMips.Generator

/-- The generator `h` is at the same names and in the same subprograms as `g`. -/
structure Resumes (g h : Generator) : Prop where
  symbols : h.symbols = g.symbols
  path : h.context.path = g.context.path

theorem Resumes.refl (g : Generator) : g.Resumes g := ⟨rfl, rfl⟩

theorem Resumes.trans {g h k : Generator} (hgh : g.Resumes h) (hhk : h.Resumes k) : g.Resumes k :=
  ⟨hhk.symbols.trans hgh.symbols, hhk.path.trans hgh.path⟩

theorem resumes_emitData (vars : List Variable) (g : Generator) : g.Resumes (g.emitData vars) := by
  induction vars generalizing g with
  | nil => exact .refl g
  | cons v vars ih =>
    refine Resumes.trans ?_ (ih (g.emitVariable v))
    unfold emitVariable
    split
    · exact ⟨rfl, rfl⟩
    · exact ⟨rfl, rfl⟩

theorem resumes_run (g : Generator) (code : Lower Unit) : g.Resumes (g.run code) := ⟨rfl, rfl⟩

theorem resumes_emitRoutine (g : Generator) (start : Label) (id : Nat) (s : Subprogram) :
    g.Resumes (g.emitRoutine start id s) := by
  unfold emitRoutine
  split
  · exact ⟨rfl, rfl⟩
  · exact ⟨rfl, rfl⟩

/-- Leaving the subprogram that was entered, with its scope as it was, puts everything back. -/
theorem resumes_leave {g h : Generator} {name : String} {scope : Scope} {symbols : SymbolTable}
    (hw : g.symbols.WellFormed) (hdetach : g.symbols.detach? name = some (scope, symbols))
    (hh : (g.enter name scope symbols).Resumes h) : g.Resumes (h.leave name) := by
  have hexit : h.symbols.exit? = some (scope, symbols) := by
    rw [hh.symbols]
    rfl
  have hattach := SymbolTable.attach?_of_detach? hw hdetach
  constructor
  · unfold leave
    simp only [hexit, hattach, Option.getD_some]
    rfl
  · show h.context.path.dropLast = g.context.path
    rw [hh.path]
    exact List.dropLast_concat

mutual

/-- Writing a subprogram leaves the table and the places as they were: what was detached is attached
again, and what was assigned is released. It goes by recursion over the nesting. -/
theorem resumes_emitSubprogram : ∀ (s : Subprogram) {g : Generator}, g.symbols.WellFormed →
    g.Resumes (g.emitSubprogram s)
  | ⟨kind, name, returns, args, vars, subprograms, body, location⟩, g, hw => by
    unfold emitSubprogram
    split
    · exact ⟨rfl, rfl⟩
    · next depth symbol hlookup =>
      dsimp only
      split
      · exact ⟨rfl, rfl⟩
      · next scope symbols hdetach =>
        obtain ⟨hsymbols, hscope⟩ := hw.of_detach? hdetach
        have hroutine := resumes_emitRoutine (g.enter name scope symbols)
          (Lower.routineLabel g.context.path depth name) symbol.id
          ⟨kind, name, returns, args, vars, subprograms, body, location⟩
        refine resumes_leave hw hdetach (hroutine.trans (resumes_emitSubprograms subprograms ?_))
        rw [hroutine.symbols]
        exact hsymbols.push hscope

theorem resumes_emitSubprograms : ∀ (ss : List Subprogram) {g : Generator},
    g.symbols.WellFormed → g.Resumes (g.emitSubprograms ss)
  | [], g, _ => .refl g
  | s :: ss, g, hw => by
    have hs := resumes_emitSubprogram s hw
    exact hs.trans (resumes_emitSubprograms ss (hs.symbols ▸ hw))

end

theorem emitSubprograms_append (ts : List Subprogram) : ∀ (ss : List Subprogram) (g : Generator),
    g.emitSubprograms (ss ++ ts) = (g.emitSubprograms ss).emitSubprograms ts
  | [], _ => rfl
  | s :: ss, g => emitSubprograms_append ts ss (g.emitSubprogram s)

end PascalMips.Generator
