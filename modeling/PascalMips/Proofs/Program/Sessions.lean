import PascalMips.Program.Source
import PascalMips.Proofs.Parser.Moves
import PascalMips.Proofs.Program.Writing

/-!
# Generation gives the table back

A session opens and closes scopes of one table, declares names, takes scopes off subprograms and
attaches others, and reads programs, whether they turn out well or not. Tables and scopes that come
about in this way are `Made`; scopes and symbols can be copied and used again any number of times.
Made tables are well formed, because each operation keeps that. So generation leaves them as they
are, for every program tree, also one that has nothing to do with the table (`generate_restores`),
and generating again writes the same text.
-/

namespace PascalMips

mutual

/-- A table that a session can come to. An operation that is refused changes nothing. -/
inductive SymbolTable.Made : SymbolTable → Prop
  | empty : SymbolTable.Made .empty
  | enter {t : SymbolTable} (h : SymbolTable.Made t) : SymbolTable.Made t.enter
  | exit {t u : SymbolTable} {scope : Scope} (h : SymbolTable.Made t)
      (hexit : t.exit? = some (scope, u)) : SymbolTable.Made u
  | push {t : SymbolTable} {scope : Scope} (h : SymbolTable.Made t) (hscope : Scope.Made scope) :
      SymbolTable.Made (t.push scope)
  | declare {t u : SymbolTable} {name : String} {binding : Binding} (h : SymbolTable.Made t)
      (hdeclare : t.declare? name binding = some u) : SymbolTable.Made u
  | attach {t u : SymbolTable} {name : String} {scope : Scope} (h : SymbolTable.Made t)
      (hscope : Scope.Made scope) (hattach : t.attach? name scope = some u) : SymbolTable.Made u
  | detach {t u : SymbolTable} {name : String} {scope : Scope} (h : SymbolTable.Made t)
      (hdetach : t.detach? name = some (scope, u)) : SymbolTable.Made u
  | read {t : SymbolTable} (h : SymbolTable.Made t) (source : String) :
      SymbolTable.Made (Program.ofSource source t).2
  | readTokens {t : SymbolTable} (h : SymbolTable.Made t) (tokens : TokenStream) :
      SymbolTable.Made (Program.ofTokens tokens t).2

/-- A scope that a session can hold. -/
inductive Scope.Made : Scope → Prop
  | empty : Scope.Made []
  | insert {scope scope' : Scope} {id : Nat} {name : String} {binding : Binding}
      (h : Scope.Made scope) (hinsert : scope.insert? ⟨id, name, binding, none⟩ = some scope') :
      Scope.Made scope'
  | insertCopy {scope other scope' : Scope} {symbol : Symbol} (h : Scope.Made scope)
      (hother : Scope.Made other) (hs : symbol ∈ other)
      (hinsert : scope.insert? symbol = some scope') : Scope.Made scope'
  | copy {t : SymbolTable} {scope : Scope} (h : SymbolTable.Made t) (hscope : scope ∈ t.scopes) :
      Scope.Made scope
  | locals {scope inner : Scope} {symbol : Symbol} (h : Scope.Made scope) (hs : symbol ∈ scope)
      (hlocals : symbol.locals = some inner) : Scope.Made inner
  | exit {t u : SymbolTable} {scope : Scope} (h : SymbolTable.Made t)
      (hexit : t.exit? = some (scope, u)) : Scope.Made scope
  | detach {t u : SymbolTable} {name : String} {scope : Scope} (h : SymbolTable.Made t)
      (hdetach : t.detach? name = some (scope, u)) : Scope.Made scope

end

/-! ## Made tables are well formed -/

theorem Scope.WellFormed.of_insert? {scope scope' : Scope} {symbol : Symbol} (h : scope.WellFormed)
    (hroutine : ∀ inner, symbol.locals = some inner → symbol.binding.isRoutine = true)
    (hinner : ∀ inner, symbol.locals = some inner → WellFormed inner)
    (hinsert : scope.insert? symbol = some scope') : scope'.WellFormed := by
  unfold Scope.insert? at hinsert
  split at hinsert
  · cases hinsert
  · next hnew =>
    cases hinsert
    exact h.append_singleton (mt Scope.declares_iff.2 hnew) hroutine hinner

namespace Program

/-- Reading a program keeps a table well formed, whether it succeeds or fails. -/
theorem wellFormed_ofTokens (tokens : TokenStream) {t : SymbolTable} (h : t.WellFormed) :
    (ofTokens tokens t).2.WellFormed := by
  have htravels := Parse.travels_program ⟨tokens, t, []⟩
  unfold ofTokens
  split
  · next hok =>
    rw [hok] at htravels
    exact Parser.Moves.wellFormed htravels h
  · next herror =>
    rw [herror] at htravels
    exact Parser.Moves.wellFormed htravels h
  · next hexhausted => exact absurd hexhausted (Parse.program_ne_exhausted _)

theorem wellFormed_ofSource (source : String) {t : SymbolTable} (h : t.WellFormed) :
    (ofSource source t).2.WellFormed := by
  unfold ofSource
  split
  · exact wellFormed_ofTokens _ h
  · exact h

end Program

mutual

theorem SymbolTable.Made.wellFormed : ∀ {t : SymbolTable}, t.Made → t.WellFormed
  | _, .empty => .empty
  | _, .enter h => h.wellFormed.push .nil
  | _, .exit h hexit => (h.wellFormed.of_exit? hexit).1
  | _, .push h hscope => h.wellFormed.push hscope.wellFormed
  | _, .declare h hdeclare => h.wellFormed.of_declare? hdeclare
  | _, .attach h hscope hattach => h.wellFormed.of_attach? hscope.wellFormed hattach
  | _, .detach h hdetach => (h.wellFormed.of_detach? hdetach).1
  | _, .read h source => Program.wellFormed_ofSource source h.wellFormed
  | _, .readTokens h tokens => Program.wellFormed_ofTokens tokens h.wellFormed

theorem Scope.Made.wellFormed : ∀ {scope : Scope}, scope.Made → scope.WellFormed
  | _, .empty => .nil
  | _, .insert h hinsert => h.wellFormed.of_insert? (by simp) (by simp) hinsert
  | _, .insertCopy h hother hs hinsert => by
    obtain ⟨-, hroutine, hinner⟩ := hother.wellFormed
    exact h.wellFormed.of_insert? (hroutine _ hs) (hinner _ hs) hinsert
  | _, .copy h hscope => h.wellFormed _ hscope
  | _, .locals h hs hlocals => by
    obtain ⟨-, -, hinner⟩ := h.wellFormed
    exact hinner _ hs _ hlocals
  | _, .exit h hexit => (h.wellFormed.of_exit? hexit).2
  | _, .detach h hdetach => (h.wellFormed.of_detach? hdetach).2

end

/-! ## Generation -/

theorem Generator.symbols_emitProgram {g : Generator} (h : g.symbols.WellFormed) (p : Program) :
    (g.emitProgram p).symbols = g.symbols := by
  have hwrite : g.Resumes (g.write (.directive .data)) := ⟨rfl, rfl⟩
  have hmain := (hwrite.trans (resumes_emitData p.vars _)).trans (resumes_run _ (mainPart p.body))
  exact (hmain.trans (resumes_emitSubprograms p.subprograms (hmain.symbols ▸ h))).symbols

namespace Program

/-- Generation leaves a table of a session as it is, whatever the program, and if it succeeds it
gives the table back as it was and writes the same text when it is done again. -/
theorem generate_restores {t : SymbolTable} (h : t.Made) (p : Program) :
    (∀ g : Generator, g.symbols = t → (g.emitProgram p).symbols = t) ∧
      ∀ text t', p.generate t = .ok (text, t') → t' = t ∧ p.generate t' = .ok (text, t') := by
  have hemit : ∀ g : Generator, g.symbols = t → (g.emitProgram p).symbols = t := by
    rintro g rfl
    exact Generator.symbols_emitProgram h.wellFormed p
  refine ⟨hemit, fun text t' hgenerate => ?_⟩
  obtain rfl : t = t' := (hemit _ rfl).symm.trans (generate_eq_ok.1 hgenerate).2.2
  exact ⟨rfl, hgenerate⟩

/-- A text with a fault in the body of its second procedure; the first one holds a procedure of its
own name. -/
def faultySource : String :=
  "program p; procedure f; procedure f; begin end; begin end; procedure g(x: real); begin x := end"

/-- A program with other subprograms than the text, of names that clash. -/
def clashingProgram : Program :=
  let procedure (name : String) (nested : List Subprogram) : Subprogram :=
    ⟨.procedure, name, none, [], [], nested, [], .start⟩
  ⟨"q", [], [procedure "f" [procedure "f" [procedure "f" [], procedure "g" []], procedure "p" []],
    procedure "f" [], procedure "x" [], procedure "h" []], [], .start⟩

/-- Generation goes into two scopes named `f`, finds none for a third and for `g`, `p` and `x`, and
does not find `h`. -/
theorem clashingProgram_restored : ∃ (t : SymbolTable) (text : String), t.Made ∧ t.depth = 2 ∧
    ((Generator.new t).emitProgram clashingProgram).diagnostics =
      [.noLocalScope "f", .noLocalScope "g", .noLocalScope "p", .noLocalScope "x",
        .missingRoutine "h"] ∧
    clashingProgram.generate t = .ok (text, t) := by
  have hmade : (ofSource faultySource .empty).2.Made := .read .empty faultySource
  have hgenerate := generate_eq_ok.2 ⟨(by decide +kernel :
    ((Generator.new (ofSource faultySource .empty).2).emitProgram
      clashingProgram).counters.overdrawn = false), rfl, rfl⟩
  obtain ⟨htable, hagain⟩ := (generate_restores hmade clashingProgram).2 _ _ hgenerate
  rw [htable] at hagain
  exact ⟨_, _, hmade, by decide +kernel, by decide +kernel, hagain⟩

end Program

end PascalMips
