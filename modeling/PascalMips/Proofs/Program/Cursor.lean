import PascalMips.Proofs.Program.Bodies
import PascalMips.Proofs.Statement.Cursor

/-!
# Numbers that come up while a program is written

Frames and arrays are as large as 32-bit offsets and bounds allow. The cursor comes back to where it
was after all operands, indices and arguments, and is at the first register before and after each
statement of the main part and of every routine, exactly if no call has more arguments than the
subprogram it is made to has parameters; and exactly then there is an assembly at all
(`Program.numbersInRange_of_parse`). The parser sees to that for the subprogram it finds; a call can
be made to another one where the name comes to be hidden (`Program.shortCallSource_overdrawn`).
-/

namespace PascalMips

/-- The events of a routine that is written with the counters `c`. The body of a subprogram whose
frame does not fit is not written. -/
def Routine.trace (r : Routine) (c : Counters) : List CursorEvent :=
  match r.layout with
  | .ok _ => Statement.traceAll r.inside r.sub.body c
  | .error _ => []

namespace Program

/-- The events of the main part of a program. -/
def traceMain (p : Program) (symbols : SymbolTable) : List CursorEvent :=
  Statement.traceAll (p.context symbols) p.body (Generator.data p symbols).counters

/-- The routines of a program with the counters that each is written with. -/
def written (p : Program) (symbols : SymbolTable) : List (Routine × Counters) :=
  Routine.written (p.routines symbols) (Generator.main p symbols).counters

/-- The events of a program. -/
def trace (p : Program) (symbols : SymbolTable) : List CursorEvent :=
  p.traceMain symbols ++ (p.written symbols).flatMap fun w => w.1.trace w.2

end Program

theorem Generator.counters_emitData (vars : List Variable) (g : Generator) :
    (g.emitData vars).counters = g.counters := by
  induction vars generalizing g with
  | nil => rfl
  | cons v vars ih =>
    rw [emitData, List.foldl_cons, ← emitData, ih]
    unfold emitVariable
    split <;> rfl

theorem Generator.counters_main (p : Program) (symbols : SymbolTable) :
    (main p symbols).counters = (Statement.lowerAll p.body (p.context symbols)
      (data p symbols).counters).counters :=
  rfl

namespace Routine

theorem mem_of_mem_written {rs : List Routine} {c : Counters} {w : Routine × Counters}
    (h : w ∈ written rs c) : w.1 ∈ rs := by
  induction rs generalizing c with
  | nil => cases h
  | cons r rs ih =>
    rcases List.mem_cons.1 h with rfl | h
    · exact List.mem_cons_self
    · exact List.mem_cons_of_mem _ (ih h)

theorem moves_trace (r : Routine) {c : Counters} (hc : c.cursor = 0) :
    CursorMoves c (r.lower c).counters 0 (r.trace c) := by
  unfold trace
  cases hlayout : r.layout with
  | ok f =>
    rw [lower_of_ok hlayout]
    exact Statement.moves_traceAll r.sub.body hc
  | error f =>
    rw [lower_of_error hlayout]
    exact .refl c

/-- How routines that are written one after the other move the cursor. -/
theorem moves_written (rs : List Routine) {c : Counters} (hc : c.cursor = 0) :
    CursorMoves c (after rs c) 0 ((written rs c).flatMap fun w => w.1.trace w.2) := by
  induction rs generalizing c with
  | nil => exact .refl c
  | cons r rs ih =>
    have hr := r.moves_trace hc
    exact hr.append (ih (hr.rests hc))

/-- Every routine is written from the first register on. -/
theorem cursor_of_mem_written {rs : List Routine} {c : Counters} (hc : c.cursor = 0)
    {w : Routine × Counters} (h : w ∈ written rs c) : w.2.cursor = 0 := by
  induction rs generalizing c with
  | nil => cases h
  | cons r rs ih =>
    rcases List.mem_cons.1 h with rfl | h
    · exact hc
    · exact ih ((r.moves_trace hc).rests hc) h

theorem from_of_mem_trace {r : Routine} {c : Counters} {event : CursorEvent}
    (h : event ∈ r.trace c) : event.From r.inside (Statement.usesAll r.sub.body) := by
  unfold trace at h
  split at h
  · exact Statement.from_of_mem_traceAll h
  · cases h

end Routine

/-- A call to the subprogram that the parser found is fed. -/
theorem CursorEvent.From.fed_or_hides {ctx : Context} {uses : List Use} {n : Nesting}
    {event : CursorEvent} (h : event.From ctx uses) (huses : ∀ u ∈ uses, u.Resolves n ctx.symbols) :
    event.Fed ∨ ∃ name base reached count params, event = .call name base reached count params ∧
      n.Hides name [] := by
  cases event with
  | rest => exact .inl trivial
  | release => exact .inl trivial
  | call name base reached count params =>
    obtain ⟨huse, found, hfound, rfl⟩ := h
    obtain ⟨depth, symbol, declared, hfind, hparams, hcount⟩ := huses _ huse
    obtain rfl : found = (depth, symbol) := Option.some.inj (hfound.symm.trans hfind)
    rcases hcount with hhides | rfl
    · exact .inr ⟨_, _, _, _, _, rfl, hhides⟩
    · refine .inl ?_
      simp only [Fed, hparams, Option.getD_some, Nat.le_refl]

namespace Program

/-- What is known of the numbers that come up while `p` is written: offsets in frames have 32 bits,
arrays have at least one element and at most as many as there are 32-bit numbers, no more registers
are given back than were taken exactly if all calls are fed, and exactly then the cursor always comes
back to where it was. Calls are fed where the name is not hidden. -/
structure NumbersInRange (p : Program) (symbols : SymbolTable) : Prop where
  written : (Generator.new symbols).emitProgram p =
    (Generator.main p symbols).writeAll (p.routines symbols)
  frames : ∀ r ∈ p.routines symbols, r.frame.size < 2147483648
  arrays : ∀ ctx, (ctx = p.context symbols ∨ ∃ r ∈ p.routines symbols, ctx = r.context) →
    ∀ symbol ∈ ctx.symbols.current, ∀ bounds, symbol.binding.bounds? = some bounds →
      1 ≤ bounds.hi - bounds.lo + 1 ∧ bounds.hi - bounds.lo + 1 ≤ 4294967296
  completes_iff : (∃ out, p.generate symbols = .ok out) ↔ ∀ event ∈ p.trace symbols, event.Fed
  sound_iff : (∀ event ∈ p.trace symbols, event.Sound) ↔ ∀ event ∈ p.trace symbols, event.Fed
  main : ∀ event ∈ p.traceMain symbols, event.Fed
  routines : ∀ w ∈ p.written symbols, ∀ event ∈ w.1.trace w.2, event.Fed ∨
    ∃ name base reached count params, event = .call name base reached count params ∧
      w.1.nesting.Hides name []

theorem counters_data (p : Program) (symbols : SymbolTable) :
    (Generator.data p symbols).counters = .start := by
  rw [Generator.data, Generator.counters_emitData]
  rfl

theorem moves_traceMain (p : Program) (symbols : SymbolTable) :
    CursorMoves .start (Generator.main p symbols).counters 0 (p.traceMain symbols) := by
  rw [traceMain, counters_data, Generator.counters_main, counters_data]
  exact Statement.moves_traceAll p.body rfl

theorem cursor_of_mem_written {p : Program} {symbols : SymbolTable} {w : Routine × Counters}
    (h : w ∈ p.written symbols) : w.2.cursor = 0 :=
  Routine.cursor_of_mem_written ((p.moves_traceMain symbols).rests rfl) h

/-- How a program, from start to end, moves the cursor. -/
theorem moves_trace {p : Program} {symbols : SymbolTable}
    (hat : (p.context symbols).At p symbols []) :
    CursorMoves .start ((Generator.new symbols).emitProgram p).counters 0 (p.trace symbols) := by
  have hmain := p.moves_traceMain symbols
  rw [emitProgram_eq hat]
  exact hmain.append (Routine.moves_written _ (hmain.rests rfl))

theorem exists_generate_iff {p : Program} {symbols : SymbolTable} :
    (∃ out, p.generate symbols = .ok out) ↔
      ((Generator.new symbols).emitProgram p).counters.overdrawn = false := by
  constructor
  · rintro ⟨⟨text, symbols'⟩, h⟩
    exact (generate_eq_ok.1 h).1
  · intro h
    exact ⟨(_, _), generate_eq_ok.2 ⟨h, rfl, rfl⟩⟩

/-- The numbers in every program read from a text, folded or not. -/
theorem numbersInRange_of_parse {source : String} {program p : Program} {symbols : SymbolTable}
    (h : parse source = .ok (program, symbols)) (hp : p = program ∨ p = program.fold) :
    p.NumbersInRange symbols := by
  have hat := at_of_parse h hp
  refine {
    written := emitProgram_eq hat
    frames := fun r hr => ?_
    arrays := ?_
    completes_iff := exists_generate_iff.trans ((moves_trace hat).overdrawn_iff rfl rfl)
    sound_iff := (moves_trace hat).sound_iff
    main := fun event hmem => ?_
    routines := fun w hw event hmem => ?_ }
  · obtain ⟨_, _, _, _, _, _, _, _, hholds⟩ := (stands_of_mem_routines hat hr).holds
    exact hholds.fits
  · intro ctx hctx symbol hs bounds hbounds
    have hvalid : bounds.Valid := by
      rcases hctx with rfl | ⟨r, hr, rfl⟩
      · exact hat.bounds_valid (SymbolTable.scopes_eq _ ▸ List.mem_cons_self) hs hbounds
      · exact (stands_of_mem_routines hat hr).context.bounds_valid
          (SymbolTable.scopes_eq _ ▸ List.mem_cons_self) hs hbounds
    have := hvalid.ordered
    have hlo := hvalid.lo
    have hhi := hvalid.hi
    unfold Literal.InRange at hlo hhi
    omega
  · refine ((Statement.from_of_mem_traceAll hmem).fed_or_hides fun u hu =>
      hat.resolves h hp hu).resolve_right ?_
    rintro ⟨name, _, _, _, _, -, hhides⟩
    exact hhides
  · have hstands := stands_of_mem_routines hat (Routine.mem_of_mem_written hw)
    have hresolves : ∀ u ∈ Statement.usesAll w.1.sub.body,
        u.Resolves w.1.nesting w.1.context.symbols := fun u hu =>
      hstands.context.resolves h hp hu
    exact (Routine.from_of_mem_trace hmem).fed_or_hides hresolves

/-- Calls in arguments of a call, in operands and in an index. -/
def nestedCallsSource : String :=
  "program p; var x: integer; a: array [1:3] of integer; " ++
  "function f(y, z: integer): integer; begin if y < z then f := y else f := f(z, y) end; " ++
  "begin a[f(1, 2)] := f(1, f(2, 3)) * 2; x := a[f(3, 1)] end."

theorem nestedCallsSource_numbersInRange :
    ∃ program symbols, parse nestedCallsSource = .ok (program, symbols) ∧
      (∀ event ∈ program.fold.trace symbols, event.Fed) ∧
      CursorEvent.call "f" 3 5 2 2 ∈ program.fold.trace symbols ∧
      program.fold.NumbersInRange symbols := by
  have htrace : (parse nestedCallsSource).toOption.map (fun parsed =>
      decide (∀ event ∈ parsed.1.fold.trace parsed.2, event.Fed) &&
        decide (CursorEvent.call "f" 3 5 2 2 ∈ parsed.1.fold.trace parsed.2)) = some true := by
    decide +kernel
  obtain ⟨program, symbols, hparse, hboth⟩ := exists_of_parse_map htrace
  rw [Bool.and_eq_true, decide_eq_true_eq, decide_eq_true_eq] at hboth
  exact ⟨program, symbols, hparse, hboth.1, hboth.2, numbersInRange_of_parse hparse (.inr rfl)⟩

/-- In the body of `c` the parser knows the first `a`, with a parameter. When `c` is written, the `a`
declared after `c`, without parameters, hides it. -/
def shortCallSource : String :=
  "program p; procedure a(x: integer); begin end; procedure b; procedure c; begin a(1); write(2) " ++
  "end; procedure a; begin end; begin c end; begin b end."

/-- The argument is not evaluated, no register is taken for it, and one is given back: there is no
assembly for the program, folded or not. -/
theorem shortCallSource_overdrawn :
    ∃ program symbols, parse shortCallSource = .ok (program, symbols) ∧
      CursorEvent.call "a" 0 0 1 0 ∈ program.trace symbols ∧
      program.generate symbols = .error .overdrawn ∧
      program.fold.generate symbols = .error .overdrawn := by
  have htrace : (parse shortCallSource).toOption.map (fun parsed =>
      decide (CursorEvent.call "a" 0 0 1 0 ∈ parsed.1.trace parsed.2) &&
        (((Generator.new parsed.2).emitProgram parsed.1).counters.overdrawn &&
          ((Generator.new parsed.2).emitProgram parsed.1.fold).counters.overdrawn)) = some true := by
    decide +kernel
  obtain ⟨program, symbols, hparse, hall⟩ := exists_of_parse_map htrace
  simp only [Bool.and_eq_true, decide_eq_true_eq] at hall
  exact ⟨program, symbols, hparse, hall.1, generate_eq_error.2 hall.2.1,
    generate_eq_error.2 hall.2.2⟩

end Program

end PascalMips
