import PascalMips.Proofs.Lower.Chunks
import PascalMips.Proofs.Lower.Memory
import PascalMips.Proofs.Program.Cursor

/-!
# The parts of a generated program

The lines of a program are its data, its main part and then its routines (`lines_emitProgram`). Each
part has a body that comes in chunks and jumps to its own labels (`chunked_of_mem_parts`), between
lines that are the same for all parts of its kind. What a body refers to is there: the data of a
global variable (`dataLine_mem_of_mem_parts`), and the routine that a call is made to
(`exists_routine_of_mem_parts`).
-/

namespace PascalMips

/-! ## Parts -/

/-- A part of the code under a label of its own: lines that come first, those of a body, and lines
that come last. The body is written in the context `context`, has the uses `uses` and works in a
frame of `size` bytes. -/
structure Part where
  start : Label
  context : Context
  uses : List Use
  size : Nat
  head : List Line
  body : List Line
  tail : List Line

def Part.lines (part : Part) : List Line := part.head ++ (part.body ++ part.tail)

/-- The part of a routine that is written with the counters `c`. -/
def Routine.part (r : Routine) (c : Counters) : Part :=
  match r.layout with
  | .ok f => {
      start := r.start
      context := r.inside
      uses := Statement.usesAll r.sub.body
      size := r.frame.size
      head := .label r.start :: Lower.prologueLines f
      body := Lower.storeLines r.sub.name f.params Reg.arguments ++
        ((Statement.lowerAll r.sub.body r.inside c).lines ++ Lower.resultLines f.result)
      tail := Lower.epilogueLines f }
  | .error _ => {
      start := r.start
      context := r.inside
      uses := Statement.usesAll r.sub.body
      size := r.frame.size
      head := [.mark (.frameTooLarge r.sub.name), .label r.start]
      body := []
      tail := [.instr (.jr .ra)] }

/-- The lines of a routine's part are those that are written for it. -/
theorem Routine.lines_part (r : Routine) (c : Counters) : (r.part c).lines = (r.lower c).lines := by
  unfold part
  cases hlayout : r.layout with
  | ok f =>
    rw [lower_of_ok hlayout]
    simp only [Part.lines, List.cons_append, List.append_assoc]
  | error f =>
    rw [lower_of_error hlayout]
    rfl

theorem Routine.start_part (r : Routine) (c : Counters) : (r.part c).start = r.start := by
  unfold part
  cases r.layout <;> rfl

theorem Routine.context_part (r : Routine) (c : Counters) : (r.part c).context = r.inside := by
  unfold part
  cases r.layout <;> rfl

theorem Routine.uses_part (r : Routine) (c : Counters) :
    (r.part c).uses = Statement.usesAll r.sub.body := by
  unfold part
  cases r.layout <;> rfl

theorem Routine.size_part (r : Routine) (c : Counters) : (r.part c).size = r.frame.size := by
  unfold part
  cases r.layout <;> rfl

namespace Program

variable {source : String} {program p : Program} {symbols : SymbolTable}

/-- The main part of a program. -/
def mainPart (p : Program) (symbols : SymbolTable) : Part where
  start := .main
  context := p.context symbols
  uses := Statement.usesAll p.body
  size := 0
  head := [.directive .text, .directive .globalMain, .label .main]
  body := (Statement.lowerAll p.body (p.context symbols) (Generator.data p symbols).counters).lines
  tail := instrLines [.li .v0 Lower.Service.exit.code, .syscall]

/-- The parts of a program: the main part and the routines. -/
def parts (p : Program) (symbols : SymbolTable) : List Part :=
  p.mainPart symbols :: (p.written symbols).map fun w => w.1.part w.2

/-- A part is the main part or that of a routine. -/
theorem of_mem_parts {part : Part} (h : part ∈ p.parts symbols) :
    part = p.mainPart symbols ∨ ∃ r ∈ p.routines symbols, ∃ c, part = r.part c := by
  rcases List.mem_cons.1 h with h | h
  · exact .inl h
  · obtain ⟨w, hw, rfl⟩ := List.mem_map.1 h
    exact .inr ⟨w.1, Routine.mem_of_mem_written hw, w.2, rfl⟩

/-- The lines of the parts are those of the main part and of the routines. -/
theorem flatMap_parts (p : Program) (symbols : SymbolTable) :
    (p.parts symbols).flatMap Part.lines = (p.mainPart symbols).lines ++
      Routine.lines (p.routines symbols) (Generator.main p symbols).counters := by
  rw [parts, List.flatMap_cons, List.flatMap_map]
  exact congrArg _ (List.flatMap_congr fun w _ => w.1.lines_part w.2)

/-- A program is its data and its parts. -/
theorem lines_emitProgram (h : (p.context symbols).At p symbols []) :
    ((Generator.new symbols).emitProgram p).lines =
      (Generator.data p symbols).lines ++ (p.parts symbols).flatMap Part.lines := by
  rw [emitProgram_eq h, Generator.writeAll, flatMap_parts, Generator.main, Generator.run,
    List.append_assoc]
  rfl

/-! ## Data -/

/-- The line that reserves the words of a global variable. -/
def dataLine (symbols : SymbolTable) (v : Variable) : Line :=
  Generator.dataLine (.ofVariable v.name)
    ((symbols.global.lookup? v.name).bind (·.binding.bounds?))

/-- The data of variables that are declared is one line for each of them. -/
theorem lines_emitData {vars : List Variable} {g : Generator}
    (h : ∀ v ∈ vars, ∃ symbol, g.symbols.global.lookup? v.name = some symbol) :
    (g.emitData vars).lines = g.lines ++ vars.map (dataLine g.symbols) := by
  induction vars generalizing g with
  | nil => exact (List.append_nil _).symm
  | cons v vars ih =>
    obtain ⟨⟨symbol, hlookup⟩, hvars⟩ := List.forall_mem_cons.1 h
    have hemit : g.emitVariable v =
        (g.write (dataLine g.symbols v)).withStorage
          (g.context.storage.assign symbol.id (.global (.ofVariable v.name))) := by
      unfold Generator.emitVariable dataLine
      rw [hlookup]
      rfl
    have hrest : ((g.emitVariable v).emitData vars).lines =
        (g.emitVariable v).lines ++ vars.map (dataLine (g.emitVariable v).symbols) :=
      ih (by rw [hemit]; exact hvars)
    show ((g.emitVariable v).emitData vars).lines = _
    rw [hrest, hemit, List.map_cons, ← List.singleton_append, ← List.append_assoc]
    rfl

theorem symbols_context (p : Program) (symbols : SymbolTable) :
    (p.context symbols).symbols = symbols :=
  (Generator.resumes_emitData p.vars ((Generator.new symbols).write (.directive .data))).symbols

/-- The variables of a program are in the global scope, and the names there are distinct. -/
theorem global_of_at (h : (p.context symbols).At p symbols []) : symbols.global.names.Nodup ∧
    ∃ own vars routines, symbols.global = own :: (vars ++ routines) ∧
      List.Forall₂ Variable.Declares p.vars vars ∧
      List.Forall₂ Subprogram.Declares p.subprograms routines := by
  obtain ⟨own, vars, routines, hscopes, -, hvars, hroutines⟩ := h.opens
  rw [symbols_context] at hscopes
  have hglobal : symbols.global = own :: (vars ++ routines) := by
    have hlast : symbols.inner ++ [symbols.global] = [] ++ [own :: (vars ++ routines)] := hscopes
    exact (List.cons.inj (List.append_inj' hlast rfl).2).1
  refine ⟨?_, own, vars, routines, hglobal, hvars, hroutines⟩
  refine (h.wellFormed symbols.global ?_).nodup
  rw [symbols_context]
  exact List.mem_append_right _ List.mem_cons_self

/-- The data of a program that is declared in its table. -/
theorem lines_data (h : (p.context symbols).At p symbols []) :
    (Generator.data p symbols).lines = .directive .data :: p.vars.map (dataLine symbols) := by
  obtain ⟨hnodup, own, vars, routines, hglobal, hvars, -⟩ := global_of_at h
  refine lines_emitData (g := (Generator.new symbols).write (.directive .data)) fun v hv => ?_
  obtain ⟨symbol, hs, hdeclares⟩ := exists_of_mem_forall₂ hvars.flip hv
  refine ⟨symbol, ?_⟩
  rw [← hdeclares.name]
  refine Scope.lookup?_of_mem hnodup ?_
  rw [hglobal]
  exact List.mem_cons_of_mem _ (List.mem_append_left _ hs)

end Program

/-- A global variable with a place has its words there. -/
theorem Context.At.dataLine_mem {p : Program} {symbols : SymbolTable} {n : Nesting} {ctx : Context}
    (h : ctx.At p symbols n) {x : String} {symbol : Symbol} {place : Storage}
    (hlookup : ctx.symbols.lookup? x = some symbol)
    (hplace : ctx.storage.get? symbol.id = some place) : ∃ l, place = .global l ∧
      Generator.dataLine l symbol.binding.bounds? ∈ p.vars.map (Program.dataLine symbols) := by
  obtain ⟨last, global, v, hv, hlast, hglobal, hid, -, rfl, hfound⟩ :=
    h.placed symbol.id place hplace
  obtain ⟨depth, hfind⟩ := SymbolTable.lookup?_eq_some hlookup
  obtain ⟨scope, hscope, hmem⟩ := SymbolTable.mem_of_findIn hfind
  obtain rfl : global = symbol := h.distinct.eq_of_id_eq (List.mem_of_getLast? hlast) hglobal
    hscope (Scope.mem_of_lookup? hmem) hid
  refine ⟨_, rfl, List.mem_map.2 ⟨v, hv, ?_⟩⟩
  rw [Program.dataLine, hfound]
  rfl

namespace Context

/-- A name has a place if what it stands for has one. -/
theorem place?_eq_some {ctx : Context} {x : String} {place : Storage} {bounds? : Option Bounds}
    (h : ctx.place? x = some (place, bounds?)) : ∃ symbol, ctx.symbols.lookup? x = some symbol ∧
      ctx.storage.get? symbol.id = some place ∧ symbol.binding.bounds? = bounds? := by
  simp only [Context.place?, Option.bind_eq_some_iff, Option.map_eq_some_iff] at h
  obtain ⟨symbol, hlookup, _, hget, heq⟩ := h
  cases heq
  exact ⟨symbol, hlookup, hget, rfl⟩

end Context

/-! ## Bodies -/

namespace Routine

variable {p : Program} {symbols : SymbolTable} {r : Routine}

/-- The parameters have the places where they are stored. -/
theorem Stands.place_of_param (h : r.Stands p symbols) {f : Frame} (hf : r.layout = .ok f)
    {offset : Nat} (hoffset : offset ∈ f.params) :
    ∃ x bounds?, r.inside.place? x = some (.stack offset, bounds?) := by
  obtain ⟨params, locals, routines, rest, hscopes, -, hlays⟩ := h.lays
  rw [hf] at hlays
  obtain ⟨hholds, hparams, -⟩ := hlays
  obtain ⟨i, hi⟩ := List.mem_iff_getElem?.1 hoffset
  have hlt : i < params.length := by
    have hlength := (List.getElem?_eq_some_iff.1 hi).1
    rw [hparams, List.length_map, List.length_take] at hlength
    omega
  obtain ⟨other, hslot, hother⟩ := slot_of_param hholds hparams (List.getElem?_eq_getElem hlt)
  obtain rfl : other = offset := Option.some.inj (hother.symm.trans hi)
  have hnodup : r.frame.ids.Nodup := h.frameSound.nodup
  rw [frame_of_ok hf] at hnodup
  have hnames := (h.context.wellFormed _ (hscopes ▸ List.mem_cons_self)).nodup
  have hfind : r.context.symbols.lookupWithDepth? params[i].name =
      some (rest.length + 1, params[i]) := by
    rw [SymbolTable.lookupWithDepth?, hscopes]
    exact SymbolTable.findIn_cons_of_mem
      (Scope.lookup?_of_mem hnames (List.mem_append_left _ (List.getElem_mem hlt)))
  refine ⟨params[i].name, params[i].binding.bounds?, ?_⟩
  simp only [Context.place?, inside, SymbolTable.lookup?, hfind, Option.map_some, Option.bind_some,
    frame_of_ok hf, Frame.get?_assign_of_mem hnodup hslot]

/-- Parameters are stored to places of the frame, so the stores are chunks of the body. -/
theorem chunked_storeLines {ctx : Context} {uses : List Use} {targets : Label → Prop}
    {name : String} {offsets : List Nat} (h : ∀ offset ∈ offsets, ∃ x bounds?,
      ctx.place? x = some (.stack (offset : Nat), bounds?)) (regs : List Reg) :
    Chunked ctx uses targets (Lower.storeLines name offsets regs) := by
  induction offsets generalizing regs with
  | nil => exact .nil
  | cons offset offsets ih =>
    obtain ⟨⟨x, bounds?, hplace⟩, hoffsets⟩ := List.forall_mem_cons.1 h
    cases regs with
    | nil => exact .cons (.mark _) (ih hoffsets [])
    | cons reg regs => exact .cons (.store reg hplace) (ih hoffsets regs)

theorem chunked_resultLines {ctx : Context} {uses : List Use} {targets : Label → Prop}
    (result : Option Nat) : Chunked ctx uses targets (Lower.resultLines result) := by
  cases result with
  | none => exact .nil
  | some offset =>
    have hplain : (Instr.lw .v0 (.offset (offset : Nat) .sp)).IsPlain := nofun
    exact (Chunk.plain hplain).chunked

/-- The body of a routine is in chunks, from the stores of its parameters to the load of its result.
-/
theorem Stands.chunked_part (h : r.Stands p symbols) (c : Counters) :
    Chunked (r.part c).context (r.part c).uses (· ∈ labelsOf (r.part c).body) (r.part c).body := by
  unfold part
  cases hlayout : r.layout with
  | error f => exact .nil
  | ok f =>
    refine (chunked_storeLines (fun offset hoffset => h.place_of_param hlayout hoffset) _).append
      (((Statement.closed_lowerAll (fun _ hu => hu) c).mono ?_).append (chunked_resultLines _))
    intro l hl
    simp only [labelsOf_append]
    exact List.mem_append_right _ (List.mem_append_left _ hl)

/-- A place on the stack lies in the frame, with all its words. -/
theorem Stands.stack_le_size (h : r.Stands p symbols) {x : String} {offset : Int}
    {bounds? : Option Bounds} (hplace : r.inside.place? x = some (.stack offset, bounds?)) :
    0 ≤ offset ∧ offset + 4 * wordsOf bounds? ≤ r.frame.size := by
  obtain ⟨symbol, hlookup, hget, rfl⟩ := Context.place?_eq_some hplace
  obtain ⟨depth, hfind⟩ := SymbolTable.lookup?_eq_some hlookup
  obtain ⟨scope, hscope, hfound⟩ := SymbolTable.mem_of_findIn hfind
  have hsymbol := Scope.mem_of_lookup? hfound
  rcases Frame.of_get?_assign hget with ⟨offset, hslot, heq⟩ | ⟨-, hget⟩
  · cases heq
    have hwords : r.words symbol.id = wordsOf symbol.binding.bounds? := by
      rcases h.of_mem_ids (List.mem_map_of_mem hslot) with ⟨own, hown, hid, -⟩ | ⟨hid, -⟩
      · obtain rfl := h.context.distinct.eq_of_id_eq
          (SymbolTable.scopes_eq _ ▸ List.mem_cons_self) hown hscope hsymbol hid
        exact h.words_of_mem hown
      · obtain ⟨own, first, second, rest, houter, hown, hheads⟩ := h.own
        have hmem : first ++ own :: second ∈ r.context.symbols.scopes := by
          rw [SymbolTable.scopes_eq, houter]
          exact List.mem_cons_of_mem _ List.mem_cons_self
        obtain rfl := h.context.distinct.eq_of_id_eq hmem
          (List.mem_append_right _ List.mem_cons_self) hscope hsymbol (hown.trans hid.symm)
        rw [hown, h.words_id, hheads.bounds?_eq_none]
        rfl
    have hcontained : offset + wordSize * r.words symbol.id ≤ r.frame.size :=
      h.frameSound.contained _ hslot
    rw [hwords] at hcontained
    simp only [wordSize] at hcontained
    omega
  · obtain ⟨v, -, -, heq⟩ := h.context.hasGlobal hlookup hget
    cases heq

end Routine

namespace Program

variable {source : String} {program p : Program} {symbols : SymbolTable} {part : Part}

/-- The body of a part comes in chunks and jumps to its own labels. -/
theorem chunked_of_mem_parts (h : (p.context symbols).At p symbols [])
    (hpart : part ∈ p.parts symbols) :
    Chunked part.context part.uses (· ∈ labelsOf part.body) part.body := by
  rcases of_mem_parts hpart with rfl | ⟨r, hr, c, rfl⟩
  · exact Statement.closed_lowerAll (fun _ hu => hu) _
  · exact (stands_of_mem_routines h hr).chunked_part c

/-- Where a body refers to a global variable, the words of the variable are reserved. -/
theorem dataLine_mem_of_mem_parts (h : (p.context symbols).At p symbols [])
    (hpart : part ∈ p.parts symbols) {x : String} {l : Label} {bounds? : Option Bounds}
    (hplace : part.context.place? x = some (.global l, bounds?)) :
    Generator.dataLine l bounds? ∈ p.vars.map (dataLine symbols) := by
  have hat {n : Nesting} {ctx : Context} {symbol : Symbol} (hctx : ctx.At p symbols n)
      (hlookup : ctx.symbols.lookup? x = some symbol)
      (hget : ctx.storage.get? symbol.id = some (.global l)) :
      Generator.dataLine l symbol.binding.bounds? ∈ p.vars.map (dataLine symbols) := by
    obtain ⟨l', heq, hmem⟩ := hctx.dataLine_mem hlookup hget
    cases heq
    exact hmem
  rcases of_mem_parts hpart with rfl | ⟨r, hr, c, rfl⟩
  · obtain ⟨symbol, hlookup, hget, rfl⟩ := Context.place?_eq_some hplace
    exact hat h hlookup hget
  · rw [Routine.context_part] at hplace
    obtain ⟨symbol, hlookup, hget, rfl⟩ := Context.place?_eq_some hplace
    rcases Frame.of_get?_assign hget with ⟨offset, -, heq⟩ | ⟨-, hget⟩
    · cases heq
    · exact hat (stands_of_mem_routines h hr).context hlookup hget

/-- A body has places on the stack in its frame alone. -/
theorem stack_le_size_of_mem_parts (h : (p.context symbols).At p symbols [])
    (hpart : part ∈ p.parts symbols) {x : String} {offset : Int} {bounds? : Option Bounds}
    (hplace : part.context.place? x = some (.stack offset, bounds?)) :
    0 ≤ offset ∧ offset + 4 * wordsOf bounds? ≤ part.size := by
  rcases of_mem_parts hpart with rfl | ⟨r, hr, c, rfl⟩
  · obtain ⟨symbol, hlookup, hget, -⟩ := Context.place?_eq_some hplace
    obtain ⟨v, -, -, heq⟩ := h.hasGlobal hlookup hget
    cases heq
  · rw [Routine.context_part] at hplace
    rw [Routine.size_part]
    exact (stands_of_mem_routines h hr).stack_le_size hplace

/-- What has a place has words there. -/
theorem wordsOf_pos_of_mem_parts (h : (p.context symbols).At p symbols [])
    (hpart : part ∈ p.parts symbols) {x : String} {place : Storage} {bounds? : Option Bounds}
    (hplace : part.context.place? x = some (place, bounds?)) : 0 < wordsOf bounds? := by
  obtain ⟨symbol, hlookup, -, rfl⟩ := Context.place?_eq_some hplace
  obtain ⟨n, ctx, hat, hsymbols⟩ : ∃ n, ∃ ctx : Context, ctx.At p symbols n ∧
      part.context.symbols = ctx.symbols := by
    rcases of_mem_parts hpart with rfl | ⟨r, hr, c, rfl⟩
    · exact ⟨[], _, h, rfl⟩
    · rw [Routine.context_part]
      exact ⟨r.nesting, r.context, (stands_of_mem_routines h hr).context, rfl⟩
  rw [hsymbols] at hlookup
  obtain ⟨depth, hfind⟩ := SymbolTable.lookup?_eq_some hlookup
  obtain ⟨scope, hscope, hfound⟩ := SymbolTable.mem_of_findIn hfind
  cases hbounds : symbol.binding.bounds? with
  | none => exact Nat.one_pos
  | some bounds =>
    have hle := (hat.bounds_valid hscope (Scope.mem_of_lookup? hfound) hbounds).ordered
    show 0 < (bounds.hi - bounds.lo + 1).toNat
    omega

/-- What a body takes elements of and has a place is an array. -/
theorem bounds_of_mem_parts (h : parse source = .ok (program, symbols))
    (hp : p = program ∨ p = program.fold) (hpart : part ∈ p.parts symbols) {x : String}
    {place : Storage} {bounds? : Option Bounds} (huse : .element x ∈ part.uses)
    (hplace : part.context.place? x = some (place, bounds?)) :
    ∃ bounds, bounds? = some bounds := by
  have hat := at_of_parse h hp
  rcases of_mem_parts hpart with rfl | ⟨r, hr, c, rfl⟩
  · obtain ⟨symbol, hlookup, -, rfl⟩ := Context.place?_eq_some hplace
    obtain ⟨found, hfound, hbounds | ⟨hhides, -⟩⟩ := hat.resolves h hp huse
    · obtain rfl : found = symbol := Option.some.inj (hfound.symm.trans hlookup)
      exact hbounds
    · exact hhides.elim
  · rw [Routine.context_part] at hplace
    rw [Routine.uses_part] at huse
    have hstands := stands_of_mem_routines hat hr
    exact hstands.bounds_of_element (hstands.context.resolves h hp huse) hplace

end Program

/-! ## Calls -/

/-- The names of a nesting in another one come after the names of that. -/
theorem Nesting.path_append (n m : Nesting) : path (n ++ m) = path m ++ path n := by
  induction n with
  | nil => exact (List.append_nil _).symm
  | cons level n ih =>
    show path (n ++ m) ++ [level.sub.name] = _
    rw [ih, List.append_assoc]
    rfl

theorem Program.Has.of_append {p : Program} {n m : Nesting} (h : p.Has (n ++ m)) : p.Has m := by
  induction n with
  | nil => exact h
  | cons level n ih => exact ih h.2

/-- The scopes around a block are those of the blocks around it. -/
theorem Nesting.Opens.around {p : Program} {R : Subprogram → Symbol → Prop} {n : Nesting}
    {within outer : List Scope} {scope : Scope} (h : n.Opens p R (within ++ scope :: outer))
    (hR : ∀ s symbol, R s symbol → s.Heads symbol) : ∃ more m, n = more ++ m ∧
      m.Opens p Subprogram.Heads (scope :: outer) := by
  induction within generalizing n R with
  | nil =>
    obtain ⟨first, routines, rest, hscopes, hsubs, -, hreplace⟩ := h.split
    refine ⟨[], n, rfl, ?_⟩
    rw [List.nil_append] at hscopes
    rw [hscopes]
    exact hreplace routines (hsubs.imp hR)
  | cons innermost within ih =>
    cases n with
    | nil =>
      obtain ⟨own, vars, routines, hscopes, -⟩ := h
      exact absurd (List.cons.inj hscopes).2
        (List.append_ne_nil_of_right_ne_nil within (List.cons_ne_nil scope outer))
    | cons level n =>
      obtain ⟨params, locals, routines, rest, hscopes, -, -, -, houter⟩ := h
      rw [← (List.cons.inj hscopes).2] at houter
      obtain ⟨more, m, rfl, hm⟩ := ih houter fun _ _ h => h
      exact ⟨level :: more, m, rfl, hm⟩

/-- What is found as a subprogram is one that a block around declares. -/
theorem Context.At.declares_of_find {p : Program} {symbols : SymbolTable} {n : Nesting}
    {ctx : Context} (h : ctx.At p symbols n) {x : String} {depth : Nat} {symbol : Symbol}
    {params : List ValueType} (hfind : ctx.symbols.lookupWithDepth? x = some (depth, symbol))
    (hparams : symbol.binding.params? = some params) : ∃ level outer, p.Has (level :: outer) ∧
      Lower.routineLabel ctx.path depth x = .ofRoutine (Nesting.path (level :: outer)) := by
  obtain ⟨within, scope, rest, hscopes, hdepth, hfound⟩ := SymbolTable.split_of_findIn hfind
  have hopens := h.opens
  rw [hscopes] at hopens
  obtain ⟨more, m, rfl, hm⟩ := hopens.around fun _ _ h => h.heads
  have hlength := hm.length
  obtain ⟨first, routines, outer, heq, hsubs, hfirst, -⟩ := hm.split
  obtain ⟨rfl, rfl⟩ := List.cons.inj heq
  have hsymbol : symbol ∈ routines := by
    refine (List.mem_append.1 (Scope.mem_of_lookup? hfound)).resolve_left fun hmem => ?_
    have hvar := hfirst symbol hmem
    cases hbinding : symbol.binding <;> rw [hbinding] at hparams hvar <;> cases hparams <;>
      cases hvar
  obtain ⟨s, hs, hheads⟩ := exists_of_mem_forall₂ hsubs hsymbol
  obtain ⟨before, after, hsplit⟩ := List.append_of_mem hs
  refine ⟨⟨before, s, after⟩, m, ⟨hsplit, h.has.of_append⟩, ?_⟩
  have htake : ctx.path.take (depth - 1) = m.path := by
    rw [h.path, Nesting.path_append, hdepth, Nat.add_sub_cancel]
    rw [List.length_cons] at hlength
    exact List.take_left' (by rw [Nesting.length_path]; omega)
  rw [Lower.routineLabel, htake, Nesting.path, ← hheads.name, Scope.name_of_lookup? hfound]

namespace Context

/-- The routines of one subprogram are among those of all subprograms of the block. -/
theorem routinesOf_subset {ctx : Context} {outer : Nesting} (first : List Subprogram)
    {before after : List Subprogram} {s : Subprogram} :
    ctx.routinesOf outer (first ++ before) after s ⊆
      ctx.routines outer first (before ++ s :: after) := by
  induction before generalizing first with
  | nil =>
    rw [List.append_nil, List.nil_append, routines]
    exact List.subset_append_left _ _
  | cons t before ih =>
    rw [List.cons_append, routines, List.append_cons]
    exact List.Subset.trans (ih _) (List.subset_append_right _ _)

end Context

namespace Program

variable {source : String} {program p : Program} {symbols : SymbolTable} {part : Part}

/-- The routines of every block are routines of the program. -/
theorem exists_at_of_has (h : (p.context symbols).At p symbols []) {n : Nesting} (hn : p.Has n) :
    ∃ ctx : Context, ctx.At p symbols n ∧
      ctx.routines n [] (p.subprogramsAt n) ⊆ p.routines symbols := by
  induction n with
  | nil => exact ⟨_, h, List.Subset.refl _⟩
  | cons level outer ih =>
    obtain ⟨hsplit, houter⟩ := hn
    obtain ⟨ctx, hat, hsubset⟩ := ih houter
    obtain ⟨start, id, inner, henter, hstands⟩ := hat.enter hsplit
    refine ⟨inner, hstands.context, fun r hr => hsubset ?_⟩
    rw [hsplit]
    refine Context.routinesOf_subset [] ?_
    rw [Generator.routinesOf_of_enter? henter]
    exact List.mem_cons_of_mem _ hr

/-- Every subprogram is written as a routine. -/
theorem exists_routine_of_has (h : (p.context symbols).At p symbols []) {level : Level}
    {outer : Nesting} (hn : p.Has (level :: outer)) : ∃ r ∈ p.routines symbols,
      r.nesting = level :: outer ∧ r.start = .ofRoutine (Nesting.path (level :: outer)) := by
  obtain ⟨hsplit, houter⟩ := hn
  obtain ⟨ctx, hat, hsubset⟩ := exists_at_of_has h houter
  obtain ⟨start, id, inner, henter, hstands⟩ := hat.enter hsplit
  refine ⟨_, hsubset ?_, rfl, hstands.start⟩
  rw [hsplit]
  refine Context.routinesOf_subset [] ?_
  rw [Generator.routinesOf_of_enter? henter]
  exact List.mem_cons_self

/-- A call in a body is made to a routine. -/
theorem exists_routine_of_mem_parts (h : parse source = .ok (program, symbols))
    (hp : p = program ∨ p = program.fold) (hpart : part ∈ p.parts symbols) {x : String}
    {count : Nat} {l : Label} {params : List ValueType} (huse : .call x count ∈ part.uses)
    (hcallee : part.context.callee? x count = some (l, params)) :
    ∃ r ∈ p.routines symbols, r.start = l := by
  have hprogram := at_of_parse h hp
  have hat {n : Nesting} {ctx : Context} (hctx : ctx.At p symbols n)
      (huse : .call x count ∈ Statement.usesAll (p.bodyAt n))
      (hcallee : ctx.callee? x count = some (l, params)) :
      ∃ r ∈ p.routines symbols, r.start = l := by
    obtain ⟨depth, symbol, declared, hfind, hparams, -⟩ := hctx.resolves h hp huse
    obtain ⟨level, outer, hhas, hlabel⟩ := hctx.declares_of_find hfind hparams
    obtain ⟨r, hr, -, hstart⟩ := exists_routine_of_has hprogram hhas
    refine ⟨r, hr, ?_⟩
    unfold Context.callee? at hcallee
    split at hcallee
    · cases hcallee
    · rw [hfind, Option.map_some] at hcallee
      cases hcallee
      rw [hstart, hlabel]
  rcases of_mem_parts hpart with rfl | ⟨r, hr, c, rfl⟩
  · exact hat hprogram huse hcallee
  · rw [Routine.context_part] at hcallee
    rw [Routine.uses_part] at huse
    exact hat (stands_of_mem_routines hprogram hr).context huse hcallee

end Program

end PascalMips
