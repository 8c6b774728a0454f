import PascalMips.Proofs.Lower.Frame
import PascalMips.Proofs.Program.Resolution

/-!
# A program is written routine by routine

The generator goes in and out of scopes and gives places to variables and takes them away again. For
a program that is declared in its table this comes to the following: each subprogram is one routine,
written in a context of its own that depends on nothing but the declarations around it, and the
routines follow one another in the order of the text (`emitProgram_eq`).

`Context.At` says what that context is at a block: the scopes of the blocks around it are open, all
numbers in them are distinct, and only the variables of the program have places.
-/

namespace PascalMips

/-! ## Routines -/

/-- A subprogram as it is written: where it stands in the program, its label, the number of its
symbol, and the context in its scope, where its variables have no places yet. -/
structure Routine where
  level : Level
  outer : Nesting
  start : Label
  id : Nat
  context : Context

namespace Routine

def sub (r : Routine) : Subprogram := r.level.sub

def nesting (r : Routine) : Nesting := r.level :: r.outer

def layout (r : Routine) : Except Frame Frame :=
  Frame.layout r.context.symbols.current r.sub.kind r.id r.sub.args r.sub.vars

/-- The frame, or as much of it as could be laid out. -/
def frame (r : Routine) : Frame :=
  match r.layout with
  | .ok f => f
  | .error f => f

/-- The context in which the code is written: the variables have their places in the frame. -/
def inside (r : Routine) : Context :=
  { r.context with storage := r.frame.assign r.context.storage }

def code (r : Routine) : Lower Unit :=
  match r.layout with
  | .ok f => Lower.routine r.start r.sub.name f r.sub.body
  | .error _ => Lower.oversizedRoutine r.start r.sub.name

/-- The code, written with the counters `c`. -/
def lower (r : Routine) (c : Counters) : Lowered Unit := r.code r.inside c

/-- A routine with a frame is its label, the prologue, the stores of its parameters, its body and
the epilogue. -/
theorem lower_of_ok {r : Routine} {f : Frame} (hf : r.layout = .ok f) (c : Counters) :
    r.lower c = ⟨(), (Statement.lowerAll r.sub.body r.inside c).counters, .label r.start ::
      (Lower.prologueLines f ++ (Lower.storeLines r.sub.name f.params Reg.arguments ++
        ((Statement.lowerAll r.sub.body r.inside c).lines ++
          (Lower.resultLines f.result ++ Lower.epilogueLines f))))⟩ := by
  rw [lower, code, hf]
  exact Lower.routine_apply r.inside c r.start r.sub.name f r.sub.body

/-- A routine without a frame is a mark, its label and a return. -/
theorem lower_of_error {r : Routine} {f : Frame} (hf : r.layout = .error f) (c : Counters) :
    r.lower c =
      ⟨(), c, [.mark (.frameTooLarge r.sub.name), .label r.start, .instr (.jr .ra)]⟩ := by
  rw [lower, code, hf]
  exact Lower.oversizedRoutine_apply r.inside c r.start r.sub.name

theorem frame_of_ok {r : Routine} {f : Frame} (hf : r.layout = .ok f) : r.frame = f := by
  rw [frame, hf]

/-- The counters after routines are written. -/
def after : List Routine → Counters → Counters
  | [], c => c
  | r :: rs, c => after rs (r.lower c).counters

/-- Routines with the counters that each of them is written with. -/
def written : List Routine → Counters → List (Routine × Counters)
  | [], _ => []
  | r :: rs, c => (r, c) :: written rs (r.lower c).counters

/-- The lines of routines. -/
def lines (rs : List Routine) (c : Counters) : List Line :=
  (written rs c).flatMap fun (r, c) => (r.lower c).lines

/-- Counters are handed on from the first routines to the others. -/
theorem after_append (rs ss : List Routine) (c : Counters) :
    after (rs ++ ss) c = after ss (after rs c) := by
  induction rs generalizing c with
  | nil => rfl
  | cons r rs ih => exact ih _

/-- So they are for the routines that are written after others. -/
theorem written_append (rs ss : List Routine) (c : Counters) :
    written (rs ++ ss) c = written rs c ++ written ss (after rs c) := by
  induction rs generalizing c with
  | nil => rfl
  | cons r rs ih => exact congrArg ((r, c) :: ·) (ih _)

theorem lines_append (rs ss : List Routine) (c : Counters) :
    lines (rs ++ ss) c = lines rs c ++ lines ss (after rs c) := by
  rw [lines, written_append, List.flatMap_append]
  rfl

theorem lines_cons (r : Routine) (rs : List Routine) (c : Counters) :
    lines (r :: rs) c = (r.lower c).lines ++ lines rs (r.lower c).counters :=
  rfl

end Routine

namespace Context

/-- The label and the number of the subprogram `name`, and the context in its scope. -/
def enter? (ctx : Context) (name : String) : Option (Label × Nat × Context) := do
  let (depth, symbol) ← ctx.symbols.lookupWithDepth? name
  let (scope, symbols) ← ctx.symbols.detach? name
  return (Lower.routineLabel ctx.path depth name, symbol.id,
    ⟨symbols.push scope, ctx.storage, ctx.path ++ [name]⟩)

mutual

/-- The routines of a subprogram, which stands between those `before` it and `after` it. -/
def routinesOf (ctx : Context) (outer : Nesting) (before after : List Subprogram) :
    Subprogram → List Routine
  | ⟨kind, name, returns, args, vars, subprograms, body, location⟩ =>
    match ctx.enter? name with
    | none => []
    | some (start, id, inner) =>
      let level := ⟨before, ⟨kind, name, returns, args, vars, subprograms, body, location⟩, after⟩
      ⟨level, outer, start, id, inner⟩ :: inner.routines (level :: outer) [] subprograms

/-- The routines of subprograms, which follow those `before` them. -/
def routines (ctx : Context) (outer : Nesting) (before : List Subprogram) :
    List Subprogram → List Routine
  | [] => []
  | s :: ss => ctx.routinesOf outer before ss s ++ ctx.routines outer (before ++ [s]) ss

end

end Context

namespace Generator

/-- Writes routines and stays where it is. -/
def writeAll (g : Generator) (rs : List Routine) : Generator :=
  ⟨g.context, Routine.after rs g.counters, g.lines ++ Routine.lines rs g.counters⟩

theorem writeAll_nil (g : Generator) : g.writeAll [] = g := by
  unfold writeAll
  rw [show Routine.lines [] g.counters = [] from rfl, List.append_nil]
  rfl

theorem writeAll_writeAll (g : Generator) (rs ss : List Routine) :
    (g.writeAll rs).writeAll ss = g.writeAll (rs ++ ss) := by
  simp only [writeAll, Routine.after_append, Routine.lines_append, List.append_assoc]

end Generator

/-! ## Contexts of blocks -/

/-- The open scopes at a block: each holds the parameters, variables and subprograms of a block
around it, the innermost those of the block itself. The subprograms of the block are related to
their symbols by `R`; around it some are open. -/
def Nesting.Opens (p : Program) (R : Subprogram → Symbol → Prop) : Nesting → List Scope → Prop
  | [], scopes => ∃ own vars routines, scopes = [own :: (vars ++ routines)] ∧
      own.binding = .program ∧ List.Forall₂ Variable.Declares p.vars vars ∧
      List.Forall₂ R p.subprograms routines
  | level :: outer, scopes => ∃ params locals routines rest,
      scopes = (params ++ (locals ++ routines)) :: rest ∧
      List.Forall₂ Variable.DeclaresParam level.sub.args params ∧
      List.Forall₂ Variable.Declares level.sub.vars locals ∧
      List.Forall₂ R level.sub.subprograms routines ∧ Opens p Subprogram.Heads outer rest

/-- The symbol of a variable is no subprogram. -/
theorem Variable.Declares.isRoutine {v : Variable} {symbol : Symbol} (h : v.Declares symbol) :
    symbol.binding.isRoutine = false := by
  rcases h.binding with hscalar | ⟨bounds, harray, -⟩
  · rw [hscalar]
    rfl
  · rw [harray]
    rfl

theorem Variable.DeclaresParam.isRoutine {v : Variable} {symbol : Symbol}
    (h : v.DeclaresParam symbol) : symbol.binding.isRoutine = false := by
  rw [h.binding]
  rfl

/-- Every symbol of the second list is related to some item of the first. -/
theorem exists_of_mem_forall₂ {α β : Type} {R : α → β → Prop} {as : List α} {bs : List β}
    (h : List.Forall₂ R as bs) {b : β} (hb : b ∈ bs) : ∃ a ∈ as, R a b := by
  induction h with
  | nil => cases hb
  | cons hab _ ih =>
    rcases List.mem_cons.1 hb with rfl | hb
    · exact ⟨_, List.mem_cons_self, hab⟩
    · obtain ⟨a, ha, hR⟩ := ih hb
      exact ⟨a, List.mem_cons_of_mem _ ha, hR⟩

/-- At a block, there is one open scope for each level of nesting, and the global one. -/
theorem Nesting.Opens.length {p : Program} {R : Subprogram → Symbol → Prop} {n : Nesting}
    {scopes : List Scope} (h : n.Opens p R scopes) : scopes.length = n.length + 1 := by
  induction n generalizing R scopes with
  | nil =>
    obtain ⟨own, vars, routines, rfl, -⟩ := h
    rfl
  | cons level outer ih =>
    obtain ⟨params, locals, routines, rest, rfl, -, -, -, houter⟩ := h
    exact congrArg (· + 1) (ih houter)

/-- The subprograms of a block are the last symbols of its scope, and the only ones that stand for
subprograms. Another list of symbols can take their place. -/
theorem Nesting.Opens.split {p : Program} {R : Subprogram → Symbol → Prop} {n : Nesting}
    {scopes : List Scope} (h : n.Opens p R scopes) : ∃ first routines rest,
      scopes = (first ++ routines) :: rest ∧ List.Forall₂ R (p.subprogramsAt n) routines ∧
      (∀ symbol ∈ first, symbol.binding.isRoutine = false) ∧
      ∀ {R'} routines', List.Forall₂ R' (p.subprogramsAt n) routines' →
        n.Opens p R' ((first ++ routines') :: rest) := by
  cases n with
  | nil =>
    obtain ⟨own, vars, routines, rfl, hown, hvars, hsubs⟩ := h
    refine ⟨own :: vars, routines, [], rfl, hsubs, ?_, fun routines' hsubs' =>
      ⟨own, vars, routines', rfl, hown, hvars, hsubs'⟩⟩
    intro symbol hs
    rcases List.mem_cons.1 hs with rfl | hs
    · rw [hown]
      rfl
    · obtain ⟨v, -, hv⟩ := exists_of_mem_forall₂ hvars hs
      exact hv.isRoutine
  | cons level outer =>
    obtain ⟨params, locals, routines, rest, rfl, hparams, hlocals, hsubs, houter⟩ := h
    refine ⟨params ++ locals, routines, rest, by rw [List.append_assoc], hsubs, ?_,
      fun routines' hsubs' => ⟨params, locals, routines', rest, by rw [List.append_assoc], hparams,
        hlocals, hsubs', houter⟩⟩
    intro symbol hs
    rcases List.mem_append.1 hs with hs | hs
    · obtain ⟨v, -, hv⟩ := exists_of_mem_forall₂ hparams hs
      exact hv.isRoutine
    · obtain ⟨v, -, hv⟩ := exists_of_mem_forall₂ hlocals hs
      exact hv.isRoutine

/-- The bounds of a declared array are in order. -/
theorem Variable.Declares.bounds_valid {v : Variable} {symbol : Symbol} {bounds : Bounds}
    (h : v.Declares symbol) (hbounds : symbol.binding.bounds? = some bounds) : bounds.Valid := by
  rcases h.binding with hscalar | ⟨declared, harray, hvalid⟩
  · rw [hscalar] at hbounds
    cases hbounds
  · rw [harray] at hbounds
    cases hbounds
    exact hvalid

/-- Subprograms have no bounds. -/
theorem Subprogram.Heads.bounds?_eq_none {s : Subprogram} {symbol : Symbol} (h : s.Heads symbol) :
    symbol.binding.bounds? = none := by
  have hbinds := h.binding
  cases hkind : s.kind with
  | function =>
    rw [hkind] at hbinds
    obtain ⟨type, -, hbinding⟩ := hbinds
    rw [hbinding]
    rfl
  | procedure =>
    rw [hkind] at hbinds
    obtain ⟨-, hbinding⟩ := hbinds
    rw [hbinding]
    rfl

/-- Bounds in open scopes are valid. -/
theorem Nesting.Opens.bounds_valid {p : Program} {R : Subprogram → Symbol → Prop} {n : Nesting}
    {scopes : List Scope} (h : n.Opens p R scopes) (hR : ∀ s symbol, R s symbol → s.Heads symbol)
    {scope : Scope} (hscope : scope ∈ scopes) {symbol : Symbol} (hs : symbol ∈ scope)
    {bounds : Bounds} (hbounds : symbol.binding.bounds? = some bounds) : bounds.Valid := by
  have hlast {ss : List Subprogram} {routines : Scope} {R : Subprogram → Symbol → Prop}
      (hR : ∀ s symbol, R s symbol → s.Heads symbol) (hroutines : List.Forall₂ R ss routines)
      (hs : symbol ∈ routines) : False := by
    obtain ⟨s, -, hs⟩ := exists_of_mem_forall₂ hroutines hs
    rw [(hR s symbol hs).bounds?_eq_none] at hbounds
    cases hbounds
  induction n generalizing R scopes with
  | nil =>
    obtain ⟨own, vars, routines, rfl, hown, hvars, hroutines⟩ := h
    rw [List.mem_singleton] at hscope
    rw [hscope] at hs
    rcases List.mem_cons.1 hs with rfl | hs
    · rw [hown] at hbounds
      cases hbounds
    · rcases List.mem_append.1 hs with hs | hs
      · obtain ⟨v, -, hv⟩ := exists_of_mem_forall₂ hvars hs
        exact hv.bounds_valid hbounds
      · exact (hlast hR hroutines hs).elim
  | cons level outer ih =>
    obtain ⟨params, locals, routines, rest, rfl, hparams, hlocals, hroutines, houter⟩ := h
    rcases List.mem_cons.1 hscope with rfl | hscope
    · rcases List.mem_append.1 hs with hs | hs
      · obtain ⟨v, -, hv⟩ := exists_of_mem_forall₂ hparams hs
        rw [hv.binding] at hbounds
        cases hbounds
      · rcases List.mem_append.1 hs with hs | hs
        · obtain ⟨v, -, hv⟩ := exists_of_mem_forall₂ hlocals hs
          exact hv.bounds_valid hbounds
        · exact (hlast hR hroutines hs).elim
    · exact ih houter (fun _ _ h => h) hscope

/-- Only the variables `vars` of the program, declared in the scope `globals`, have places, under
their labels. -/
def Context.GlobalsOnly (vars : List Variable) (globals : Scope) (ctx : Context) : Prop :=
  ∀ id place, ctx.storage.get? id = some place → ∃ scope symbol, ∃ v ∈ vars,
    ctx.symbols.scopes.getLast? = some scope ∧ symbol ∈ scope ∧ symbol.id = id ∧
      v.Declares symbol ∧ place = .global (.ofVariable v.name) ∧
      globals.lookup? v.name = some symbol

/-- The context in which the subprograms of a program are written. -/
def Program.context (p : Program) (symbols : SymbolTable) : Context :=
  (((Generator.new symbols).write (.directive .data)).emitData p.vars).context

/-- The context at a block, where there is a symbol with a scope for each subprogram that the block
is nested in. -/
def Program.contextAt? (p : Program) (symbols : SymbolTable) : Nesting → Option Context
  | [] => some (p.context symbols)
  | level :: outer => do
    let ctx ← p.contextAt? symbols outer
    let (_, _, inner) ← ctx.enter? level.sub.name
    return inner

/-- The context of the generator at the block `n` of `p`, before and after its body. -/
structure Context.At (p : Program) (symbols : SymbolTable) (n : Nesting) (ctx : Context) : Prop where
  reached : p.contextAt? symbols n = some ctx
  has : p.Has n
  path : ctx.path = n.path
  wellFormed : ctx.symbols.WellFormed
  distinct : ctx.symbols.Distinct
  placed : ctx.GlobalsOnly p.vars symbols.global
  opens : n.Opens p Subprogram.Declares ctx.symbols.scopes

/-- Every array that is visible at a block has bounds in order. -/
theorem Context.At.bounds_valid {p : Program} {symbols : SymbolTable} {n : Nesting} {ctx : Context}
    (h : ctx.At p symbols n) {scope : Scope} (hscope : scope ∈ ctx.symbols.scopes) {symbol : Symbol}
    (hs : symbol ∈ scope) {bounds : Bounds} (hbounds : symbol.binding.bounds? = some bounds) :
    bounds.Valid :=
  h.opens.bounds_valid (fun _ _ h => h.heads) hscope hs hbounds

/-- The routine stands in `p`, written with the names `symbols`, as the generator finds it: under
the label of its path, with the scope of its block open and that of its symbol below it. -/
structure Routine.Stands (p : Program) (symbols : SymbolTable) (r : Routine) : Prop where
  context : r.context.At p symbols r.nesting
  start : r.start = .ofRoutine r.nesting.path
  own : ∃ own first second rest, r.context.symbols.outer = (first ++ own :: second) :: rest ∧
    own.id = r.id ∧ r.sub.Heads own

theorem Nesting.length_path (n : Nesting) : n.path.length = n.length := by
  induction n with
  | nil => rfl
  | cons level outer ih => rw [path, List.length_append, ih]; rfl

/-- A list that is related to one with a marked member has a marked member itself. -/
theorem forall₂_split {α β : Type} {R : α → β → Prop} {as : List α} {a : α} {as' : List α}
    {bs : List β} (h : List.Forall₂ R (as ++ a :: as') bs) : ∃ cs b cs', bs = cs ++ b :: cs' ∧
      List.Forall₂ R as cs ∧ R a b ∧ List.Forall₂ R as' cs' := by
  induction as generalizing bs with
  | nil =>
    obtain ⟨b, cs', hab, hrest, rfl⟩ := List.forall₂_cons_left_iff.1 h
    exact ⟨[], b, cs', rfl, .nil, hab, hrest⟩
  | cons a' as ih =>
    obtain ⟨b', bs', hab', hrest, rfl⟩ := List.forall₂_cons_left_iff.1 h
    obtain ⟨cs, b, cs', rfl, hcs, hab, hcs'⟩ := ih hrest
    exact ⟨b' :: cs, b, cs', rfl, .cons hab' hcs, hab, hcs'⟩

/-- Opening a subprogram keeps the places where they are. -/
theorem Context.GlobalsOnly.open {vars : List Variable} {globals : Scope} {ctx inner : Context}
    {first second scope : Scope} {symbol : Symbol} {rest : List Scope}
    (h : ctx.GlobalsOnly vars globals)
    (hroutine : symbol.binding.isRoutine = true) (hstorage : inner.storage = ctx.storage)
    (hscopes : ctx.symbols.scopes = (first ++ symbol :: second) :: rest)
    (hinner : inner.symbols.scopes =
      scope :: (first ++ { symbol with locals := none } :: second) :: rest) :
    inner.GlobalsOnly vars globals := by
  intro id place hplace
  rw [hstorage] at hplace
  obtain ⟨last, global, v, hv, hlast, hglobal, hid, hdeclares, rfl, hfound⟩ := h id place hplace
  rw [hscopes] at hlast
  rw [hinner]
  cases rest with
  | cons outer rest =>
    exact ⟨last, global, v, hv, by simpa using hlast, hglobal, hid, hdeclares, rfl, hfound⟩
  | nil =>
    -- the global scope is the one that declares the subprogram; variables stay as they are
    have hlast : first ++ symbol :: second = last := Option.some.inj hlast
    refine ⟨first ++ { symbol with locals := none } :: second, global, v, hv, rfl, ?_, hid,
      hdeclares, rfl, hfound⟩
    rw [← hlast, List.mem_append, List.mem_cons] at hglobal
    rw [List.mem_append, List.mem_cons]
    rcases hglobal with hfirst | rfl | hsecond
    · exact .inl hfirst
    · rw [hdeclares.isRoutine] at hroutine
      cases hroutine
    · exact .inr (.inr hsecond)

/-- From a block the generator comes to each subprogram that the block declares. -/
theorem Context.At.enter {p : Program} {symbols : SymbolTable} {n : Nesting} {ctx : Context}
    (h : ctx.At p symbols n) {before after : List Subprogram} {s : Subprogram}
    (hsplit : p.subprogramsAt n = before ++ s :: after) :
    ∃ start id inner, ctx.enter? s.name = some (start, id, inner) ∧
      (Routine.mk ⟨before, s, after⟩ n start id inner).Stands p symbols := by
  obtain ⟨first, routines, rest, hscopes, hsubs, -, hreplace⟩ := h.opens.split
  rw [hsplit] at hsubs hreplace
  obtain ⟨routines₁, symbol, routines₂, rfl, hbefore, hs, hafter⟩ := forall₂_split hsubs
  obtain ⟨hheads, params, locals, routines', hlocals, hblock⟩ := Subprogram.declares_iff.1 hs
  have hscopes' : ctx.symbols.scopes = ((first ++ routines₁) ++ symbol :: routines₂) :: rest := by
    rw [hscopes, List.append_assoc]
  have hnodup := (h.wellFormed _ (hscopes' ▸ List.mem_cons_self)).nodup
  rw [Scope.names_append] at hnodup
  have hfirst : symbol.name ∉ Scope.names (first ++ routines₁) := fun hmem =>
    List.disjoint_of_nodup_append hnodup hmem List.mem_cons_self
  have hsecond : symbol.name ∉ Scope.names routines₂ :=
    (List.nodup_cons.1 (List.nodup_append.1 hnodup).2.1).1
  obtain ⟨u, hdetach, hu⟩ := SymbolTable.detach?_innermost hscopes' hfirst hsecond hlocals
  have hlookup : ctx.symbols.lookupWithDepth? symbol.name = some (rest.length + 1, symbol) := by
    rw [SymbolTable.lookupWithDepth?, hscopes']
    exact SymbolTable.findIn_innermost hfirst
  rw [hheads.name] at hdetach hlookup
  obtain ⟨houter, hinner⟩ := h.wellFormed.of_detach? hdetach
  have hlength : rest.length = n.path.length := by
    have := h.opens.length
    rw [hscopes, List.length_cons] at this
    rw [n.length_path]
    omega
  have hpush : (u.push (params ++ (locals ++ routines'))).scopes = (params ++ (locals ++ routines')) ::
      ((first ++ routines₁) ++ { symbol with locals := none } :: routines₂) :: rest := by
    rw [← hu]
    rfl
  have henter : ctx.enter? s.name = some (.ofRoutine (n.path ++ [s.name]), symbol.id,
      ⟨u.push (params ++ (locals ++ routines')), ctx.storage, n.path ++ [s.name]⟩) := by
    simp only [Context.enter?, hlookup, hdetach, Option.bind_eq_bind, Option.bind_some, h.path,
      Lower.routineLabel, Nat.add_sub_cancel, hlength, List.take_length]
    rfl
  have hopened : n.Opens p Subprogram.Heads
      (((first ++ routines₁) ++ { symbol with locals := none } :: routines₂) :: rest) := by
    rw [List.append_assoc]
    refine hreplace _ (List.rel_append (hbefore.imp fun _ _ h => h.heads) (.cons ?_ ?_))
    · exact ⟨hheads.name, hheads.binding⟩
    · exact hafter.imp fun _ _ h => h.heads
  refine ⟨_, _, _, henter, {
    context := {
      reached := by simp [Routine.nesting, Program.contextAt?, h.reached, henter]
      has := ⟨hsplit, h.has⟩
      path := rfl
      wellFormed := houter.push hinner
      distinct := h.distinct.open hscopes' hlocals hpush
      placed := h.placed.open hheads.isRoutine rfl hscopes' hpush
      opens := hpush ▸ ⟨params, locals, routines', _, rfl, hblock.params, hblock.locals,
        hblock.routines, hopened⟩ }
    start := rfl
    own := ⟨_, _, _, rest, SymbolTable.outer_eq hpush, rfl, hheads.name, hheads.binding⟩ }⟩

/-! ## Frames -/

/-- Where names are distinct, every symbol is found by its name. -/
theorem Scope.lookup?_of_mem {scope : Scope} (hnodup : scope.names.Nodup) {symbol : Symbol}
    (h : symbol ∈ scope) : scope.lookup? symbol.name = some symbol := by
  obtain ⟨other, hother⟩ := exists_lookup? (List.mem_map_of_mem h)
  have heq := List.inj_on_of_nodup_map hnodup (mem_of_lookup? hother) h (name_of_lookup? hother)
  rw [hother, heq]

/-- A scope finds the symbols that variables declare in it. -/
theorem Frame.finds_of_forall₂ {R : Variable → Symbol → Prop} {scope symbols : Scope}
    {vs : List Variable} (hR : ∀ v symbol, R v symbol → symbol.name = v.name)
    (hfinds : ∀ symbol ∈ symbols, scope.lookup? symbol.name = some symbol)
    (h : List.Forall₂ R vs symbols) : List.Forall₂ (Frame.Finds scope) vs symbols := by
  induction h with
  | nil => exact .nil
  | cons hv _ ih =>
    obtain ⟨hhead, htail⟩ := List.forall_mem_cons.1 hfinds
    refine .cons ?_ (ih htail)
    rw [Frame.Finds, ← hR _ _ hv]
    exact hhead

theorem Variable.DeclaresParam.words {v : Variable} {symbol : Symbol} (h : v.DeclaresParam symbol) :
    symbol.words = 1 := by
  rw [Symbol.words, h.binding]
  rfl

namespace Routine

variable {p : Program} {symbols : SymbolTable} {r : Routine}

/-- The layout of a routine, over the symbols that its block declares. -/
theorem Stands.lays (h : r.Stands p symbols) : ∃ params locals routines rest,
    r.context.symbols.scopes = (params ++ (locals ++ routines)) :: rest ∧
      Subprogram.BlockOf r.sub.args r.sub.vars r.sub.subprograms params locals routines ∧
      Frame.Lays (Frame.blocks params locals r.sub.kind r.id)
        (fun f => f.params = (f.slots.take params.length).map Prod.snd ∧
          f.PlacesResult r.sub.kind r.id) r.layout := by
  obtain ⟨params, locals, routines, rest, hscopes, hparams, hlocals, hroutines, -⟩ :=
    h.context.opens
  have hcurrent := SymbolTable.current_eq hscopes
  have hnodup := (h.context.wellFormed _ (hscopes ▸ List.mem_cons_self)).nodup
  have hfinds : ∀ symbol ∈ params ++ (locals ++ routines),
      r.context.symbols.current.lookup? symbol.name = some symbol := by
    rw [hcurrent]
    exact fun symbol hs => Scope.lookup?_of_mem hnodup hs
  refine ⟨params, locals, routines, rest, hscopes, ⟨hparams, hlocals, hroutines⟩,
    Frame.lays_layout (Frame.finds_of_forall₂ (fun _ _ h => h.name) ?_ hparams) ?_
      (Frame.finds_of_forall₂ (fun _ _ h => h.name) ?_ hlocals) _ _⟩
  · exact fun symbol hs => hfinds symbol (List.mem_append_left _ hs)
  · intro symbol hs
    obtain ⟨v, -, hv⟩ := exists_of_mem_forall₂ hparams hs
    exact hv.words
  · exact fun symbol hs => hfinds symbol (List.mem_append_right _ (List.mem_append_left _ hs))

/-- The blocks that the frame of a routine holds are the first of those it needs. -/
theorem Stands.holds (h : r.Stands p symbols) : ∃ params locals routines rest done,
    r.context.symbols.scopes = (params ++ (locals ++ routines)) :: rest ∧
      Subprogram.BlockOf r.sub.args r.sub.vars r.sub.subprograms params locals routines ∧
      done <+: Frame.blocks params locals r.sub.kind r.id ∧ r.frame.Holds done := by
  obtain ⟨params, locals, routines, rest, hscopes, hblock, hlays⟩ := h.lays
  unfold frame
  cases hlayout : r.layout with
  | ok f =>
    rw [hlayout] at hlays
    exact ⟨params, locals, routines, rest, _, hscopes, hblock, List.prefix_rfl, hlays.1⟩
  | error f =>
    rw [hlayout] at hlays
    obtain ⟨done, block, hdone, hf, -⟩ := hlays
    exact ⟨params, locals, routines, rest, done, hscopes, hblock,
      (List.prefix_append ..).trans hdone, hf⟩

/-- What has a place in a frame is a parameter or a variable of the block, or is the routine
itself. -/
theorem Stands.of_mem_ids (h : r.Stands p symbols) {id : Nat} (hid : id ∈ r.frame.ids) :
    (∃ symbol ∈ r.context.symbols.current, symbol.id = id ∧ symbol.binding.isRoutine = false ∧
      ∃ v ∈ r.sub.args ++ r.sub.vars, v.name = symbol.name) ∨
      id = r.id ∧ r.sub.kind = .function := by
  obtain ⟨params, locals, routines, rest, done, hscopes, hblock, hdone, hholds⟩ := h.holds
  rw [hholds.ids] at hid
  rw [SymbolTable.current_eq hscopes]
  obtain ⟨block, hmem, rfl⟩ := List.mem_map.1 hid
  rcases List.mem_append.1 (hdone.subset hmem) with hparam | hmem
  · obtain ⟨symbol, hs, rfl⟩ := List.mem_map.1 hparam
    obtain ⟨v, hmem, hv⟩ := exists_of_mem_forall₂ hblock.params hs
    exact .inl ⟨symbol, List.mem_append_left _ hs, rfl, hv.isRoutine, v,
      List.mem_append_left _ hmem, hv.name.symm⟩
  · rcases List.mem_append.1 hmem with hlocal | hresult
    · obtain ⟨symbol, hs, rfl⟩ := List.mem_map.1 hlocal
      obtain ⟨v, hmem, hv⟩ := exists_of_mem_forall₂ hblock.locals hs
      exact .inl ⟨symbol, List.mem_append_right _ (List.mem_append_left _ hs), rfl, hv.isRoutine, v,
        List.mem_append_right _ hmem, hv.name.symm⟩
    · cases hkind : r.sub.kind with
      | procedure =>
        rw [hkind] at hresult
        cases hresult
      | function =>
        rw [hkind] at hresult
        cases List.mem_singleton.1 hresult
        exact .inr ⟨rfl, rfl⟩

/-- The symbols of a frame have no places before. -/
theorem Stands.fresh (h : r.Stands p symbols) {id : Nat} (hid : id ∈ r.frame.ids) :
    r.context.storage.get? id = none := by
  by_contra hplaced
  obtain ⟨place, hplace⟩ := Option.ne_none_iff_exists'.1 hplaced
  obtain ⟨last, global, v, -, hlast, hglobal, rfl, hdeclares, -⟩ := h.context.placed id place hplace
  obtain ⟨own, first, second, rest, houter, hown, hheads⟩ := h.own
  have hscopes : r.context.symbols.scopes =
      [] ++ r.context.symbols.current :: (first ++ own :: second) :: rest := by
    rw [SymbolTable.scopes_eq, houter]
    rfl
  -- the global scope is not the innermost one
  have hlast' : last ∈ (first ++ own :: second) :: rest := by
    rw [hscopes, List.nil_append, List.getLast?_cons_cons] at hlast
    exact List.mem_of_getLast? hlast
  rcases h.of_mem_ids hid with ⟨symbol, hs, heq, -⟩ | ⟨heq, -⟩
  · exact h.context.distinct.ne_of_outer hscopes hs hlast' hglobal heq
  · have hsame : global = own :=
      h.context.distinct.eq_of_id_eq (by rw [hscopes]; exact List.mem_cons_of_mem _ hlast') hglobal
        (by rw [hscopes]; exact List.mem_cons_of_mem _ List.mem_cons_self)
        (List.mem_append_right _ List.mem_cons_self) (heq.trans hown.symm)
    have := hheads.isRoutine
    rw [← hsame, hdeclares.isRoutine] at this
    cases this

end Routine

/-! ## Writing routines -/

namespace Generator

variable {p : Program} {symbols : SymbolTable}

/-- Writing a routine runs its code with the places of its frame, which are taken away afterwards.
-/
theorem emitRoutine_eq_run {g : Generator} {r : Routine} (hg : g.context = r.context) :
    g.emitRoutine r.start r.id r.sub =
      ((g.withStorage (r.frame.assign g.context.storage)).run r.code).withStorage
        (r.frame.release (r.frame.assign g.context.storage)) := by
  have hlayout : Frame.layout g.symbols.current r.sub.kind r.id r.sub.args r.sub.vars =
      r.layout := by
    rw [Generator.symbols, hg]
    rfl
  unfold emitRoutine Routine.frame Routine.code
  rw [hlayout]
  cases r.layout <;> rfl

/-- Writing a routine gives its variables places for that time alone. -/
theorem emitRoutine_eq {g : Generator} {r : Routine} (h : r.Stands p symbols)
    (hg : g.context = r.context) : g.emitRoutine r.start r.id r.sub = g.writeAll [r] := by
  have hrestore : r.frame.release (r.frame.assign r.context.storage) = r.context.storage :=
    Frame.release_assign fun _ hid => h.fresh hid
  have hlines : Routine.lines [r] g.counters = (r.lower g.counters).lines := by
    rw [Routine.lines_cons, show Routine.lines [] _ = [] from rfl, List.append_nil]
  rw [emitRoutine_eq_run hg]
  simp only [withStorage, run, writeAll, hg, hrestore, hlines]
  rfl

/-- Leaving a subprogram restores the context around it. -/
theorem leave_eq {g : Generator} {ctx inner : Context} {name : String} {start : Label} {id : Nat}
    (hw : ctx.symbols.WellFormed) (henter : ctx.enter? name = some (start, id, inner))
    (hg : g.context = inner) : g.leave name = ⟨ctx, g.counters, g.lines⟩ := by
  simp only [Context.enter?, Option.bind_eq_bind, Option.bind_eq_some_iff, Prod.exists,
    Option.pure_def, Option.some.injEq, Prod.mk.injEq] at henter
  obtain ⟨depth, symbol, -, scope, u, hdetach, -, -, rfl⟩ := henter
  have hexit : g.symbols.exit? = some (scope, u) := by
    rw [Generator.symbols, hg]
    rfl
  simp only [leave, hexit, SymbolTable.attach?_of_detach? hw hdetach, Option.getD_some, withSymbols,
    withPath, hg, List.dropLast_concat]

/-- Writing a subprogram whose scope can be entered is writing its routine and the subprograms
inside, and leaving the scope. -/
theorem emitSubprogram_of_enter? {g : Generator} {s : Subprogram} {start : Label} {id : Nat}
    {inner : Context} (h : g.context.enter? s.name = some (start, id, inner)) :
    g.emitSubprogram s = (((⟨inner, g.counters, g.lines⟩ : Generator).emitRoutine start id
      s).emitSubprograms s.subprograms).leave s.name := by
  rcases s with ⟨kind, name, returns, args, vars, subprograms, body, location⟩
  simp only [Context.enter?, Option.bind_eq_bind, Option.bind_eq_some_iff, Prod.exists,
    Option.pure_def, Option.some.injEq, Prod.mk.injEq] at h
  obtain ⟨depth, symbol, hlookup, scope, u, hdetach, rfl, rfl, rfl⟩ := h
  unfold emitSubprogram
  simp only [Generator.symbols, hlookup, hdetach]
  rfl

/-- The routines of a subprogram are its own and those of the subprograms inside. -/
theorem routinesOf_of_enter? {ctx : Context} {outer : Nesting} {before after : List Subprogram}
    {s : Subprogram} {start : Label} {id : Nat} {inner : Context}
    (h : ctx.enter? s.name = some (start, id, inner)) :
    ctx.routinesOf outer before after s = ⟨⟨before, s, after⟩, outer, start, id, inner⟩ ::
      inner.routines (⟨before, s, after⟩ :: outer) [] s.subprograms := by
  rcases s with ⟨kind, name, returns, args, vars, subprograms, body, location⟩
  rw [Context.routinesOf]
  simp only [h]

mutual

/-- Writing a subprogram is writing its routines. This and the next go by one recursion over the
nesting: the context stays the one of the block, because a scope that is left goes back to where it
was taken from. -/
theorem emitSubprogram_eq : ∀ (s : Subprogram) (before after : List Subprogram) {n : Nesting}
    {g : Generator}, g.context.At p symbols n → p.subprogramsAt n = before ++ s :: after →
      g.emitSubprogram s = g.writeAll (g.context.routinesOf n before after s)
  | ⟨kind, name, returns, args, vars, subprograms, body, location⟩, before, after, n, g, hat,
      hsplit => by
    have ih {n : Nesting} {g : Generator} := @emitSubprograms_eq subprograms [] n g
    generalize hs : Subprogram.mk kind name returns args vars subprograms body location = s at *
    obtain rfl : s.subprograms = subprograms := by rw [← hs]
    obtain ⟨start, id, inner, henter, hstands⟩ := hat.enter hsplit
    let entered : Generator := ⟨inner, g.counters, g.lines⟩
    let r : Routine := ⟨⟨before, s, after⟩, n, start, id, inner⟩
    have hroutine : entered.emitRoutine start id s = entered.writeAll [r] :=
      emitRoutine_eq hstands rfl
    have hinner : (entered.writeAll [r]).emitSubprograms s.subprograms =
        (entered.writeAll [r]).writeAll (inner.routines r.nesting [] s.subprograms) :=
      ih hstands.context rfl
    rw [emitSubprogram_of_enter? henter, routinesOf_of_enter? henter, hroutine, hinner,
      writeAll_writeAll, leave_eq hat.wellFormed henter rfl]
    rfl

/-- Writing subprograms is writing all their routines, in the order of the text. -/
theorem emitSubprograms_eq : ∀ (ss before : List Subprogram) {n : Nesting} {g : Generator},
    g.context.At p symbols n → p.subprogramsAt n = before ++ ss →
      g.emitSubprograms ss = g.writeAll (g.context.routines n before ss)
  | [], before, n, g, _, _ => by
    rw [emitSubprograms, Context.routines, writeAll_nil]
  | s :: ss, before, n, g, hat, hsplit => by
    have hs := emitSubprogram_eq s before ss hat hsplit
    have hss : (g.writeAll (g.context.routinesOf n before ss s)).emitSubprograms ss = _ :=
      emitSubprograms_eq ss (before ++ [s]) hat (by rw [hsplit, List.append_cons])
    rw [emitSubprograms, Context.routines, hs, hss, writeAll_writeAll]
    rfl

end

end Generator

mutual

/-- Every routine of a subprogram at a block stands at its own block, by recursion over the nesting.
-/
theorem Context.At.stands_of_mem_routinesOf {p : Program} {symbols : SymbolTable} :
    ∀ (s : Subprogram) (before after : List Subprogram) {n : Nesting} {ctx : Context},
      ctx.At p symbols n → p.subprogramsAt n = before ++ s :: after →
        ∀ r ∈ ctx.routinesOf n before after s, r.Stands p symbols
  | ⟨kind, name, returns, args, vars, subprograms, body, location⟩, before, after, n, ctx, hat,
      hsplit, r, hr => by
    have ih {n : Nesting} {ctx : Context} :=
      @Context.At.stands_of_mem_routines p symbols subprograms [] n ctx
    generalize hs : Subprogram.mk kind name returns args vars subprograms body location = s at *
    obtain rfl : s.subprograms = subprograms := by rw [← hs]
    obtain ⟨start, id, inner, henter, hstands⟩ := hat.enter hsplit
    rw [Generator.routinesOf_of_enter? henter] at hr
    rcases List.mem_cons.1 hr with rfl | hr
    · exact hstands
    · exact ih hstands.context rfl r hr

/-- The routines of a block stand as the generator finds them. -/
theorem Context.At.stands_of_mem_routines {p : Program} {symbols : SymbolTable} :
    ∀ (ss before : List Subprogram) {n : Nesting} {ctx : Context}, ctx.At p symbols n →
      p.subprogramsAt n = before ++ ss → ∀ r ∈ ctx.routines n before ss, r.Stands p symbols
  | [], before, n, ctx, _, _, r, hr => by
    rw [Context.routines] at hr
    cases hr
  | s :: ss, before, n, ctx, hat, hsplit, r, hr => by
    rw [Context.routines] at hr
    rcases List.mem_append.1 hr with hr | hr
    · exact Context.At.stands_of_mem_routinesOf s before ss hat hsplit r hr
    · exact Context.At.stands_of_mem_routines ss (before ++ [s]) hat
        (by rw [hsplit, List.append_cons]) r hr

end

/-! ## Programs -/

namespace Generator

/-- The generator with the data of a program written. -/
def data (p : Program) (symbols : SymbolTable) : Generator :=
  ((new symbols).write (.directive .data)).emitData p.vars

/-- The generator with the main part of a program written. -/
def main (p : Program) (symbols : SymbolTable) : Generator := (data p symbols).run (mainPart p.body)

end Generator

namespace Program

/-- The routines of a program, in the order of the text. -/
def routines (p : Program) (symbols : SymbolTable) : List Routine :=
  (p.context symbols).routines [] [] p.subprograms

/-- Global variables get their places one after the other. -/
theorem globalsOnly_emitData {vars all : List Variable} {g : Generator} {scope : Scope}
    (hvars : ∀ v ∈ vars, v ∈ all ∧ ∃ symbol, scope.lookup? v.name = some symbol ∧ v.Declares symbol)
    (hscope : g.symbols.scopes.getLast? = some scope) (hglobal : g.symbols.global = scope)
    (hg : g.context.GlobalsOnly all scope) : (g.emitData vars).context.GlobalsOnly all scope := by
  induction vars generalizing g with
  | nil => exact hg
  | cons v vars ih =>
    obtain ⟨⟨hv, symbol, hlookup, hdeclares⟩, hvars⟩ := List.forall_mem_cons.1 hvars
    have hemit : g.emitVariable v =
        (g.write (Generator.dataLine (.ofVariable v.name) symbol.binding.bounds?)).withStorage
          (g.context.storage.assign symbol.id (.global (.ofVariable v.name))) := by
      unfold Generator.emitVariable
      rw [hglobal, hlookup]
    refine ih (g := g.emitVariable v) hvars (by rw [hemit]; exact hscope)
      (by rw [hemit]; exact hglobal) ?_
    rw [hemit]
    intro id place hplace
    change (g.context.storage.assign symbol.id _).get? id = some place at hplace
    rw [StorageMap.get?_assign] at hplace
    by_cases hid : id = symbol.id
    · rw [if_pos hid] at hplace
      exact ⟨scope, symbol, v, hv, hscope, Scope.mem_of_lookup? hlookup, hid.symm, hdeclares,
        (Option.some.inj hplace).symm, hlookup⟩
    · rw [if_neg hid] at hplace
      exact hg id place hplace

/-- The context in which a program is written, if the table declares the program. -/
theorem at_context {p : Program} {symbols : SymbolTable} {own : Symbol} {vars routines : Scope}
    (hscopes : symbols.scopes = [own :: (vars ++ routines)]) (h : p.Declares own vars routines)
    (hw : symbols.WellFormed) (hdistinct : symbols.Distinct) :
    (p.context symbols).At p symbols [] := by
  have hresumes := Generator.resumes_emitData p.vars
    ((Generator.new symbols).write (.directive .data))
  have hsymbols : (p.context symbols).symbols = symbols := hresumes.symbols
  have hglobal : symbols.global = own :: (vars ++ routines) := by
    have hlast : symbols.inner ++ [symbols.global] = [] ++ [own :: (vars ++ routines)] := hscopes
    exact (List.cons.inj (List.append_inj' hlast rfl).2).1
  have hnodup := (hw _ (hscopes ▸ List.mem_singleton_self _)).nodup
  refine ⟨rfl, trivial, hresumes.path, hsymbols.symm ▸ hw, hsymbols.symm ▸ hdistinct, ?_, ?_⟩
  · rw [hglobal]
    refine globalsOnly_emitData (fun v hv => ⟨hv, ?_⟩) ?_ hglobal nofun
    · obtain ⟨before, after, hsplit⟩ := List.append_of_mem hv
      have hvars := h.vars
      rw [hsplit] at hvars
      obtain ⟨cs, symbol, cs', rfl, -, hdeclares, -⟩ := forall₂_split hvars
      refine ⟨symbol, ?_, hdeclares⟩
      rw [← hdeclares.name]
      exact Scope.lookup?_of_mem hnodup (by simp)
    · change symbols.scopes.getLast? = _
      rw [hscopes]
      rfl
  · rw [hsymbols, hscopes]
    exact ⟨own, vars, routines, rfl, h.own.2.1, h.vars, h.routines⟩

/-- A program read from a text, folded or not, is declared in the table of its names. -/
theorem at_of_parse {source : String} {program p : Program} {symbols : SymbolTable}
    (h : parse source = .ok (program, symbols)) (hp : p = program ∨ p = program.fold) :
    (p.context symbols).At p symbols [] := by
  obtain ⟨tokens, rest, -, hprogram, rfl⟩ := of_parse h
  obtain ⟨own, vars, routines, hscopes, hdeclares, hw, hdistinct⟩ :=
    Parse.declared_of_program hprogram rfl
  rcases hp with rfl | rfl
  · exact at_context hscopes hdeclares hw hdistinct
  · exact at_context hscopes hdeclares.fold hw hdistinct

/-- A program is written as its main part and then its routines. -/
theorem emitProgram_eq {p : Program} {symbols : SymbolTable}
    (h : (p.context symbols).At p symbols []) :
    (Generator.new symbols).emitProgram p =
      (Generator.main p symbols).writeAll (p.routines symbols) :=
  Generator.emitSubprograms_eq p.subprograms [] h rfl

theorem stands_of_mem_routines {p : Program} {symbols : SymbolTable}
    (h : (p.context symbols).At p symbols []) {r : Routine} (hr : r ∈ p.routines symbols) :
    r.Stands p symbols :=
  h.stands_of_mem_routines p.subprograms [] rfl r hr

end Program

end PascalMips
