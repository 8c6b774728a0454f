import PascalMips.Proofs.Program.Addresses
import PascalMips.Proofs.Statement.Uses

/-!
# What the names in a body stand for when it is written

A use of a name agrees with a declaration that the parser found. The generator finds the same one
unless the name comes to be hidden, and then it finds a subprogram (`Context.At.resolves`): calls are
always calls of subprograms, and what is indexed and has a place is an array.

A folded program has the blocks of the program, so all this holds of it as well.
-/

namespace PascalMips

/-! ## Blocks of a folded program -/

theorem Subprogram.name_fold (s : Subprogram) : s.fold.name = s.name := by
  rcases s with ⟨kind, name, returns, args, vars, subprograms, body, location⟩
  rw [fold]

theorem Subprogram.names_foldAll (ss : List Subprogram) :
    (foldAll ss).map Subprogram.name = ss.map Subprogram.name := by
  rw [foldAll_eq_map, List.map_map]
  exact List.map_congr_left fun s _ => s.name_fold

theorem Subprogram.subprograms_fold (s : Subprogram) :
    s.fold.subprograms = foldAll s.subprograms := by
  rcases s with ⟨kind, name, returns, args, vars, subprograms, body, location⟩
  rw [fold]

theorem Subprogram.body_fold (s : Subprogram) : s.fold.body = Statement.foldAll s.body := by
  rcases s with ⟨kind, name, returns, args, vars, subprograms, body, location⟩
  rw [fold]

theorem Subprogram.declared_fold (s : Subprogram) : s.fold.declared = s.declared := by
  rcases s with ⟨kind, name, returns, args, vars, subprograms, body, location⟩
  rw [fold, declared, declared, names_foldAll]

def Level.fold (level : Level) : Level :=
  ⟨Subprogram.foldAll level.before, level.sub.fold, Subprogram.foldAll level.after⟩

/-- The block of the folded program. -/
def Nesting.fold (n : Nesting) : Nesting := n.map Level.fold

/-- Folding hides no names and shows none. -/
theorem Nesting.hides_fold {x : String} {later : List Subprogram} {n : Nesting} :
    n.fold.Hides x (Subprogram.foldAll later) ↔ n.Hides x later := by
  induction n generalizing later with
  | nil => exact Iff.rfl
  | cons level outer ih =>
    show _ ∨ _ ∧ _ ↔ _ ∨ _ ∧ _
    rw [Subprogram.names_foldAll, Level.fold, Subprogram.declared_fold]
    exact or_congr_right (and_congr_right fun _ => ih)

namespace Program

variable {p : Program} {symbols : SymbolTable}

theorem subprogramsAt_fold (n : Nesting) :
    p.fold.subprogramsAt n.fold = Subprogram.foldAll (p.subprogramsAt n) := by
  cases n with
  | nil => rfl
  | cons level outer => exact level.sub.subprograms_fold

theorem bodyAt_fold (n : Nesting) : p.fold.bodyAt n.fold = Statement.foldAll (p.bodyAt n) := by
  cases n with
  | nil => rfl
  | cons level outer => exact level.sub.body_fold

/-- The blocks of a folded program are those of the program. -/
theorem exists_of_has_fold {n : Nesting} (h : p.fold.Has n) : ∃ m, p.Has m ∧ n = m.fold := by
  induction n with
  | nil => exact ⟨[], trivial, rfl⟩
  | cons level outer ih =>
    obtain ⟨hsplit, houter⟩ := h
    obtain ⟨m, hm, rfl⟩ := ih houter
    rw [subprogramsAt_fold, Subprogram.foldAll_eq_map] at hsplit
    obtain ⟨before, rest, hrest, hbefore, hcons⟩ := List.map_eq_append_iff.1 hsplit
    obtain ⟨sub, after, rfl, hsub, hafter⟩ := List.map_eq_cons_iff.1 hcons
    refine ⟨⟨before, sub, after⟩ :: m, ⟨hrest, hm⟩, ?_⟩
    show level :: m.fold = Level.fold ⟨before, sub, after⟩ :: m.fold
    rw [Level.fold, Subprogram.foldAll_eq_map, Subprogram.foldAll_eq_map, hbefore, hsub, hafter]

/-- The context at a block does not depend on folding. -/
theorem contextAt?_fold (n : Nesting) :
    p.fold.contextAt? symbols n.fold = p.contextAt? symbols n := by
  induction n with
  | nil => rfl
  | cons level outer ih =>
    show (p.fold.contextAt? symbols (Nesting.fold outer)).bind _ = (p.contextAt? symbols outer).bind _
    rw [ih]
    refine Option.bind_congr fun ctx _ => ?_
    show (ctx.enter? level.sub.fold.name).bind _ = _
    rw [level.sub.name_fold]
    rfl

end Program

/-! ## Names that come to be hidden -/

/-- The names in the scope of a block are those that its subprogram declares. -/
theorem Subprogram.names_of_block {R : Subprogram → Symbol → Prop} {s : Subprogram}
    {params locals routines : Scope} (hR : ∀ s symbol, R s symbol → s.Heads symbol)
    (hparams : List.Forall₂ Variable.DeclaresParam s.args params)
    (hlocals : List.Forall₂ Variable.Declares s.vars locals)
    (hroutines : List.Forall₂ R s.subprograms routines) :
    Scope.names (params ++ (locals ++ routines)) = s.declared := by
  rw [Scope.names_append, Scope.names_append, ← List.append_assoc,
    Scope.names_of_forall₂ (fun _ _ h => h.name) hparams,
    Scope.names_of_forall₂ (fun _ _ h => h.name) hlocals,
    Scope.names_of_forall₂ (fun s symbol h => (hR s symbol h).name) hroutines]
  rfl

/-- A name that comes to be hidden is found as a subprogram, and not in the outermost scope. -/
theorem Nesting.Opens.find_of_hides {p : Program} {R : Subprogram → Symbol → Prop} {n : Nesting}
    {scopes : List Scope} {later : List Subprogram} {x : String} (h : n.Opens p R scopes)
    (hR : ∀ s symbol, R s symbol → s.Heads symbol) (hn : p.Has n)
    (hw : ∀ scope ∈ scopes, scope.names.Nodup) (hlater : ∀ s ∈ later, s ∈ p.subprogramsAt n)
    (hhides : n.Hides x later) : ∃ depth symbol, SymbolTable.findIn scopes x = some (depth, symbol) ∧
      1 < depth ∧ ∃ params, symbol.binding.params? = some params := by
  induction n generalizing R scopes later with
  | nil => cases hhides
  | cons level outer ih =>
    obtain ⟨params, locals, routines, rest, rfl, hparams, hlocals, hroutines, houter⟩ := h
    obtain ⟨hsplit, hn⟩ := hn
    obtain ⟨hnodup, hw⟩ := List.forall_mem_cons.1 hw
    rcases hhides with hx | ⟨hx, hhides⟩
    · -- the block declares a subprogram of this name
      obtain ⟨s, hs, rfl⟩ := List.mem_map.1 hx
      obtain ⟨symbol, hsymbol, hheads⟩ := exists_of_mem_forall₂ hroutines.flip (hlater s hs)
      have hheads := hR s symbol hheads
      have hlength := houter.length
      refine ⟨_, symbol, SymbolTable.findIn_cons_of_mem ?_, by omega, _, hheads.binding.params?⟩
      rw [← hheads.name]
      exact Scope.lookup?_of_mem hnodup
        (List.mem_append_right _ (List.mem_append_right _ hsymbol))
    · -- the block does not declare the name
      have hnames := Subprogram.names_of_block hR hparams hlocals hroutines
      rw [SymbolTable.findIn_cons_of_notMem (hnames ▸ hx)]
      refine ih houter (fun _ _ h => h) hn hw (fun s hs => ?_) hhides
      rw [hsplit]
      exact List.mem_append_right _ (List.mem_cons_of_mem _ hs)

/-- What the generator makes of a use in the block `n`: a call finds a subprogram, with as many
parameters as there are arguments unless the name came to be hidden, and an element finds an array or
a subprogram that hides it. -/
def Use.Resolves (n : Nesting) (t : SymbolTable) : Use → Prop
  | element x => ∃ symbol, t.lookup? x = some symbol ∧
      ((∃ bounds, symbol.binding.bounds? = some bounds) ∨
        n.Hides x [] ∧ ∃ params, symbol.binding.params? = some params)
  | call x count => ∃ depth symbol params, t.lookupWithDepth? x = some (depth, symbol) ∧
      symbol.binding.params? = some params ∧ (n.Hides x [] ∨ params.length = count)

theorem Use.Resolves.fold {n : Nesting} {t : SymbolTable} {u : Use} (h : u.Resolves n t) :
    u.Resolves n.fold t := by
  have hhides {x : String} : n.Hides x [] → n.fold.Hides x [] := Nesting.hides_fold.2
  cases u with
  | element x =>
    obtain ⟨symbol, hlookup, hbounds | ⟨hx, hparams⟩⟩ := h
    · exact ⟨symbol, hlookup, .inl hbounds⟩
    · exact ⟨symbol, hlookup, .inr ⟨hhides hx, hparams⟩⟩
  | call x count =>
    obtain ⟨depth, symbol, params, hfind, hparams, hcount⟩ := h
    exact ⟨depth, symbol, params, hfind, hparams, hcount.imp hhides id⟩

/-- A use that agrees with the open scopes of the parser resolves in the grown ones. -/
theorem Use.Agrees.resolves {p : Program} {R : Subprogram → Symbol → Prop} {n : Nesting}
    {t u : SymbolTable} {use : Use} (h : use.Agrees t)
    (hgrown : Grown t.nextId [] n t.scopes u.scopes) (ht : t.Numbered) (hopens : n.Opens p R u.scopes)
    (hR : ∀ s symbol, R s symbol → s.Heads symbol) (hn : p.Has n) (hw : u.WellFormed) :
    use.Resolves n u := by
  have hhidden {x : String} (hx : n.Hides x []) : ∃ depth symbol,
      u.lookupWithDepth? x = some (depth, symbol) ∧ 1 < depth ∧
        ∃ params, symbol.binding.params? = some params :=
    hopens.find_of_hides hR hn (fun scope hscope => (hw scope hscope).nodup)
      (fun _ hs => absurd hs List.not_mem_nil) hx
  have hsame {x : String} {symbol : Symbol} (hx : ¬n.Hides x [])
      (hlookup : t.lookup? x = some symbol) :
      ∃ depth, u.lookupWithDepth? x = some (depth, symbol) := by
    obtain ⟨depth, hfind⟩ := SymbolTable.lookup?_eq_some hlookup
    obtain ⟨depth', symbol', hfind', -, heq⟩ := hgrown.findIn_grown ht hfind
    obtain ⟨rfl, rfl⟩ := heq hx
    exact ⟨depth', hfind'⟩
  cases use with
  | element x =>
    obtain ⟨symbol, type, bounds, hlookup, hbinding⟩ := h
    by_cases hx : n.Hides x []
    · obtain ⟨depth, symbol', hfind, -, hparams⟩ := hhidden hx
      exact ⟨symbol', by rw [SymbolTable.lookup?, hfind]; rfl, .inr ⟨hx, hparams⟩⟩
    · obtain ⟨depth, hfind⟩ := hsame hx hlookup
      exact ⟨symbol, by rw [SymbolTable.lookup?, hfind]; rfl, .inl ⟨bounds, by rw [hbinding]; rfl⟩⟩
  | call x count =>
    obtain ⟨symbol, params, hlookup, hparams, hlength⟩ := h
    by_cases hx : n.Hides x []
    · obtain ⟨depth, symbol', hfind, -, params', hparams'⟩ := hhidden hx
      exact ⟨depth, symbol', params', hfind, hparams', .inl hx⟩
    · obtain ⟨depth, hfind⟩ := hsame hx hlookup
      exact ⟨depth, symbol, params, hfind, hparams, .inr hlength⟩

/-! ## Bodies -/

namespace Context.At

variable {p : Program} {symbols : SymbolTable}

theorem restoredAll {n : Nesting} {ctx : Context} (h : ctx.At p symbols n) {ss : List Subprogram}
    (hss : ∀ s ∈ ss, s ∈ p.subprogramsAt n) {g : Generator} (hg : g.context = ctx) :
    (g.emitSubprograms ss).context = ctx := by
  induction ss generalizing g with
  | nil => exact hg
  | cons s ss ih =>
    obtain ⟨hs, hss⟩ := List.forall_mem_cons.1 hss
    exact ih hss ((h.restored hs hg).trans hg)

/-- The generator around the body of a block is in the context of the block. -/
theorem of_aroundBody? (hp : (p.context symbols).At p symbols []) : ∀ {n : Nesting}
    {g h : Generator}, p.Has n → Generator.aroundBody? p symbols n = some (g, h) →
      g.context.At p symbols n ∧ h.context = g.context
  | [], g, h, _, haround => by
    cases haround
    exact ⟨hp, rfl⟩
  | ⟨before, sub, after⟩ :: outer, g, h, ⟨hsplit, houter⟩, haround => by
    simp only [Generator.aroundBody?, Option.bind_eq_bind, Option.bind_eq_some_iff, Prod.exists,
      Option.pure_def, Option.some.injEq, Prod.mk.injEq] at haround
    obtain ⟨g₀, h₀, haround, depth, symbol, hlookup, scope, table, hdetach, rfl, rfl⟩ := haround
    obtain ⟨hat, hcontext⟩ := of_aroundBody? hp houter haround
    have hbefore : (h₀.emitSubprograms before).context = g₀.context :=
      hat.restoredAll (fun s hs => by rw [hsplit]; exact List.mem_append_left _ hs) hcontext
    obtain ⟨start, id, inner, henter, hstands⟩ := hat.enter hsplit
    let entered := (h₀.emitSubprograms before).enter sub.name scope table
    have henter' : g₀.context.enter? sub.name = some
        (Lower.routineLabel (h₀.emitSubprograms before).context.path depth sub.name, symbol.id,
          entered.context) := by
      rw [← hbefore]
      simp only [Context.enter?, Generator.symbols] at hlookup hdetach ⊢
      rw [hlookup, Option.bind_eq_bind, Option.bind_some, hdetach]
      rfl
    obtain ⟨rfl, rfl, rfl⟩ : _ = start ∧ _ = id ∧ _ = inner := by
      have heq := Option.some.inj (henter'.symm.trans henter)
      exact ⟨congrArg Prod.fst heq, congrArg (·.2.1) heq, congrArg (·.2.2) heq⟩
    refine ⟨hstands.context, ?_⟩
    have hroutine : entered.emitRoutine _ symbol.id sub = entered.writeAll [_] :=
      Generator.emitRoutine_eq hstands rfl
    exact (congrArg Generator.context hroutine).trans rfl

/-- Every use in a body resolves. -/
theorem resolves {source : String} {program : Program} {n : Nesting} {ctx : Context} {u : Use}
    (h : parse source = .ok (program, symbols)) (hp : p = program ∨ p = program.fold)
    (hat : ctx.At p symbols n) (hu : u ∈ Statement.usesAll (p.bodyAt n)) :
    u.Resolves n ctx.symbols := by
  have hblock {m : Nesting} {ctx : Context} (hm : program.Has m)
      (hreached : program.contextAt? symbols m = some ctx)
      (hu : u ∈ Statement.usesAll (program.bodyAt m)) : u.Resolves m ctx.symbols := by
    obtain ⟨body, g, ⟨_, rest, -, -, hbody, -⟩, ⟨g', haround, -⟩, hnumbered, hgrown⟩ :=
      exists_body_states h hm
    obtain ⟨hg, -⟩ := of_aroundBody? (Program.at_of_parse h (.inl rfl)) hm haround
    obtain rfl : g.context = ctx := Option.some.inj (hg.reached.symm.trans hreached)
    obtain ⟨-, -, hchecked⟩ := Parse.gives_compound body _ _ rfl rfl hbody
    exact (Statement.agrees_of_mem_usesAll hchecked hu).resolves hgrown hnumbered hg.opens
      (fun _ _ h => h.heads) hm hg.wellFormed
  rcases hp with rfl | rfl
  · exact hblock hat.has hat.reached hu
  · obtain ⟨m, hm, rfl⟩ := Program.exists_of_has_fold hat.has
    rw [Program.bodyAt_fold, Statement.usesAll_foldAll] at hu
    exact (hblock hm (Program.contextAt?_fold m ▸ hat.reached) hu).fold

end Context.At

/-! ## Places of what is indexed -/

namespace Routine

variable {p : Program} {symbols : SymbolTable} {r : Routine}

/-- The own name of a routine does not come to be hidden in it. -/
theorem Stands.not_hides_own (h : r.Stands p symbols) : ¬r.nesting.Hides r.sub.name [] := by
  obtain ⟨hsplit, -⟩ := h.context.has
  obtain ⟨params, locals, routines, rest, hscopes, -, -, -, houter⟩ := h.context.opens
  rintro (hmem | ⟨-, hhides⟩)
  · cases hmem
  obtain ⟨first, siblings, around, rfl, hsiblings, -⟩ := houter.split
  have hnodup := (h.context.wellFormed (first ++ siblings)
    (by rw [hscopes]; exact List.mem_cons_of_mem _ List.mem_cons_self)).nodup
  rw [Scope.names_append, Scope.names_of_forall₂ (fun _ _ h => h.name) hsiblings, hsplit] at hnodup
  have hafter : r.sub.name ∉ r.level.after.map Subprogram.name := by
    have := hnodup.of_append_right
    rw [List.map_append, List.map_cons] at this
    exact (List.nodup_cons.1 this.of_append_right).1
  cases houter : r.outer with
  | nil =>
    rw [houter] at hhides
    cases hhides
  | cons level outer =>
    rw [houter] at hhides hsplit
    rcases hhides with hmem | ⟨hdeclared, -⟩
    · exact hafter hmem
    · refine hdeclared (List.mem_append_right _ ?_)
      rw [show level.sub.subprograms = _ from hsplit]
      exact List.mem_map_of_mem (List.mem_append_right _ List.mem_cons_self)

/-- A subprogram other than the routine itself has no place in it. -/
theorem Stands.unplaced_of_params (h : r.Stands p symbols) {scope : Scope} {symbol : Symbol}
    {params : List ValueType} (hscope : scope ∈ r.context.symbols.scopes) (hs : symbol ∈ scope)
    (hparams : symbol.binding.params? = some params) (hid : symbol.id ≠ r.id) :
    r.inside.storage.get? symbol.id = none := by
  have hroutine : symbol.binding.isRoutine = true := by
    cases hbinding : symbol.binding with
    | function => rfl
    | procedure => rfl
    | program => rw [hbinding] at hparams; cases hparams
    | scalar => rw [hbinding] at hparams; cases hparams
    | array => rw [hbinding] at hparams; cases hparams
  by_contra hplaced
  obtain ⟨place, hplace⟩ := Option.ne_none_iff_exists'.1 hplaced
  rcases Frame.of_get?_assign hplace with ⟨offset, hslot, -⟩ | ⟨-, hplace⟩
  · rcases h.of_mem_ids (List.mem_map_of_mem hslot) with ⟨own, hown, heq, hvar, -⟩ | ⟨heq, -⟩
    · have hcurrent : r.context.symbols.current ∈ r.context.symbols.scopes := by
        rw [SymbolTable.scopes_eq]
        exact List.mem_cons_self
      obtain rfl := h.context.distinct.eq_of_id_eq hcurrent hown hscope hs heq
      rw [hroutine] at hvar
      cases hvar
    · exact hid heq
  · obtain ⟨last, global, v, -, hlast, hglobal, heq, hdeclares, -⟩ :=
      h.context.placed symbol.id place hplace
    obtain rfl := h.context.distinct.eq_of_id_eq (List.mem_of_getLast? hlast) hglobal hscope hs heq
    have hvar := hdeclares.isRoutine
    rw [hroutine] at hvar
    cases hvar

/-- What is indexed in a routine and has a place is an array. -/
theorem Stands.bounds_of_element (h : r.Stands p symbols) {x : String} {place : Storage}
    {bounds? : Option Bounds} (hx : (Use.element x).Resolves r.nesting r.context.symbols)
    (hplace : r.inside.place? x = some (place, bounds?)) : ∃ bounds, bounds? = some bounds := by
  obtain ⟨symbol, hlookup, hbounds⟩ := hx
  simp only [Context.place?, Option.bind_eq_some_iff, Option.map_eq_some_iff] at hplace
  obtain ⟨found, hfound, _, hget, heq⟩ := hplace
  obtain rfl : found = symbol := Option.some.inj (hfound.symm.trans hlookup)
  cases heq
  rcases hbounds with hbounds | ⟨hhides, params, hparams⟩
  · exact hbounds
  obtain ⟨depth, hfind⟩ := SymbolTable.lookup?_eq_some hlookup
  obtain ⟨scope, hscope, hmem⟩ := SymbolTable.mem_of_findIn hfind
  have hsymbol := Scope.mem_of_lookup? hmem
  have hid : found.id ≠ r.id := by
    intro heq
    obtain ⟨own, first, second, rest, houter, hown, hheads⟩ := h.own
    have hscope' : first ++ own :: second ∈ r.context.symbols.scopes := by
      rw [SymbolTable.scopes_eq, houter]
      exact List.mem_cons_of_mem _ List.mem_cons_self
    obtain rfl := h.context.distinct.eq_of_id_eq hscope' (List.mem_append_right _ List.mem_cons_self)
      hscope hsymbol (hown.trans heq.symm)
    refine h.not_hides_own ?_
    rw [← hheads.name, Scope.name_of_lookup? hmem]
    exact hhides
  rw [h.unplaced_of_params hscope hsymbol hparams hid] at hget
  cases hget

end Routine

end PascalMips
