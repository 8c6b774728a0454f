import PascalMips.Proofs.Program.Parts
import PascalMips.Proofs.Statement.Needs
import PascalMips.Proofs.Statement.Registers

/-!
# The limits of code generation

What is written for a program that was read from a text can be marked for few reasons
(`Program.Limit`): registers run out, a call or a subprogram has too many arguments, a frame is too
large, or a name is that of a variable or a function of a subprogram around the one where it is used.
No name is missing, no subprogram lacks a scope and no literal fails to be a number.

The parser found a declaration for every name. At the same block the generator finds that
declaration, or a subprogram that has come to hide it (`Context.At.resolves_need`); and it has a
place for every variable of the program and of the routine it is in. So there is one more reason for
a mark, a name that stands for something else than when it was read (`Program.Obscured`), and no
other (`Program.limits_of_parse`). It makes that a variable of the program is marked as one of a
subprogram around (`Program.lostGlobalSource_marked`).
-/

namespace PascalMips

/-! ## Bodies that are open -/

namespace Parse

/-- Subprograms that were read leave the open bodies as they were. -/
theorem enclosing_of_rounds {p q : Parser} {ss : List Subprogram}
    (h : Rounds (nextSubprogram? subprogram) p ss q) : q.enclosing = p.enclosing := by
  induction h with
  | nil => rfl
  | cons hstep _ ih =>
    obtain ⟨_, -, henclosing, -⟩ := declares_nextSubprogram? declares_subprogram _ _ _ hstep
    exact ih.trans henclosing

/-- In front of the subprograms of a block, the open bodies are those of the subprograms that the
block is nested in. -/
theorem enclosing_of_has {start q : Parser} {p : Program} (h : program start = .ok p q)
    (hstart : start.enclosing = []) : ∀ {n : Nesting}, p.Has n → ∃ front body,
      toFront n start = .ok () front ∧ subprograms front = .ok (p.subprogramsAt n) body ∧
        front.enclosing = n.path.reverse
  | [], _ => by
    obtain ⟨head, front, body, -, hhead, hsubs, -⟩ := of_program h
    obtain ⟨_, -, henclosing, -⟩ := declares_programHead start head front hhead
    exact ⟨front, body, bind_eq_ok.2 ⟨_, _, hhead, rfl⟩, hsubs, henclosing.trans hstart⟩
  | level :: outer, ⟨hsplit, houter⟩ => by
    obtain ⟨front, body, hfront, hsubs, henclosing⟩ := enclosing_of_has h hstart houter
    have hrounds := rounds_of_subprograms hsubs
    rw [hsplit] at hrounds
    obtain ⟨p', front', body', _, _, _, hbefore, hpasses, -⟩ := passes_of_rounds hrounds
    obtain ⟨-, -, -, -, -, -, -, -, -, hopened, -⟩ := of_subprogramHead hpasses.head
    refine ⟨front', body', ?_, hpasses.subprograms, ?_⟩
    · exact bind_eq_ok.2 ⟨_, _, hfront, bind_eq_ok.2
        ⟨_, _, skip_of_rounds hbefore, bind_eq_ok.2 ⟨_, _, hpasses.head, rfl⟩⟩⟩
    · rw [hopened, enclosing_of_rounds hbefore, henclosing, Nesting.path, List.reverse_append]
      rfl

/-- While a body is read, the open bodies are those of the subprograms it is nested in. -/
theorem enclosing_of_readsBody {source : String} {program : Program} {symbols : SymbolTable}
    (h : parse source = .ok (program, symbols)) {n : Nesting} (hn : program.Has n) {body : Parser}
    (hbody : ReadsBody source program n body) : body.enclosing = n.path.reverse := by
  obtain ⟨tokens, _, htokens, hprogram, -⟩ := of_parse h
  obtain ⟨tokens', _, htokens', htoBody, -⟩ := hbody
  obtain rfl : tokens = tokens' := Except.ok.inj (htokens.symm.trans htokens')
  obtain ⟨front, body', hfront, hsubs, henclosing⟩ := enclosing_of_has hprogram rfl hn
  have hcomes : toBody n ⟨tokens, .empty, []⟩ = .ok () body' :=
    bind_eq_ok.2 ⟨_, _, hfront, bind_eq_ok.2 ⟨_, _, hsubs, rfl⟩⟩
  rw [htoBody] at hcomes
  cases hcomes
  exact (enclosing_of_rounds (rounds_of_subprograms hsubs)).trans henclosing

end Parse

/-! ## Needs when a body is written -/

/-- What the generator makes of a need in the block `n`: a literal has a value, a name that is
called is found, and a name with a place is found as a variable or as a function around the block,
unless it came to be hidden by a subprogram of a block around. -/
def Need.Resolves (n : Nesting) (t : SymbolTable) : Need → Prop
  | number text .integer => ∃ i, Literal.integer? text = some i
  | number text .real => ∃ r, Literal.real? text = some r
  | place x => ∃ depth symbol, t.lookupWithDepth? x = some (depth, symbol) ∧
      (symbol.binding.IsVariable ∨ symbol.binding.role = .function ∧ x ∈ n.path ∨
        n.Hides x [] ∧ 1 < depth ∧ depth ≤ n.length ∧ symbol.binding.isRoutine = true)
  | call x _ => ∃ found, t.lookupWithDepth? x = some found

theorem Nesting.path_fold (n : Nesting) : n.fold.path = n.path := by
  induction n with
  | nil => rfl
  | cons level outer ih =>
    show Nesting.path (Nesting.fold outer) ++ [level.sub.fold.name] = _
    rw [ih, level.sub.name_fold]
    rfl

/-- What a need resolves to does not depend on bodies around, which folding changes. -/
theorem Need.Resolves.fold {n : Nesting} {t : SymbolTable} {need : Need} (h : need.Resolves n t) :
    need.Resolves n.fold t := by
  cases need with
  | number text type => cases type <;> exact h
  | place x =>
    obtain ⟨depth, symbol, hfind, hkind⟩ := h
    refine ⟨depth, symbol, hfind, ?_⟩
    rw [Nesting.path_fold, show n.fold.length = n.length from List.length_map _]
    exact hkind.imp_right (Or.imp_right (And.imp_left Nesting.hides_fold.2))
  | call x count => exact h

/-- A literal that the parser lets through has a value. -/
theorem Expr.IsReadable.resolves {text : String} {type : ValueType}
    (h : (Expr.literal text type).IsReadable) (n : Nesting) (t : SymbolTable) :
    (Need.number text type).Resolves n t := by
  obtain ⟨rfl, hnumber⟩ := h
  unfold Parse.isNumber at hnumber
  cases htype : ValueType.ofLiteral text with
  | integer =>
    rw [htype] at hnumber
    exact Option.isSome_iff_exists.1 hnumber
  | real =>
    rw [htype] at hnumber
    obtain ⟨r, hr, -⟩ := (Option.any_eq_true _ _).1 hnumber
    exact ⟨r, hr⟩

/-- A hidden name is not one of the block itself. -/
theorem Nesting.Opens.depth_le_of_hides {p : Program} {R : Subprogram → Symbol → Prop} {n : Nesting}
    {scopes : List Scope} {x : String} (h : n.Opens p R scopes)
    (hR : ∀ s symbol, R s symbol → s.Heads symbol) (hhides : n.Hides x []) {depth : Nat}
    {symbol : Symbol} (hfind : SymbolTable.findIn scopes x = some (depth, symbol)) :
    depth ≤ n.length := by
  cases n with
  | nil => cases hhides
  | cons level outer =>
    obtain ⟨params, locals, routines, rest, rfl, hparams, hlocals, hroutines, houter⟩ := h
    rcases hhides with hx | ⟨hx, -⟩
    · cases hx
    have hnames := Subprogram.names_of_block hR hparams hlocals hroutines
    rw [SymbolTable.findIn_cons_of_notMem (hnames ▸ hx)] at hfind
    obtain ⟨within, scope, around, rfl, rfl, -⟩ := SymbolTable.split_of_findIn hfind
    have hlength := houter.length
    rw [List.length_append, List.length_cons] at hlength
    rw [List.length_cons]
    omega

theorem Binding.isRoutine_of_params? {b : Binding} {params : List ValueType}
    (h : b.params? = some params) : b.isRoutine = true := by
  cases b with
  | function => rfl
  | procedure => rfl
  | program => cases h
  | scalar => cases h
  | array => cases h

/-- A variable is no subprogram. -/
theorem Binding.IsVariable.isRoutine {b : Binding} (h : b.IsVariable) : b.isRoutine = false := by
  cases b with
  | function => rcases h with h | h <;> cases h
  | procedure => rcases h with h | h <;> cases h
  | program => rfl
  | scalar => rfl
  | array => rfl

/-- A need that agrees with the open scopes of the parser resolves in the grown ones. -/
theorem Need.Agrees.resolves {p : Program} {R : Subprogram → Symbol → Prop} {n : Nesting}
    {t u : SymbolTable} {need : Need} (h : need.Agrees t n.path.reverse)
    (hgrown : Grown t.nextId [] n t.scopes u.scopes) (ht : t.Numbered) (hopens : n.Opens p R u.scopes)
    (hR : ∀ s symbol, R s symbol → s.Heads symbol) (hn : p.Has n) (hw : u.WellFormed) :
    need.Resolves n u := by
  cases need with
  | number text type => exact Expr.IsReadable.resolves h n u
  | place x =>
    obtain ⟨symbol, hlookup, hkind⟩ := h
    by_cases hx : n.Hides x []
    · obtain ⟨depth, symbol', hfind, hdepth, params, hparams⟩ := hopens.find_of_hides hR hn
        (fun scope hscope => (hw scope hscope).nodup) (fun _ hs => absurd hs List.not_mem_nil) hx
      exact ⟨depth, symbol', hfind, .inr (.inr ⟨hx, hdepth, hopens.depth_le_of_hides hR hx hfind,
        Binding.isRoutine_of_params? hparams⟩)⟩
    · obtain ⟨depth, hfind⟩ := SymbolTable.lookup?_eq_some hlookup
      obtain ⟨depth', symbol', hfind', -, hsame⟩ := hgrown.findIn_grown ht hfind
      obtain ⟨rfl, rfl⟩ := hsame hx
      refine ⟨depth', symbol', hfind', hkind.imp_right fun hfunction => .inl ?_⟩
      exact ⟨hfunction.1, List.mem_reverse.1 hfunction.2⟩
  | call x count =>
    obtain ⟨symbol, params, hlookup, -⟩ := h
    obtain ⟨depth, hfind⟩ := SymbolTable.lookup?_eq_some hlookup
    obtain ⟨depth', symbol', hfind', -⟩ := hgrown.findIn_grown ht hfind
    exact ⟨_, hfind'⟩

/-- Every need of a body resolves. -/
theorem Context.At.resolves_need {source : String} {program p : Program} {symbols : SymbolTable}
    {n : Nesting} {ctx : Context} {need : Need} (h : parse source = .ok (program, symbols))
    (hp : p = program ∨ p = program.fold) (hat : ctx.At p symbols n)
    (hneed : need ∈ Statement.needsAll (p.bodyAt n)) : need.Resolves n ctx.symbols := by
  have hblock {m : Nesting} {ctx : Context} (hm : program.Has m)
      (hreached : program.contextAt? symbols m = some ctx) : ∃ t,
        Statement.AllOf (Statement.IsChecked t m.path.reverse) (program.bodyAt m) ∧
          ∀ need : Need, need.Agrees t m.path.reverse → need.Resolves m ctx.symbols := by
    obtain ⟨body, g, hread, ⟨g', haround, -⟩, hnumbered, hgrown⟩ := exists_body_states h hm
    obtain ⟨hg, -⟩ := of_aroundBody? (Program.at_of_parse h (.inl rfl)) hm haround
    obtain rfl : g.context = ctx := Option.some.inj (hg.reached.symm.trans hreached)
    have henclosing := Parse.enclosing_of_readsBody h hm hread
    obtain ⟨_, rest, -, -, hbody, -⟩ := hread
    obtain ⟨-, -, hchecked⟩ := Parse.gives_compound body _ _ rfl henclosing hbody
    exact ⟨body.symbols, hchecked, fun need hneed => hneed.resolves hgrown hnumbered hg.opens
      (fun _ _ h => h.heads) hm hg.wellFormed⟩
  rcases hp with rfl | rfl
  · obtain ⟨t, hchecked, hresolves⟩ := hblock hat.has hat.reached
    exact hresolves need (Statement.agrees_of_mem_needsAll hchecked hneed)
  · obtain ⟨m, hm, rfl⟩ := Program.exists_of_has_fold hat.has
    obtain ⟨t, hchecked, hresolves⟩ := hblock hm (Program.contextAt?_fold m ▸ hat.reached)
    rw [Program.bodyAt_fold] at hneed
    exact (hresolves need (Statement.agrees_of_mem_needsAll (Statement.checked_foldAll hchecked)
      hneed)).fold

/-! ## Places of variables -/

/-- Every variable of the program has a place. -/
def Context.PlacesGlobals (ctx : Context) : Prop :=
  ∀ symbol ∈ ctx.symbols.global, symbol.binding.IsVariable →
    ∃ place, ctx.storage.get? symbol.id = some place

/-- A variable that is written to the data has a place from then on, and keeps it. -/
theorem Generator.get?_emitData {vars : List Variable} {g : Generator} {id : Nat}
    (h : (∃ v ∈ vars, ∃ symbol, g.symbols.global.lookup? v.name = some symbol ∧ symbol.id = id) ∨
      ∃ place, g.context.storage.get? id = some place) :
    ∃ place, (g.emitData vars).context.storage.get? id = some place := by
  induction vars generalizing g with
  | nil =>
    rcases h with ⟨v, hv, -⟩ | h
    · cases hv
    · exact h
  | cons v vars ih =>
    refine ih (g := g.emitVariable v) ?_
    unfold Generator.emitVariable
    cases hlookup : g.symbols.global.lookup? v.name with
    | none =>
      rcases h with ⟨w, hw, symbol, hsymbol, hid⟩ | h
      · rcases List.mem_cons.1 hw with rfl | hw
        · rw [hlookup] at hsymbol
          cases hsymbol
        · exact .inl ⟨w, hw, symbol, hsymbol, hid⟩
      · exact .inr h
    | some symbol =>
      by_cases hid : id = symbol.id
      · refine .inr ⟨.global (.ofVariable v.name), ?_⟩
        exact (StorageMap.get?_assign ..).trans (if_pos hid)
      · rcases h with ⟨w, hw, other, hother, rfl⟩ | ⟨place, hplace⟩
        · rcases List.mem_cons.1 hw with rfl | hw
          · rw [hlookup] at hother
            cases hother
            exact absurd rfl hid
          · exact .inl ⟨w, hw, other, hother, rfl⟩
        · refine .inr ⟨place, ?_⟩
          exact (StorageMap.get?_assign ..).trans ((if_neg hid).trans hplace)

/-- Every variable of the program is declared, so it has a place once the data is written. -/
theorem Program.placesGlobals_context {p : Program} {symbols : SymbolTable}
    (h : (p.context symbols).At p symbols []) : (p.context symbols).PlacesGlobals := by
  intro symbol hs hvar
  obtain ⟨own, vars, routines, hscopes, hown, hvars, hroutines⟩ := h.opens
  obtain ⟨hnodup, -⟩ := global_of_at h
  rw [symbols_context] at hs hscopes
  have hglobal : symbols.global = own :: (vars ++ routines) := by
    have hlast : symbols.inner ++ [symbols.global] = [] ++ [own :: (vars ++ routines)] := hscopes
    exact (List.cons.inj (List.append_inj' hlast rfl).2).1
  refine Generator.get?_emitData (.inl ?_)
  have hroutine := hvar.isRoutine
  have hmem := hs
  rw [hglobal] at hmem
  rcases List.mem_cons.1 hmem with rfl | hmem
  · rw [Binding.IsVariable, hown] at hvar
    rcases hvar with hvar | hvar <;> cases hvar
  rcases List.mem_append.1 hmem with hmem | hmem
  · obtain ⟨v, hv, hdeclares⟩ := exists_of_mem_forall₂ hvars hmem
    refine ⟨v, hv, symbol, ?_, rfl⟩
    rw [← hdeclares.name]
    exact Scope.lookup?_of_mem hnodup hs
  · obtain ⟨s, -, hdeclares⟩ := exists_of_mem_forall₂ hroutines hmem
    rw [hdeclares.heads.isRoutine] at hroutine
    cases hroutine

/-- Entering a subprogram keeps the places of the program's variables. -/
theorem Context.PlacesGlobals.enter {ctx inner : Context} {name : String} {start : Label} {id : Nat}
    (h : ctx.PlacesGlobals) (henter : ctx.enter? name = some (start, id, inner)) :
    inner.PlacesGlobals := by
  simp only [Context.enter?, Option.bind_eq_bind, Option.bind_eq_some_iff, Prod.exists,
    Option.pure_def, Option.some.injEq, Prod.mk.injEq] at henter
  obtain ⟨depth, routine, -, scope, u, hdetach, -, -, rfl⟩ := henter
  -- taking a scope off a symbol changes neither its number nor what it stands for
  have hold : ∀ symbol ∈ u.global, ∃ old ∈ ctx.symbols.global,
      old.id = symbol.id ∧ old.binding = symbol.binding := by
    unfold SymbolTable.detach? at hdetach
    split at hdetach
    · obtain ⟨_, -, heq⟩ := Option.map_eq_some_iff.1 hdetach
      cases heq
      intro symbol hs
      unfold SymbolTable.update at hs
      split at hs
      · exact ⟨symbol, hs, rfl, rfl⟩
      · obtain ⟨old, hold, rfl⟩ := List.mem_map.1 hs
        refine ⟨old, hold, ?_⟩
        split <;> exact ⟨rfl, rfl⟩
    · cases hdetach
  intro symbol hs hvar
  obtain ⟨old, hmem, hid, hbinding⟩ := hold symbol hs
  rw [← hid]
  exact h old hmem (hbinding ▸ hvar)

/-- At every block the variables of the program have their places, by induction over the nesting. -/
theorem Context.At.placesGlobals {p : Program} {symbols : SymbolTable}
    (hp : (p.context symbols).At p symbols []) {n : Nesting} {ctx : Context}
    (h : p.contextAt? symbols n = some ctx) : ctx.PlacesGlobals := by
  induction n generalizing ctx with
  | nil =>
    cases h
    exact Program.placesGlobals_context hp
  | cons level outer ih =>
    simp only [Program.contextAt?, Option.bind_eq_bind, Option.bind_eq_some_iff, Prod.exists,
      Option.pure_def, Option.some.injEq] at h
    obtain ⟨around, haround, start, id, inner, henter, rfl⟩ := h
    exact (ih haround).enter henter

/-- What is found at depth one is in the global scope. -/
theorem SymbolTable.mem_global_of_find {t : SymbolTable} {x : String} {symbol : Symbol}
    (h : t.lookupWithDepth? x = some (1, symbol)) : symbol ∈ t.global := by
  obtain ⟨within, scope, outer, hscopes, hdepth, hlookup⟩ := split_of_findIn h
  have houter : outer = [] := List.eq_nil_of_length_eq_zero (by omega)
  rw [houter] at hscopes
  have hscope := (List.append_inj' (show t.inner ++ [t.global] = within ++ [scope] from hscopes) rfl).2
  rw [(List.cons.inj hscope).1]
  exact Scope.mem_of_lookup? hlookup

namespace Routine

variable {p : Program} {symbols : SymbolTable} {r : Routine}

/-- Where its frame is laid out, a routine has places for its parameters and variables. -/
theorem Stands.place_of_current (h : r.Stands p symbols) {f : Frame} (hf : r.layout = .ok f)
    {symbol : Symbol} (hs : symbol ∈ r.context.symbols.current) (hvar : symbol.binding.IsVariable) :
    ∃ place, r.inside.storage.get? symbol.id = some place := by
  obtain ⟨params, locals, routines, rest, hscopes, hparams, hlocals, hroutines, -⟩ :=
    h.context.opens
  have hcurrent := SymbolTable.current_eq hscopes
  have hv : ∃ v ∈ r.sub.args ++ r.sub.vars, v.name = symbol.name := by
    rw [hcurrent] at hs
    rcases List.mem_append.1 hs with hs | hs
    · obtain ⟨v, hv, hdeclares⟩ := exists_of_mem_forall₂ hparams hs
      exact ⟨v, List.mem_append_left _ hv, hdeclares.name.symm⟩
    rcases List.mem_append.1 hs with hs | hs
    · obtain ⟨v, hv, hdeclares⟩ := exists_of_mem_forall₂ hlocals hs
      exact ⟨v, List.mem_append_right _ hv, hdeclares.name.symm⟩
    · obtain ⟨s, -, hdeclares⟩ := exists_of_mem_forall₂ hroutines hs
      have hroutine := hvar.isRoutine
      rw [hdeclares.heads.isRoutine] at hroutine
      cases hroutine
  obtain ⟨v, hv, hname⟩ := hv
  obtain ⟨found, offset, hlookup, hslot⟩ := (h.frameSound.complete f hf).1 v hv
  have hnodup := (h.context.wellFormed _ (hscopes ▸ List.mem_cons_self)).nodup
  rw [hname, hcurrent, Scope.lookup?_of_mem hnodup (hcurrent ▸ hs)] at hlookup
  cases hlookup
  have hids := h.frameSound.nodup
  rw [frame_of_ok hf] at hids
  refine ⟨.stack offset, ?_⟩
  rw [inside, frame_of_ok hf]
  exact Frame.get?_assign_of_mem hids hslot

/-- In a routine the variables of the program keep their places. -/
theorem Stands.place_of_get? (h : r.Stands p symbols) {id : Nat} {place : Storage}
    (hplace : r.context.storage.get? id = some place) : r.inside.storage.get? id = some place := by
  have hid : id ∉ r.frame.ids := by
    intro hid
    rw [h.fresh hid] at hplace
    cases hplace
  exact (Frame.get?_assign_of_notMem hid).trans hplace

/-- A function has a place for its result. -/
theorem Stands.place_of_own (h : r.Stands p symbols) {f : Frame} (hf : r.layout = .ok f)
    (hkind : r.sub.kind = .function) : ∃ place, r.inside.storage.get? r.id = some place := by
  obtain ⟨offset, -, hslot⟩ := (h.frameSound.complete f hf).2 hkind
  have hids := h.frameSound.nodup
  rw [frame_of_ok hf] at hids
  refine ⟨.stack offset, ?_⟩
  rw [inside, frame_of_ok hf]
  exact Frame.get?_assign_of_mem hids hslot

/-- A symbol with the number of the routine, found as a function, is that of a function. -/
theorem Stands.kind_of_id (h : r.Stands p symbols) {x : String} {depth : Nat} {symbol : Symbol}
    (hfind : r.context.symbols.lookupWithDepth? x = some (depth, symbol)) (hid : symbol.id = r.id)
    (hrole : symbol.binding.role = .function) : r.sub.kind = .function := by
  obtain ⟨own, first, second, rest, houter, hown, hheads⟩ := h.own
  obtain ⟨scope, hscope, hlookup⟩ := SymbolTable.mem_of_findIn hfind
  have hmem : first ++ own :: second ∈ r.context.symbols.scopes := by
    rw [SymbolTable.scopes_eq, houter]
    exact List.mem_cons_of_mem _ List.mem_cons_self
  obtain rfl := h.context.distinct.eq_of_id_eq hmem (List.mem_append_right _ List.mem_cons_self)
    hscope (Scope.mem_of_lookup? hlookup) (hown.trans hid.symm)
  have hbinds := hheads.binding
  cases hkind : r.sub.kind with
  | function => rfl
  | procedure =>
    rw [hkind] at hbinds
    obtain ⟨-, hbinding⟩ := hbinds
    rw [hbinding] at hrole
    cases hrole

/-! ## Frames that do not fit -/

/-- The words of the variable in a routine. -/
def wordsOf (r : Routine) (v : Variable) : Nat :=
  ((r.context.symbols.current.lookup? v.name).map Symbol.words).getD 0

/-- The words that the parameters, the variables and the result of a routine take up. -/
def wordsNeeded (r : Routine) : Nat :=
  ((r.sub.args ++ r.sub.vars).map r.wordsOf).sum + Frame.total (Frame.resultBlock r.id r.sub.kind)

/-- The words of variables are those of the symbols found for them. -/
theorem total_of_finds {vs : List Variable} {found : Scope}
    (h : List.Forall₂ (Frame.Finds r.context.symbols.current) vs found) :
    Frame.total (found.map Frame.blockOf) = (vs.map r.wordsOf).sum := by
  induction h with
  | nil => rfl
  | @cons v symbol vs found hv _ ih =>
    have hlookup : r.context.symbols.current.lookup? v.name = some symbol := hv
    rw [Frame.total, List.map_map] at ih
    simp [Frame.total, wordsOf, hlookup, Frame.blockOf, ih]

/-- If the frame of a routine cannot be laid out, its words do not fit into offsets of 32 bits. -/
theorem Stands.overflow (h : r.Stands p symbols) {f : Frame} (hf : r.layout = .error f) :
    2147483648 ≤ wordSize * r.wordsNeeded := by
  obtain ⟨params, locals, routines, rest, hscopes, hblock, hlays⟩ := h.lays
  rw [hf] at hlays
  obtain ⟨done, block, ⟨more, hmore⟩, -, hoverflow⟩ := hlays
  have hcurrent := SymbolTable.current_eq hscopes
  have hparams := total_of_finds (h.lookup?_of_forall₂ (fun _ _ h => h.name) hblock.params
    fun symbol hs => hcurrent ▸ List.mem_append_left _ hs)
  have hlocals := total_of_finds (h.lookup?_of_forall₂ (fun _ _ h => h.name) hblock.locals
    fun symbol hs => hcurrent ▸ List.mem_append_right _ (List.mem_append_left _ hs))
  have htotal : r.wordsNeeded = Frame.total (Frame.blocks params locals r.sub.kind r.id) := by
    rw [wordsNeeded, List.map_append, List.sum_append, ← hparams, ← hlocals]
    simp [Frame.total, Frame.blocks, Nat.add_assoc]
  have hle : Frame.total done + block.2 ≤ r.wordsNeeded := by
    rw [htotal, ← hmore]
    simp [Frame.total]
  exact hoverflow.trans (Nat.mul_le_mul_left _ hle)

end Routine

/-! ## Limits -/

/-- The limits for which code for `p`, written with the names `symbols`, can be marked. -/
inductive Program.Limit (p : Program) (symbols : SymbolTable) : Diagnostic → Prop
  /-- A body takes more registers than there are. -/
  | registers {n : Nesting} (hn : p.Has n)
      (hcount : Reg.pool.length < Statement.registersAll (p.bodyAt n)) :
      Limit p symbols .outOfRegisters
  /-- A body calls a subprogram with more arguments than there are argument registers. -/
  | arguments {n : Nesting} {x : String} {count : Nat} (hn : p.Has n)
      (hcall : .call x count ∈ Statement.needsAll (p.bodyAt n))
      (hcount : Reg.arguments.length < count) : Limit p symbols (.tooManyArguments x count)
  /-- A subprogram has more parameters than there are argument registers. -/
  | parameters {r : Routine} (hr : r ∈ p.routines symbols)
      (hcount : Reg.arguments.length < r.sub.args.length) :
      Limit p symbols (.tooManyParameters r.sub.name)
  /-- The words of a subprogram do not fit into offsets of 32 bits. -/
  | frame {r : Routine} (hr : r ∈ p.routines symbols)
      (hwords : 2147483648 ≤ wordSize * r.wordsNeeded) : Limit p symbols (.frameTooLarge r.sub.name)
  /-- The name is that of a variable of a subprogram around: neither of the program nor of the
  routine itself. -/
  | uplevel {r : Routine} {x : String} {depth : Nat} {symbol : Symbol} (hr : r ∈ p.routines symbols)
      (hfind : r.context.symbols.lookupWithDepth? x = some (depth, symbol))
      (hvar : symbol.binding.IsVariable) (hglobal : 1 < depth) (hlocal : depth ≤ r.nesting.length) :
      Limit p symbols (.frameUnreachable x)
  /-- The name is that of a function around the routine, and the function found is not the routine
  itself. -/
  | result {r : Routine} {x : String} {depth : Nat} {symbol : Symbol} (hr : r ∈ p.routines symbols)
      (hfind : r.context.symbols.lookupWithDepth? x = some (depth, symbol))
      (hrole : symbol.binding.role = .function) (haround : x ∈ r.nesting.path)
      (hother : symbol.id ≠ r.id) : Limit p symbols (.resultUnreachable x)

/-- Code for `p` is marked because a routine has a name with a place that a subprogram came to hide,
declared in a block around after the routine was read. -/
inductive Program.Obscured (p : Program) (symbols : SymbolTable) : Diagnostic → Prop
  | hidden {r : Routine} {x : String} {depth : Nat} {symbol : Symbol} (hr : r ∈ p.routines symbols)
      (hneed : .place x ∈ Statement.needsAll r.sub.body) (hhides : r.nesting.Hides x [])
      (hfind : r.context.symbols.lookupWithDepth? x = some (depth, symbol))
      (hroutine : symbol.binding.isRoutine = true) : Obscured p symbols (Lower.unreachable symbol)

/-- The diagnostics of a table that does not belong to the program, or of a tree that no parser
reads. -/
def Diagnostic.IsInternal : Diagnostic → Prop
  | missingGlobal _ => True
  | missingRoutine _ => True
  | noLocalScope _ => True
  | undeclared _ => True
  | notInteger _ => True
  | notReal _ => True
  | _ => False

theorem Program.Limit.not_isInternal {p : Program} {symbols : SymbolTable} {d : Diagnostic}
    (h : p.Limit symbols d) : ¬d.IsInternal := by
  cases h <;> exact id

theorem Program.Obscured.not_isInternal {p : Program} {symbols : SymbolTable} {d : Diagnostic}
    (h : p.Obscured symbols d) : ¬d.IsInternal := by
  cases h
  unfold Lower.unreachable
  split <;> exact id

theorem Lower.unreachable_of_function {symbol : Symbol} (h : symbol.binding.role = .function) :
    unreachable symbol = .resultUnreachable symbol.name :=
  if_pos h

theorem Lower.unreachable_of_ne {symbol : Symbol} (h : symbol.binding.role ≠ .function) :
    unreachable symbol = .frameUnreachable symbol.name :=
  if_neg h

/-- Looking up a name with or without its depth gives the same symbol. -/
theorem SymbolTable.find_of_lookup? {t : SymbolTable} {x : String} {depth : Nat}
    {symbol found : Symbol} (h : t.lookup? x = some symbol)
    (hfind : t.lookupWithDepth? x = some (depth, found)) : found = symbol := by
  rw [lookup?, hfind] at h
  exact Option.some.inj h

namespace Routine

variable {p : Program} {symbols : SymbolTable} {r : Routine}

/-- A name without a place in a routine is one of a subprogram around it, or a subprogram came to
hide it. -/
theorem Stands.limit_of_place (h : r.Stands p symbols) (hr : r ∈ p.routines symbols) {f : Frame}
    (hf : r.layout = .ok f) (hglobals : r.context.PlacesGlobals) {x : String} {symbol : Symbol}
    (hneed : .place x ∈ Statement.needsAll r.sub.body)
    (hx : (Need.place x).Resolves r.nesting r.context.symbols)
    (hlookup : r.inside.symbols.lookup? x = some symbol)
    (hplace : r.inside.storage.get? symbol.id = none) :
    p.Limit symbols (Lower.unreachable symbol) ∨ p.Obscured symbols (Lower.unreachable symbol) := by
  obtain ⟨depth, found, hfind, hkind⟩ := hx
  obtain rfl : found = symbol := SymbolTable.find_of_lookup? hlookup hfind
  have hname := SymbolTable.name_of_find hfind
  have hunplaced : ¬∃ place, r.inside.storage.get? found.id = some place := by
    rintro ⟨place, hsome⟩
    rw [hplace] at hsome
    cases hsome
  rcases hkind with hvar | ⟨hrole, hpath⟩ | ⟨hhides, -, -, hroutine⟩
  · -- a variable: those of the program and of the routine have places
    have hrole : found.binding.role ≠ .function := by
      rcases hvar with hvar | hvar <;> rw [hvar] <;> nofun
    rw [Lower.unreachable_of_ne hrole, hname]
    obtain ⟨within, scope, outer, hscopes, hdepth, hmem⟩ := SymbolTable.split_of_findIn hfind
    have hlength := h.context.opens.length
    rw [hscopes, List.length_append, List.length_cons] at hlength
    refine .inl (.uplevel hr hfind hvar ?_ ?_)
    · by_contra hle
      obtain rfl : depth = 1 := by omega
      obtain ⟨place, hget⟩ := hglobals found (SymbolTable.mem_global_of_find hfind) hvar
      exact hunplaced ⟨place, h.place_of_get? hget⟩
    · by_contra hlt
      have hwithin : within = [] := List.eq_nil_of_length_eq_zero (by omega)
      rw [hwithin] at hscopes
      have hcurrent := SymbolTable.current_eq hscopes
      exact hunplaced (h.place_of_current hf (hcurrent ▸ Scope.mem_of_lookup? hmem) hvar)
  · -- a function around: the routine itself has a place for its result
    have hother : found.id ≠ r.id := by
      intro hid
      rw [hid] at hunplaced
      exact hunplaced (h.place_of_own hf (h.kind_of_id hfind hid hrole))
    rw [Lower.unreachable_of_function hrole, hname]
    exact .inl (.result hr hfind hrole hpath hother)
  · exact .inr (.hidden hr hneed hhides hfind hroutine)

end Routine

/-- Where a name is found that was called and a number is one, a need that is not met is that of
a place, or of argument registers. -/
theorem Need.Resolves.of_marks {n : Nesting} {ctx : Context} {need : Need} {d : Diagnostic}
    (h : need.Resolves n ctx.symbols) (hmarks : need.Marks ctx d) :
    (∃ x symbol, need = .place x ∧ ctx.symbols.lookup? x = some symbol ∧
      ctx.storage.get? symbol.id = none ∧ d = Lower.unreachable symbol) ∨
    ∃ x count, need = .call x count ∧ Reg.arguments.length < count ∧ d = .tooManyArguments x count := by
  cases hmarks with
  | integer hnone =>
    obtain ⟨i, hi⟩ := h
    rw [hnone] at hi
    cases hi
  | real hnone =>
    obtain ⟨r, hr⟩ := h
    rw [hnone] at hr
    cases hr
  | name hnone =>
    obtain ⟨depth, symbol, hfind, -⟩ := h
    rw [SymbolTable.lookup?, hfind] at hnone
    cases hnone
  | place hlookup hplace => exact .inl ⟨_, _, rfl, hlookup, hplace, rfl⟩
  | routine hnone =>
    obtain ⟨found, hfind⟩ := h
    rw [hnone] at hfind
    cases hfind
  | arguments hcount => exact .inr ⟨_, _, rfl, hcount, rfl⟩

/-! ## Lines and their marks -/

namespace Lower

/-- Saving registers is never marked. -/
theorem mark_notMem_savedLines {d : Diagnostic} (action : Reg → Address → Instr) (index : Nat)
    (regs : List Reg) : Line.mark d ∉ savedLines action index regs := by
  induction regs generalizing index with
  | nil => exact List.not_mem_nil
  | cons reg regs ih =>
    rw [savedLines, List.mem_cons, not_or]
    exact ⟨nofun, ih _⟩

theorem mark_notMem_moveLines {d : Diagnostic} (amount : Int) : Line.mark d ∉ moveLines amount := by
  unfold moveLines
  split <;> simp

theorem mark_notMem_prologueLines {d : Diagnostic} (f : Frame) : Line.mark d ∉ prologueLines f := by
  simp [prologueLines, mark_notMem_moveLines, mark_notMem_savedLines]

theorem mark_notMem_epilogueLines {d : Diagnostic} (f : Frame) : Line.mark d ∉ epilogueLines f := by
  simp [epilogueLines, mark_notMem_moveLines, mark_notMem_savedLines]

theorem mark_notMem_resultLines {d : Diagnostic} (result : Option Nat) :
    Line.mark d ∉ resultLines result := by
  cases result <;> simp [resultLines]

/-- Where parameters are stored, only those beyond the registers are marked. -/
theorem of_mark_mem_storeLines {d : Diagnostic} {name : String} {offsets : List Nat} {regs : List Reg}
    (h : .mark d ∈ storeLines name offsets regs) :
    d = .tooManyParameters name ∧ regs.length < offsets.length := by
  induction offsets generalizing regs with
  | nil => cases h
  | cons offset offsets ih =>
    cases regs with
    | nil =>
      rcases List.mem_cons.1 h with h | h
      · cases h
        exact ⟨rfl, Nat.zero_lt_succ _⟩
      · exact ⟨(ih h).1, Nat.zero_lt_succ _⟩
    | cons reg regs =>
      rcases List.mem_cons.1 h with h | h
      · cases h
      · exact ⟨(ih h).1, Nat.succ_lt_succ (ih h).2⟩

end Lower

namespace Routine

variable {p : Program} {symbols : SymbolTable} {r : Routine}

/-- A frame has no more parameters than the subprogram. -/
theorem Stands.length_params (h : r.Stands p symbols) {f : Frame} (hf : r.layout = .ok f) :
    f.params.length ≤ r.sub.args.length := by
  obtain ⟨params, locals, routines, rest, -, hblock, hlays⟩ := h.lays
  rw [hf] at hlays
  obtain ⟨-, hparams, -⟩ := hlays
  rw [hparams, List.length_map, List.length_take, hblock.params.length_eq]
  exact Nat.min_le_left ..

end Routine

namespace Program

variable {source : String} {program p : Program} {symbols : SymbolTable}

/-- The data of a program is never marked. -/
theorem mark_notMem_data {d : Diagnostic} {vars : List Variable} :
    Line.mark d ∉ .directive .data :: vars.map (dataLine symbols) := by
  rw [List.mem_cons, not_or]
  refine ⟨nofun, fun hd => ?_⟩
  obtain ⟨v, -, hv⟩ := List.mem_map.1 hd
  unfold dataLine Generator.dataLine at hv
  split at hv <;> cases hv

/-- In the main part nothing is hidden, and every name with a place is a variable of the program. -/
theorem limit_of_main (h : parse source = .ok (program, symbols))
    (hp : p = program ∨ p = program.fold) {d : Diagnostic}
    (hd : .mark d ∈ (p.mainPart symbols).lines) : p.Limit symbols d := by
  have hat := at_of_parse h hp
  simp only [Part.lines, mainPart, List.mem_append, List.mem_cons, reduceCtorEq, false_or,
    List.not_mem_nil, instrLines, List.map_cons, List.map_nil, or_false] at hd
  rcases Statement.marks_lowerAll (List.Subset.refl _) _ d hd with rfl | ⟨need, hneed, hmarks⟩
  · exact .registers (n := []) trivial (Statement.fits_lowerAll p.body
      (congrArg Counters.cursor (p.counters_data symbols)) hd)
  rcases (hat.resolves_need h hp hneed).of_marks hmarks with
    ⟨x, symbol, rfl, hlookup, hplace, -⟩ | ⟨x, count, rfl, hcount, rfl⟩
  · exfalso
    obtain ⟨depth, found, hfind, hvar | ⟨-, hpath⟩ | ⟨hhides, -⟩⟩ := hat.resolves_need h hp hneed
    · obtain rfl : found = symbol := SymbolTable.find_of_lookup? hlookup hfind
      obtain ⟨within, scope, outer, hscopes, hdepth, -⟩ := SymbolTable.split_of_findIn hfind
      have hlength := hat.opens.length
      rw [hscopes, List.length_append, List.length_cons] at hlength
      obtain rfl : depth = 1 := by simp only [List.length_nil] at hlength; omega
      obtain ⟨place, hget⟩ := Context.At.placesGlobals hat hat.reached found
        (SymbolTable.mem_global_of_find hfind) hvar
      rw [hplace] at hget
      cases hget
    · cases hpath
    · exact hhides
  · exact .arguments (n := []) trivial hneed hcount

/-- A mark in a routine stands for a frame that is too large, for a parameter, or for something in
its body. -/
theorem limit_of_routine (h : parse source = .ok (program, symbols))
    (hp : p = program ∨ p = program.fold) {r : Routine} {c : Counters}
    (hr : (r, c) ∈ p.written symbols) {d : Diagnostic} (hd : .mark d ∈ (r.part c).lines) :
    p.Limit symbols d ∨ p.Obscured symbols d := by
  have hat := at_of_parse h hp
  have hmem := Routine.mem_of_mem_written hr
  have hstands := stands_of_mem_routines hat hmem
  unfold Routine.part at hd
  cases hf : r.layout with
  | error f =>
    rw [hf] at hd
    simp only [Part.lines, List.mem_append, List.mem_cons, List.not_mem_nil, reduceCtorEq, or_false,
      Line.mark.injEq] at hd
    rw [hd]
    exact .inl (.frame hmem (hstands.overflow hf))
  | ok f =>
    rw [hf] at hd
    simp only [Part.lines, List.mem_append, List.mem_cons, reduceCtorEq, false_or,
      Lower.mark_notMem_prologueLines, Lower.mark_notMem_resultLines, Lower.mark_notMem_epilogueLines,
      or_false] at hd
    rcases hd with hd | hd
    · obtain ⟨rfl, hcount⟩ := Lower.of_mark_mem_storeLines hd
      exact .inl (.parameters hmem (hcount.trans_le (hstands.length_params hf)))
    rcases Statement.marks_lowerAll (List.Subset.refl _) _ d hd with rfl | ⟨need, hneed, hmarks⟩
    · exact .inl (.registers hstands.context.has
        (Statement.fits_lowerAll r.sub.body (cursor_of_mem_written hr) hd))
    have hresolves : need.Resolves r.nesting r.context.symbols :=
      hstands.context.resolves_need h hp hneed
    have hinside : need.Resolves r.nesting r.inside.symbols := hresolves
    rcases hinside.of_marks hmarks with
      ⟨x, symbol, rfl, hlookup, hplace, rfl⟩ | ⟨x, count, rfl, hcount, rfl⟩
    · exact hstands.limit_of_place hmem hf (Context.At.placesGlobals hat hstands.context.reached)
        hneed hresolves hlookup hplace
    · exact .inl (.arguments hstands.context.has hneed hcount)

/-- Code for a program that was read from a text, folded or not, is marked for its limits and for
names that came to be hidden, and for no other reason. In particular all names and scopes are there,
and all literals are numbers. -/
theorem limits_of_parse (h : parse source = .ok (program, symbols))
    (hp : p = program ∨ p = program.fold) :
    ∀ d ∈ ((Generator.new symbols).emitProgram p).diagnostics,
      (p.Limit symbols d ∨ p.Obscured symbols d) ∧ ¬d.IsInternal := by
  intro d hd
  have hat := at_of_parse h hp
  have hreason : p.Limit symbols d ∨ p.Obscured symbols d := by
    rw [Generator.diagnostics, mem_diagnosticsOf, lines_emitProgram hat, List.mem_append] at hd
    rcases hd with hd | hd
    · rw [lines_data hat] at hd
      exact absurd hd mark_notMem_data
    · obtain ⟨part, hpart, hd⟩ := List.mem_flatMap.1 hd
      rcases List.mem_cons.1 hpart with rfl | hpart
      · exact .inl (limit_of_main h hp hd)
      · obtain ⟨w, hw, rfl⟩ := List.mem_map.1 hpart
        exact limit_of_routine h hp hw hd
  exact ⟨hreason, hreason.elim Limit.not_isInternal Obscured.not_isInternal⟩

/-- A program that comes to all limits, some of them more than once. -/
def limitsSource : String :=
  "program p; var g: integer; procedure q(a, b, c, d, e: integer); begin end; " ++
  "procedure big; var v: array [0:600000000] of integer; begin end; " ++
  "function f: integer; var i: integer; procedure n; begin i := 1; f := 2 end; begin f := 1 end; " ++
  "begin q(1, 2, 3, 4, 5); g := g + (g + (g + (g + g))) end."

/-- Every limit is marked in the sample, in the order of the code. -/
theorem limits_limitsSource : ∃ program symbols, parse limitsSource = .ok (program, symbols) ∧
    ((Generator.new symbols).emitProgram program.fold).diagnostics =
      [.tooManyArguments "q" 5, .outOfRegisters, .outOfRegisters, .tooManyParameters "q",
        .frameTooLarge "big", .frameUnreachable "i", .resultUnreachable "f"] ∧
    ∀ d ∈ ((Generator.new symbols).emitProgram program.fold).diagnostics,
      (program.fold.Limit symbols d ∨ program.fold.Obscured symbols d) ∧ ¬d.IsInternal := by
  have hdiagnostics : (parse limitsSource).toOption.map (fun parsed =>
      ((Generator.new parsed.2).emitProgram parsed.1.fold).diagnostics) =
        some [.tooManyArguments "q" 5, .outOfRegisters, .outOfRegisters, .tooManyParameters "q",
          .frameTooLarge "big", .frameUnreachable "i", .resultUnreachable "f"] := by
    decide +kernel
  obtain ⟨program, symbols, hparse, hdiagnostics⟩ := exists_of_parse_map hdiagnostics
  exact ⟨program, symbols, hparse, hdiagnostics, limits_of_parse hparse (.inr rfl)⟩

/-- When `c` is read, `x` is the variable of the program. When `c` is written, the procedure declared
after it hides that. -/
def lostGlobalSource : String :=
  "program p; var x: integer; procedure b; procedure c; begin x := 1 end; procedure x; begin end; " ++
  "begin c end; begin b end."

/-- A variable of the program is marked as if it were in the frame of a subprogram around, which is
no limit. -/
theorem lostGlobalSource_marked :
    ∃ program symbols, parse lostGlobalSource = .ok (program, symbols) ∧
      ((Generator.new symbols).emitProgram program).diagnostics = [.frameUnreachable "x"] ∧
      ¬program.Limit symbols (.frameUnreachable "x") := by
  have hfacts : (parse lostGlobalSource).toOption.map (fun parsed =>
      decide (((Generator.new parsed.2).emitProgram parsed.1).diagnostics =
        [.frameUnreachable "x"] ∧
        ∀ r ∈ parsed.1.routines parsed.2, ∀ found ∈ r.context.symbols.lookupWithDepth? "x",
          1 < found.1 → found.2.binding.isRoutine = true)) = some true := by
    decide +kernel
  obtain ⟨program, symbols, hparse, hall⟩ := exists_of_parse_map hfacts
  obtain ⟨hmarks, hroutines⟩ := of_decide_eq_true hall
  refine ⟨program, symbols, hparse, hmarks, fun hlimit => ?_⟩
  cases hlimit with
  | uplevel hr hfind hvar hglobal hlocal =>
    have hroutine := hroutines _ hr _ hfind hglobal
    rw [hvar.isRoutine] at hroutine
    cases hroutine

end Program

end PascalMips
