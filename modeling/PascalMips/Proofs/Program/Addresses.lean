import PascalMips.Proofs.Lower.Basic
import PascalMips.Proofs.Program.Routines

/-!
# Frames and addresses are sound

Code refers to a variable by the place that it has while the code is written. In the main part that
is the label of a variable of the program. In a routine it is such a label or a place in the frame
of that very routine, whose blocks are aligned, disjoint and inside the frame
(`Routine.FrameSound`). What belongs to a routine around it has no place then: the name is marked
and never addressed. Writing a subprogram leaves the places as they were, whether or not its frame
could be laid out.
-/

namespace PascalMips

namespace Routine

/-! ## Frames -/

/-- The words of the block that a symbol takes in the frame: as many as an array of the routine has
elements, and otherwise one. -/
def words (r : Routine) (id : Nat) : Nat :=
  ((r.context.symbols.current.find? (·.id = id)).map Symbol.words).getD 1

/-- The blocks of a frame do not overlap, and they belong to what the subprogram declares. Where the
layout came to its end, every parameter and variable and the result of a function has a block, and
the prologue stores the parameters, as they come in the argument registers, in their blocks. -/
structure FrameSound (r : Routine) : Prop where
  nodup : r.frame.ids.Nodup
  aligned : ∀ slot ∈ r.frame.slots, wordSize ∣ slot.2
  contained : ∀ slot ∈ r.frame.slots, slot.2 + wordSize * r.words slot.1 ≤ r.frame.size
  disjoint : r.frame.slots.Pairwise fun a b => a.2 + wordSize * r.words a.1 ≤ b.2
  scalars : ∀ symbol ∈ r.context.symbols.current, symbol.binding.bounds? = none →
    r.words symbol.id = 1
  arrays : ∀ symbol ∈ r.context.symbols.current, ∀ bounds, symbol.binding.bounds? = some bounds →
    (r.words symbol.id : Int) = bounds.hi - bounds.lo + 1
  result : r.words r.id = 1
  complete : ∀ f, r.layout = .ok f →
    (∀ v ∈ r.sub.args ++ r.sub.vars, ∃ symbol offset,
      r.context.symbols.current.lookup? v.name = some symbol ∧ (symbol.id, offset) ∈ f.slots) ∧
    (r.sub.kind = .function → ∃ offset, f.result = some offset ∧ (r.id, offset) ∈ f.slots)
  stored : ∀ f, r.layout = .ok f → ∀ c, ∃ stores rest,
    (r.lower c).lines = .label r.start :: (Lower.prologueLines f ++ (stores ++ rest)) ∧
      ∀ (i : Nat) v reg, r.sub.args[i]? = some v → Reg.arguments[i]? = some reg →
        ∃ symbol offset, r.context.symbols.current.lookup? v.name = some symbol ∧
          (symbol.id, offset) ∈ f.slots ∧
          stores[i]? = some (.instr (.sw reg (.offset (offset : Nat) .sp)))

variable {p : Program} {symbols : SymbolTable} {r : Routine}

theorem Stands.words_of_mem (h : r.Stands p symbols) {symbol : Symbol}
    (hs : symbol ∈ r.context.symbols.current) : r.words symbol.id = symbol.words := by
  have hscope : r.context.symbols.current ∈ r.context.symbols.scopes := by
    rw [SymbolTable.scopes_eq]
    exact List.mem_cons_self
  unfold words
  cases hfind : r.context.symbols.current.find? (·.id = symbol.id) with
  | none => exact absurd (List.find?_eq_none.1 hfind symbol hs) (by simp)
  | some found =>
    have heq : found = symbol := Scope.eq_of_id_eq (h.context.distinct.scope hscope)
      (List.mem_of_find?_eq_some hfind) hs (by simpa using List.find?_some hfind)
    rw [heq]
    rfl

/-- The symbol of a routine is not one of its block. -/
theorem Stands.id_ne (h : r.Stands p symbols) {symbol : Symbol}
    (hs : symbol ∈ r.context.symbols.current) : symbol.id ≠ r.id := by
  obtain ⟨own, first, second, rest, houter, hown, -⟩ := h.own
  have hscopes : r.context.symbols.scopes = [] ++ r.context.symbols.current :: _ :=
    r.context.symbols.scopes_eq
  rw [houter] at hscopes
  rw [← hown]
  exact h.context.distinct.ne_of_outer hscopes hs List.mem_cons_self
    (List.mem_append_right _ List.mem_cons_self)

theorem Stands.words_id (h : r.Stands p symbols) : r.words r.id = 1 := by
  unfold words
  rw [List.find?_eq_none.2]
  · rfl
  · intro symbol hs
    simpa using h.id_ne hs

/-- Each block that a frame needs is for one symbol of its own and has the words of it. -/
theorem Stands.blocks_sound (h : r.Stands p symbols) {params locals routines : Scope}
    {rest : List Scope}
    (hscopes : r.context.symbols.scopes = (params ++ (locals ++ routines)) :: rest) :
    ((Frame.blocks params locals r.sub.kind r.id).map Prod.fst).Nodup ∧
      ∀ block ∈ Frame.blocks params locals r.sub.kind r.id, block.2 = r.words block.1 := by
  have hcurrent := SymbolTable.current_eq hscopes
  have hmem : ∀ symbol ∈ params ++ locals, symbol ∈ r.context.symbols.current := by
    intro symbol hs
    rw [hcurrent, ← List.append_assoc]
    exact List.mem_append_left _ hs
  have hblocks : Frame.blocks params locals r.sub.kind r.id =
      (params ++ locals).map Frame.blockOf ++ Frame.resultBlock r.id r.sub.kind := by
    rw [Frame.blocks, List.map_append, List.append_assoc]
  rw [hblocks]
  constructor
  · have hids : ((params ++ locals).map Symbol.id).Nodup := by
      have hnodup := h.context.distinct.scope (hscopes ▸ List.mem_cons_self)
      rw [← List.append_assoc, Scope.ids_append] at hnodup
      exact hnodup.of_append_left.sublist (Scope.map_id_sublist _)
    rw [List.map_append, List.map_map]
    cases r.sub.kind with
    | procedure => exact (List.append_nil _).symm ▸ hids
    | function =>
      refine hids.append (List.nodup_singleton _) ?_
      intro id hid hresult
      obtain ⟨symbol, hs, rfl⟩ := List.mem_map.1 hid
      exact h.id_ne (hmem symbol hs) (List.mem_singleton.1 hresult)
  · intro block hblock
    rcases List.mem_append.1 hblock with hblock | hresult
    · obtain ⟨symbol, hs, rfl⟩ := List.mem_map.1 hblock
      exact (h.words_of_mem (hmem symbol hs)).symm
    · cases hkind : r.sub.kind with
      | procedure =>
        rw [hkind] at hresult
        cases hresult
      | function =>
        rw [hkind] at hresult
        cases List.mem_singleton.1 hresult
        exact h.words_id.symm

theorem words_of_bounds_none {symbol : Symbol} (h : symbol.binding.bounds? = none) :
    symbol.words = 1 := by
  rw [Symbol.words, h]
  rfl

/-- An array that a block declares has as many words as elements. -/
theorem words_of_bounds_some {symbol : Symbol} {bounds : Bounds}
    (h : symbol.binding.bounds? = some bounds) (hle : bounds.lo ≤ bounds.hi) :
    (symbol.words : Int) = bounds.hi - bounds.lo + 1 := by
  rw [Symbol.words, h]
  show ((bounds.hi - bounds.lo + 1).toNat : Int) = _
  omega

theorem Stands.lookup?_of_forall₂ (h : r.Stands p symbols) {R : Variable → Symbol → Prop}
    (hR : ∀ v symbol, R v symbol → symbol.name = v.name) {vs : List Variable} {scope : Scope}
    (hvs : List.Forall₂ R vs scope) (hscope : ∀ symbol ∈ scope, symbol ∈ r.context.symbols.current) :
    List.Forall₂ (Frame.Finds r.context.symbols.current) vs scope := by
  have hnodup := (h.context.wellFormed r.context.symbols.current
    (by rw [SymbolTable.scopes_eq]; exact List.mem_cons_self)).nodup
  exact Frame.finds_of_forall₂ hR (fun symbol hs => Scope.lookup?_of_mem hnodup (hscope symbol hs))
    hvs

theorem forall₂_getElem? {α β : Type} {R : α → β → Prop} {as : List α} {bs : List β}
    (h : List.Forall₂ R as bs) {i : Nat} {a : α} (ha : as[i]? = some a) :
    ∃ b, bs[i]? = some b ∧ R a b := by
  induction h generalizing i with
  | nil => cases ha
  | cons hab _ ih =>
    cases i with
    | zero =>
      cases ha
      exact ⟨_, rfl, hab⟩
    | succ i => exact ih ha

/-- In a finished layout the `i`th parameter has the `i`th place, which is also where it is
stored. -/
theorem slot_of_param {f : Frame} {params locals : Scope} {kind : RoutineKind} {id i : Nat}
    {symbol : Symbol} (hf : f.Holds (Frame.blocks params locals kind id))
    (hparams : f.params = (f.slots.take params.length).map Prod.snd)
    (hsymbol : params[i]? = some symbol) :
    ∃ offset, (symbol.id, offset) ∈ f.slots ∧ f.params[i]? = some offset := by
  obtain ⟨hi, -⟩ := List.getElem?_eq_some_iff.1 hsymbol
  have hid : (f.slots.map Prod.fst)[i]? = some symbol.id := by
    rw [show f.slots.map Prod.fst = f.ids from rfl, hf.ids, Frame.blocks, List.map_append,
      List.getElem?_append_left (by simpa using hi), List.map_map, List.getElem?_map, hsymbol]
    rfl
  rw [List.getElem?_map, Option.map_eq_some_iff] at hid
  obtain ⟨⟨_, offset⟩, hslot, rfl⟩ := hid
  refine ⟨offset, List.mem_of_getElem? hslot, ?_⟩
  rw [hparams, List.getElem?_map, List.getElem?_take_of_lt hi, hslot]
  rfl

/-- Every parameter and variable has a place in a finished layout. -/
theorem slot_of_mem {f : Frame} {params locals : Scope} {kind : RoutineKind} {id : Nat}
    {symbol : Symbol} (hf : f.Holds (Frame.blocks params locals kind id))
    (hsymbol : symbol ∈ params ++ locals) : ∃ offset, (symbol.id, offset) ∈ f.slots := by
  have hid : symbol.id ∈ f.slots.map Prod.fst := by
    rw [show f.slots.map Prod.fst = f.ids from rfl, hf.ids, Frame.blocks, ← List.append_assoc,
      ← List.map_append]
    exact List.mem_map_of_mem (List.mem_append_left _ (List.mem_map_of_mem hsymbol))
  obtain ⟨⟨_, offset⟩, hmem, rfl⟩ := List.mem_map.1 hid
  exact ⟨offset, hmem⟩

/-- The frame of a routine is sound. What is laid out are the blocks of its parameters, its
variables and its result, in this order and all with different numbers. -/
theorem Stands.frameSound (h : r.Stands p symbols) : r.FrameSound := by
  obtain ⟨params, locals, routines, rest, done, hscopes, hblock, hdone, hholds⟩ := h.holds
  obtain ⟨hnodup, hwords⟩ := h.blocks_sound hscopes
  have hlaid := hholds.laid fun block hmem => hwords block (hdone.subset hmem)
  refine {
    nodup := by
      rw [hholds.ids]
      exact hnodup.sublist (hdone.sublist.map _)
    aligned := hlaid.aligned
    contained := fun slot hslot => (hlaid.bounds slot hslot).2
    disjoint := hlaid.ordered
    scalars := fun symbol hs hnone => (h.words_of_mem hs).trans (words_of_bounds_none hnone)
    arrays := fun symbol hs bounds hbounds => by
      rw [h.words_of_mem hs]
      exact words_of_bounds_some hbounds (h.context.bounds_valid
        (r.context.symbols.scopes_eq ▸ List.mem_cons_self) hs hbounds).ordered
    result := h.words_id
    complete := ?_
    stored := ?_ }
  · intro f hf
    obtain ⟨params, locals, routines, rest, hscopes, hblock, hlays⟩ := h.lays
    rw [hf] at hlays
    obtain ⟨hholds, -, hresult, hfunction⟩ := hlays
    have hcurrent := SymbolTable.current_eq hscopes
    refine ⟨fun v hv => ?_, fun hkind => ?_⟩
    · have hfinds : List.Forall₂ (Frame.Finds r.context.symbols.current) (r.sub.args ++ r.sub.vars)
          (params ++ locals) := by
        refine List.rel_append (h.lookup?_of_forall₂ (fun _ _ h => h.name) hblock.params ?_)
          (h.lookup?_of_forall₂ (fun _ _ h => h.name) hblock.locals ?_)
        · exact fun symbol hs => hcurrent ▸ List.mem_append_left _ hs
        · exact fun symbol hs =>
            hcurrent ▸ List.mem_append_right _ (List.mem_append_left _ hs)
      obtain ⟨symbol, hs, hfind⟩ := exists_of_mem_forall₂ hfinds.flip hv
      obtain ⟨offset, hslot⟩ := slot_of_mem hholds hs
      exact ⟨symbol, offset, hfind, hslot⟩
    · obtain ⟨offset, hoffset⟩ := Option.isSome_iff_exists.1 (hfunction hkind)
      exact ⟨offset, hoffset, (hresult offset hoffset).2⟩
  · intro f hf c
    obtain ⟨params, locals, routines, rest, hscopes, hblock, hlays⟩ := h.lays
    rw [hf] at hlays
    obtain ⟨hholds, hparams, -⟩ := hlays
    have hcurrent := SymbolTable.current_eq hscopes
    refine ⟨_, _, congrArg Lowered.lines (lower_of_ok hf c), fun i v reg hv hreg => ?_⟩
    obtain ⟨symbol, hsymbol, hfind⟩ := forall₂_getElem?
      (h.lookup?_of_forall₂ (fun _ _ h => h.name) hblock.params fun symbol hs =>
        hcurrent ▸ List.mem_append_left _ hs) hv
    obtain ⟨offset, hslot, hoffset⟩ := slot_of_param hholds hparams hsymbol
    exact ⟨symbol, offset, hfind, hslot, Lower.getElem?_storeLines hoffset hreg⟩

/-! ## Addresses -/

/-- A place in the frame that belongs to the name `x` in the body of a routine: that of a parameter
or variable of this name, or that of the result of the routine itself. -/
inductive Owns (r : Routine) (x : String) (offset : Nat) : Prop
  | variable {v : Variable} {symbol : Symbol} (hv : v ∈ r.sub.args ++ r.sub.vars) (hname : v.name = x)
      (hlookup : r.context.symbols.current.lookup? x = some symbol)
      (hslot : (symbol.id, offset) ∈ r.frame.slots)
  | result (hkind : r.sub.kind = .function) (hname : r.sub.name = x)
      (hslot : (r.id, offset) ∈ r.frame.slots)

end Routine

/-- The place under the label of a variable of the program, of this name. -/
def Program.HasGlobal (p : Program) (x : String) (place : Storage) : Prop :=
  ∃ v ∈ p.vars, v.name = x ∧ place = .global (.ofVariable v.name)

namespace Context

/-- Where only global variables have places, a name with a place is one of them. -/
theorem At.hasGlobal {p : Program} {symbols : SymbolTable} {n : Nesting} {ctx : Context}
    (h : ctx.At p symbols n) {x : String} {symbol : Symbol} {place : Storage}
    (hlookup : ctx.symbols.lookup? x = some symbol)
    (hplace : ctx.storage.get? symbol.id = some place) : p.HasGlobal x place := by
  obtain ⟨last, global, v, hv, hlast, hglobal, hid, hdeclares, rfl, -⟩ :=
    h.placed symbol.id place hplace
  obtain ⟨depth, hfind⟩ := SymbolTable.lookup?_eq_some hlookup
  obtain ⟨scope, hscope, hfound⟩ := SymbolTable.mem_of_findIn hfind
  have heq : global = symbol := h.distinct.eq_of_id_eq (List.mem_of_getLast? hlast) hglobal hscope
    (Scope.mem_of_lookup? hfound) hid
  refine ⟨v, hv, ?_, rfl⟩
  rw [← hdeclares.name, heq]
  exact Scope.name_of_lookup? hfound

end Context

namespace Routine

variable {p : Program} {symbols : SymbolTable} {r : Routine}

/-- In a routine a name with a place is a global variable or belongs to the routine. -/
theorem Stands.hasGlobal_or_owns (h : r.Stands p symbols) {x : String} {symbol : Symbol}
    {place : Storage} (hlookup : r.inside.symbols.lookup? x = some symbol)
    (hplace : r.inside.storage.get? symbol.id = some place) :
    p.HasGlobal x place ∨ ∃ offset : Nat, r.Owns x offset ∧ place = .stack offset := by
  rcases Frame.of_get?_assign hplace with ⟨offset, hslot, rfl⟩ | ⟨-, hplace⟩
  · refine .inr ⟨offset, ?_, rfl⟩
    have hcurrent : r.context.symbols.current ∈ r.context.symbols.scopes := by
      rw [SymbolTable.scopes_eq]
      exact List.mem_cons_self
    obtain ⟨depth, hfind⟩ := SymbolTable.lookup?_eq_some hlookup
    obtain ⟨scope, hscope, hfound⟩ := SymbolTable.mem_of_findIn hfind
    have hsymbol := Scope.mem_of_lookup? hfound
    have hx := Scope.name_of_lookup? hfound
    rcases h.of_mem_ids (List.mem_map_of_mem hslot) with ⟨local', hlocal, hid, -, v, hv, hname⟩ |
      ⟨hid, hkind⟩
    · -- the name of a parameter or variable
      obtain rfl := h.context.distinct.eq_of_id_eq hcurrent hlocal hscope hsymbol hid
      refine .variable hv (hname.trans hx) ?_ hslot
      rw [← hx]
      exact Scope.lookup?_of_mem (h.context.wellFormed _ hcurrent).nodup hlocal
    · -- the name of the routine
      obtain ⟨own, first, second, rest, houter, hown, hheads⟩ := h.own
      have hmem : first ++ own :: second ∈ r.context.symbols.scopes := by
        rw [SymbolTable.scopes_eq, houter]
        exact List.mem_cons_of_mem _ List.mem_cons_self
      obtain rfl := h.context.distinct.eq_of_id_eq hmem
        (List.mem_append_right _ List.mem_cons_self) hscope hsymbol (hown.trans hid.symm)
      exact .result hkind (hheads.name.symm.trans hx) (hown ▸ hslot)
  · exact .inl (h.context.hasGlobal hlookup hplace)

/-- What belongs to a routine around it has no place in a routine: the name is marked. -/
theorem Stands.marks_uplevel (h : r.Stands p symbols) {x : String} {depth : Nat} {symbol : Symbol}
    (hfind : r.inside.symbols.lookupWithDepth? x = some (depth, symbol)) (hglobal : depth ≠ 1)
    (hlocal : depth ≠ r.nesting.length + 1) (hown : symbol.id ≠ r.id) (c : Counters) :
    Lower.locate x r.inside c = ⟨none, c, [.mark (Lower.unreachable symbol)]⟩ := by
  have hlookup : r.inside.symbols.lookup? x = some symbol := by
    rw [SymbolTable.lookup?, hfind]
    rfl
  refine Lower.locate_of_unplaced hlookup ?_
  by_contra hplaced
  obtain ⟨place, hplace⟩ := Option.ne_none_iff_exists'.1 hplaced
  obtain ⟨within, scope, outer, hscopes, hdepth, hfound⟩ := SymbolTable.split_of_findIn hfind
  change r.context.symbols.scopes = within ++ scope :: outer at hscopes
  have hsymbol := Scope.mem_of_lookup? hfound
  rcases Frame.of_get?_assign hplace with ⟨offset, hslot, rfl⟩ | ⟨-, hplace⟩
  · rcases h.of_mem_ids (List.mem_map_of_mem hslot) with ⟨local', hlocal', hid, -⟩ | ⟨hid, -⟩
    · -- the scope is not the innermost one
      cases within with
      | nil =>
        have hlength := h.context.opens.length
        rw [hscopes, List.nil_append, List.length_cons] at hlength
        omega
      | cons innermost within =>
        have hcurrent : r.context.symbols.current = innermost := SymbolTable.current_eq hscopes
        have hinnermost : r.context.symbols.scopes = [] ++ innermost :: (within ++ scope :: outer) :=
          hscopes
        exact h.context.distinct.ne_of_outer hinnermost (hcurrent ▸ hlocal')
          (List.mem_append_right _ List.mem_cons_self) hsymbol hid
    · exact hown hid
  · -- the scope is not the global one
    obtain ⟨last, global, v, -, hlast, hmem, hid, -, -⟩ := h.context.placed symbol.id place hplace
    cases outer with
    | nil => exact hglobal hdepth
    | cons around outer =>
      refine h.context.distinct.ne_of_outer hscopes hsymbol ?_ hmem hid.symm
      rw [hscopes, List.getLast?_append_cons, List.getLast?_cons_cons] at hlast
      exact List.mem_of_getLast? hlast

/-- What is true of a routine in `p`: its frame is sound, a name with an address in its body is a
global variable or its own, what belongs to routines around it is marked, and the subprograms in it
leave its context as it is. -/
structure AddressesSound (p : Program) (r : Routine) : Prop where
  frame : r.FrameSound
  located : ∀ x c place bounds?, (Lower.locate x r.inside c).value = some (place, bounds?) →
    p.HasGlobal x place ∨ ∃ offset : Nat, r.Owns x offset ∧ place = .stack offset
  marked : ∀ x depth symbol, r.inside.symbols.lookupWithDepth? x = some (depth, symbol) →
    depth ≠ 1 → depth ≠ r.nesting.length + 1 → symbol.id ≠ r.id →
      ∀ c, Lower.locate x r.inside c = ⟨none, c, [.mark (Lower.unreachable symbol)]⟩
  restored : ∀ s ∈ r.sub.subprograms, ∀ g : Generator, g.context = r.context →
    (g.emitSubprogram s).context = g.context

end Routine

/-- Writing a subprogram of a block leaves the context of the block as it is. -/
theorem Context.At.restored {p : Program} {symbols : SymbolTable} {n : Nesting} {ctx : Context}
    (h : ctx.At p symbols n) {s : Subprogram} (hs : s ∈ p.subprogramsAt n) {g : Generator}
    (hg : g.context = ctx) : (g.emitSubprogram s).context = g.context := by
  obtain ⟨before, after, hsplit⟩ := List.append_of_mem hs
  rw [Generator.emitSubprogram_eq s before after (hg ▸ h) hsplit]
  rfl

/-- In a routine, what is located is a variable of the program or a slot of its own frame. -/
theorem Routine.Stands.addressesSound {p : Program} {symbols : SymbolTable} {r : Routine}
    (h : r.Stands p symbols) : r.AddressesSound p where
  frame := h.frameSound
  located x c place bounds? hlocate := by
    rw [Lower.value_locate] at hlocate
    simp only [Context.place?, Option.bind_eq_some_iff, Option.map_eq_some_iff] at hlocate
    obtain ⟨symbol, hlookup, _, hplace, heq⟩ := hlocate
    cases heq
    exact h.hasGlobal_or_owns hlookup hplace
  marked x depth symbol hfind hglobal hlocal hown c :=
    h.marks_uplevel hfind hglobal hlocal hown c
  restored _ hs _ hg := h.context.restored hs hg

namespace Program

/-- What is true of a program with the names `symbols`: it is written as its main part and its
routines, an address in the main part is that of a global variable, subprograms leave the context as
it is, and every routine is sound. -/
structure AddressesSound (p : Program) (symbols : SymbolTable) : Prop where
  written : (Generator.new symbols).emitProgram p =
    (Generator.main p symbols).writeAll (p.routines symbols)
  located : ∀ x c place bounds?,
    (Lower.locate x (p.context symbols) c).value = some (place, bounds?) → p.HasGlobal x place
  restored : ∀ s ∈ p.subprograms, ∀ g : Generator, g.context = p.context symbols →
    (g.emitSubprogram s).context = g.context
  routines : ∀ r ∈ p.routines symbols, r.AddressesSound p

/-- Frames and addresses are sound in every program read from a text, folded or not. -/
theorem addressesSound_of_parse {source : String} {program p : Program} {symbols : SymbolTable}
    (h : parse source = .ok (program, symbols)) (hp : p = program ∨ p = program.fold) :
    p.AddressesSound symbols := by
  have hat := at_of_parse h hp
  refine ⟨emitProgram_eq hat, ?_, fun s hs g hg => hat.restored hs hg,
    fun r hr => (stands_of_mem_routines hat hr).addressesSound⟩
  intro x c place bounds? hlocate
  rw [Lower.value_locate] at hlocate
  simp only [Context.place?, Option.bind_eq_some_iff, Option.map_eq_some_iff] at hlocate
  obtain ⟨symbol, hlookup, _, hplace, heq⟩ := hlocate
  cases heq
  exact hat.hasGlobal hlookup hplace

/-- A function with a parameter, a scalar, an array and a result, which uses the array and the
parameter, and in it a procedure that uses a variable of the program. -/
def framesSource : String :=
  "program p; var g: integer; function f(x: integer): integer; var i: integer; " ++
  "a: array [-1:2] of integer; procedure q; begin g := 1 end; begin a[0] := x; f := a[0] end; " ++
  "begin g := f(2) end."

theorem framesSource_addressesSound :
    ∃ program symbols, parse framesSource = .ok (program, symbols) ∧
      (program.fold.routines symbols).map (fun r => (r.sub.name, r.id, r.frame.slots)) =
        [("f", 2, [(3, 0), (4, 4), (5, 8), (2, 24)]), ("q", 6, [])] ∧
      program.fold.AddressesSound symbols := by
  have hslots : (parse framesSource).toOption.map (fun parsed =>
      (parsed.1.fold.routines parsed.2).map fun r => (r.sub.name, r.id, r.frame.slots)) =
        some [("f", 2, [(3, 0), (4, 4), (5, 8), (2, 24)]), ("q", 6, [])] := by decide +kernel
  obtain ⟨program, symbols, hparse, hslots⟩ := exists_of_parse_map hslots
  exact ⟨program, symbols, hparse, hslots, addressesSound_of_parse hparse (.inr rfl)⟩

end Program

end PascalMips
