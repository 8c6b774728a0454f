import Mathlib.Algebra.Ring.Nat
import Mathlib.Data.List.Flatten
import Mathlib.Data.List.Perm.Subperm
import PascalMips.Proofs.Symbol.Numbers

/-!
# Scopes that are handed out and given back

Closing a scope and taking one off a subprogram hand a scope out, opening a scope again and
attaching it give it back. A `Holding` is a table and the scopes that are out; a scope is given back
once, since it is then no longer held. Scopes move between the stack, the subprograms and the holder
in any order, and with them the numbers of their symbols. No operation makes a second copy of a
number: it moves them, drops some or adds the next one (`Steps.ids_subperm`). So in every run the
numbers of all symbols, on the stack, attached at any depth or held, are distinct and were given out
before (`sound_of_run`).
-/

namespace PascalMips

/-! ## Operations -/

namespace SymbolTable

/-- An operation on a table. A scope that is given back is named by its place among those held. -/
inductive Op where
  | enter
  | exit
  | declare (name : String) (binding : Binding)
  | attach (name : String) (place : Nat)
  | detach (name : String)
  | push (place : Nat)

/-- Whether an operation is a declaration. -/
def Op.isDeclaration : Op → Bool
  | declare _ _ => true
  | _ => false

/-- The table cannot do the operation: the innermost scope has the name already, only the global
scope is open, no subprogram of the name is visible, or the visible symbol holds no scope. -/
def Op.Refused (t : SymbolTable) : Op → Prop
  | declare name _ => name ∈ t.current.names
  | exit => t.depth = 1
  | attach name _ => ∀ symbol, t.lookup? name = some symbol → symbol.binding.isRoutine = false
  | detach name => ∀ symbol, t.lookup? name = some symbol → symbol.locals = none
  | enter | push _ => False

end SymbolTable

open SymbolTable (Op)

/-- A table and the scopes that it handed out and that were not given back. -/
structure Holding where
  table : SymbolTable
  held : List Scope

namespace Holding

def start : Holding := ⟨.empty, []⟩

/-- Whether the table did the operation, and what is held then; nothing if no scope is held at the
place that the operation names. A scope that cannot be attached is dropped. -/
def step (s : Holding) : Op → Option (Bool × Holding)
  | .enter => some (true, ⟨s.table.enter, s.held⟩)
  | .exit =>
    match s.table.exit? with
    | some (scope, table) => some (true, ⟨table, scope :: s.held⟩)
    | none => some (false, s)
  | .declare name binding =>
    match s.table.declare? name binding with
    | some table => some (true, ⟨table, s.held⟩)
    | none => some (false, s)
  | .attach name place =>
    s.held[place]?.map fun scope =>
      match s.table.attach? name scope with
      | some table => (true, ⟨table, s.held.eraseIdx place⟩)
      | none => (false, ⟨s.table, s.held.eraseIdx place⟩)
  | .detach name =>
    match s.table.detach? name with
    | some (scope, table) => some (true, ⟨table, scope :: s.held⟩)
    | none => some (false, s)
  | .push place =>
    s.held[place]?.map fun scope => (true, ⟨s.table.push scope, s.held.eraseIdx place⟩)

/-- What is held after a sequence of operations. -/
def run (s : Holding) : List Op → Option Holding
  | [] => some s
  | op :: ops => (s.step op).bind fun (_, s') => s'.run ops

/-- The numbers of all symbols, on the stack and in the scopes held. -/
def ids (s : Holding) : List Nat := s.table.ids ++ s.held.flatMap Scope.ids

end Holding

/-- The first scope is the second, or has it attached at some depth. -/
inductive Scope.Reaches : Scope → Scope → Prop
  | refl (scope : Scope) : Reaches scope scope
  | locals {outer inner scope : Scope} {symbol : Symbol} (hs : symbol ∈ outer)
      (hlocals : symbol.locals = some inner) (h : Reaches inner scope) : Reaches outer scope

/-- Every scope inside a well-formed one is well formed. -/
theorem Scope.WellFormed.of_reaches {outer scope : Scope} (h : outer.WellFormed)
    (hreaches : outer.Reaches scope) : scope.WellFormed := by
  induction hreaches with
  | refl => exact h
  | locals hs hlocals _ ih =>
    obtain ⟨-, -, hinner⟩ := h
    exact ih (hinner _ hs _ hlocals)

/-- In a well-formed scope the symbol of a name is found under it and nowhere else. -/
theorem Scope.WellFormed.lookup?_eq_some_iff {scope : Scope} (h : scope.WellFormed) {name : String}
    {symbol : Symbol} :
    scope.lookup? name = some symbol ↔ symbol ∈ scope ∧ symbol.name = name := by
  constructor
  · exact fun hlookup => ⟨mem_of_lookup? hlookup, name_of_lookup? hlookup⟩
  · rintro ⟨hs, rfl⟩
    obtain ⟨found, hfound⟩ := exists_lookup? (List.mem_map_of_mem (f := Symbol.name) hs)
    have hsame := name_of_lookup? hfound
    rw [hfound, List.inj_on_of_nodup_map h.nodup (mem_of_lookup? hfound) hs hsame]

/-! ## Where the numbers go -/

/-- Changing what is attached to a symbol takes out the numbers of the one scope and brings in those
of the other. -/
theorem Scope.ids_update_perm {scope : Scope} {name : String} {symbol : Symbol}
    (h : scope.WellFormed) (hlookup : scope.lookup? name = some symbol) (locals : Option Scope) :
    ((scope.update name ({ · with locals := locals })).ids ++ Symbol.idsIn symbol.locals).Perm
      (scope.ids ++ Symbol.idsIn locals) := by
  obtain ⟨first, second, rfl⟩ := List.append_of_mem (mem_of_lookup? hlookup)
  obtain rfl := name_of_lookup? hlookup
  have hnodup := h.nodup
  rw [names_append] at hnodup
  have hsecond := (List.nodup_cons.1 hnodup.of_append_right).1
  have hfirst : symbol.name ∉ names first := fun hmem =>
    List.disjoint_of_nodup_append hnodup hmem List.mem_cons_self
  rw [update_append_cons hfirst hsecond, ids_append, ids_append, ids_cons, ids_cons,
    Symbol.ids_eq symbol, Symbol.ids_eq { symbol with locals := locals }]
  refine List.perm_iff_count.2 fun id => ?_
  simp only [List.count_append, List.count_cons]
  omega

namespace SymbolTable

variable {t u : SymbolTable} {name : String} {scope : Scope}

/-- Exchanging the scope of a subprogram exchanges its numbers, and keeps all others. -/
theorem ids_updateIn_perm {depth : Nat} {symbol : Symbol} (locals : Option Scope) :
    ∀ {scopes : List Scope}, (∀ scope ∈ scopes, scope.WellFormed) →
      findIn scopes name = some (depth, symbol) →
      ((updateIn name ({ · with locals := locals }) scopes).flatMap Scope.ids ++
        Symbol.idsIn symbol.locals).Perm (scopes.flatMap Scope.ids ++ Symbol.idsIn locals)
  | [], _, h => nomatch h
  | scope :: rest, hw, h => by
    obtain ⟨hscope, hrest⟩ := List.forall_mem_cons.1 hw
    unfold findIn at h
    split at h
    · next hlookup =>
      cases h
      have hdeclares := Scope.declares_iff.2 (Scope.mem_names_of_lookup? hlookup)
      have hperm := Scope.ids_update_perm hscope hlookup locals
      rw [updateIn, if_pos hdeclares, List.flatMap_cons, List.flatMap_cons]
      refine List.perm_iff_count.2 fun id => ?_
      have hcount := hperm.count_eq id
      simp only [List.count_append] at hcount ⊢
      omega
    · next hlookup =>
      have hdeclares := mt Scope.declares_iff.1 (Scope.lookup?_eq_none_iff.1 hlookup)
      rw [updateIn, if_neg hdeclares, List.flatMap_cons, List.flatMap_cons, List.append_assoc,
        List.append_assoc]
      exact (ids_updateIn_perm locals hrest h).append_left _

theorem ids_push (t : SymbolTable) (scope : Scope) : (t.push scope).ids = scope.ids ++ t.ids :=
  List.flatMap_cons

/-- Leaving a scope takes its numbers off the table. -/
theorem ids_of_exit? (h : t.exit? = some (scope, u)) :
    t.ids = scope.ids ++ u.ids ∧ u.nextId = t.nextId := by
  rcases t with ⟨_ | ⟨first, inner⟩, global, nextId⟩
  · cases h
  · cases h
    exact ⟨List.flatMap_cons, rfl⟩

/-- A declaration adds the next number. -/
theorem ids_of_declare? {binding : Binding} (h : t.declare? name binding = some u) :
    u.ids.Perm (t.nextId :: t.ids) ∧ u.nextId = t.nextId + 1 := by
  obtain ⟨-, hnext, hscopes⟩ := of_declare? h
  refine ⟨?_, hnext⟩
  unfold ids
  rw [hscopes, t.scopes_eq, List.flatMap_cons, List.flatMap_cons, Scope.ids_append, Scope.ids_cons,
    Symbol.ids_of_none rfl, Scope.ids_nil]
  refine List.perm_iff_count.2 fun id => ?_
  simp only [List.count_append, List.count_cons, List.count_nil]
  omega

/-- The numbers of what was attached before are dropped. -/
theorem ids_of_attach? (hw : t.WellFormed) (h : t.attach? name scope = some u) :
    ∃ dropped, (u.ids ++ dropped).Perm (t.ids ++ scope.ids) ∧ u.nextId = t.nextId := by
  unfold attach? at h
  split at h
  · next symbol hlookup =>
    split at h
    · cases h
      obtain ⟨depth, hfind⟩ := lookup?_eq_some hlookup
      refine ⟨Symbol.idsIn symbol.locals, ?_, nextId_update ..⟩
      unfold ids
      rw [scopes_update]
      exact ids_updateIn_perm (some scope) hw hfind
    · cases h
  · cases h

/-- Taking a scope off a subprogram takes its numbers off the table. -/
theorem ids_of_detach? (hw : t.WellFormed) (h : t.detach? name = some (scope, u)) :
    (u.ids ++ scope.ids).Perm t.ids ∧ u.nextId = t.nextId := by
  obtain ⟨depth, symbol, hfind, hlocals, hscopes, hnext⟩ := of_detach? h
  have hperm := ids_updateIn_perm none hw hfind
  rw [← hscopes, hlocals, Symbol.idsIn, Symbol.idsIn, List.append_nil] at hperm
  exact ⟨hperm, hnext⟩

end SymbolTable

/-! ## What an operation does -/

namespace SymbolTable

variable {t : SymbolTable} {name : String}

/-- The global scope is the only one that cannot be left. -/
theorem exit?_eq_none_iff : t.exit? = none ↔ t.depth = 1 := by
  rcases t with ⟨_ | ⟨first, inner⟩, global, nextId⟩ <;> simp [exit?, depth]

/-- A declaration is refused exactly if the innermost scope has the name. -/
theorem declare?_eq_none_iff {binding : Binding} :
    t.declare? name binding = none ↔ name ∈ t.current.names := by
  unfold declare? Scope.insert?
  rw [Option.map_eq_none_iff, ← Scope.declares_iff]
  split <;> simp_all

/-- Attaching is refused exactly if no subprogram of the name is visible. -/
theorem attach?_eq_none_iff {scope : Scope} :
    t.attach? name scope = none ↔
      ∀ symbol, t.lookup? name = some symbol → symbol.binding.isRoutine = false := by
  unfold attach?
  cases t.lookup? name with
  | none => simp
  | some symbol => simp

/-- Detaching is refused exactly if the visible symbol holds no scope. -/
theorem detach?_eq_none_iff :
    t.detach? name = none ↔ ∀ symbol, t.lookup? name = some symbol → symbol.locals = none := by
  unfold detach?
  cases t.lookup? name with
  | none => simp
  | some symbol => simp

end SymbolTable

namespace Holding

/-- What an operation does: the table does it, and a scope is handed out or given back, or the table
refuses it and stays as it is. -/
inductive Steps (s : Holding) : Op → Bool → Holding → Prop
  | enter : Steps s .enter true ⟨s.table.enter, s.held⟩
  | exit {scope : Scope} {table : SymbolTable} (h : s.table.exit? = some (scope, table)) :
      Steps s .exit true ⟨table, scope :: s.held⟩
  | declare {name : String} {binding : Binding} {table : SymbolTable}
      (h : s.table.declare? name binding = some table) :
      Steps s (.declare name binding) true ⟨table, s.held⟩
  | attach {name : String} {place : Nat} {scope : Scope} {table : SymbolTable}
      (hscope : s.held[place]? = some scope) (h : s.table.attach? name scope = some table) :
      Steps s (.attach name place) true ⟨table, s.held.eraseIdx place⟩
  | detach {name : String} {scope : Scope} {table : SymbolTable}
      (h : s.table.detach? name = some (scope, table)) :
      Steps s (.detach name) true ⟨table, scope :: s.held⟩
  | push {place : Nat} {scope : Scope} (hscope : s.held[place]? = some scope) :
      Steps s (.push place) true ⟨s.table.push scope, s.held.eraseIdx place⟩
  | refused {op : Op} {held : List Scope} (h : op.Refused s.table)
      (hheld : held.Sublist s.held) : Steps s op false ⟨s.table, held⟩

variable {s s' : Holding} {op : Op} {answer : Bool}

/-- Every operation does what its case of `Steps` says. Here the definition is opened, once for each
operation and outcome. -/
theorem steps_of_step (h : s.step op = some (answer, s')) : s.Steps op answer s' := by
  cases op with
  | enter =>
    cases h
    exact .enter
  | exit =>
    rw [step] at h
    split at h
    · next hexit =>
      cases h
      exact .exit hexit
    · next hexit =>
      cases h
      exact .refused (SymbolTable.exit?_eq_none_iff.1 hexit) (.refl _)
  | declare name binding =>
    rw [step] at h
    split at h
    · next hdeclare =>
      cases h
      exact .declare hdeclare
    · next hdeclare =>
      cases h
      exact .refused (SymbolTable.declare?_eq_none_iff.1 hdeclare) (.refl _)
  | attach name place =>
    obtain ⟨scope, hscope, h⟩ := Option.map_eq_some_iff.1 h
    split at h
    · next hattach =>
      cases h
      exact .attach hscope hattach
    · next hattach =>
      cases h
      exact .refused (SymbolTable.attach?_eq_none_iff.1 hattach) (List.eraseIdx_sublist ..)
  | detach name =>
    rw [step] at h
    split at h
    · next hdetach =>
      cases h
      exact .detach hdetach
    · next hdetach =>
      cases h
      exact .refused (SymbolTable.detach?_eq_none_iff.1 hdetach) (.refl _)
  | push place =>
    obtain ⟨scope, hscope, h⟩ := Option.map_eq_some_iff.1 h
    cases h
    exact .push hscope

/-- An operation is refused exactly if the table cannot do it. -/
theorem Steps.answer_eq_false_iff (h : s.Steps op answer s') :
    answer = false ↔ op.Refused s.table := by
  -- What the table did it could not have refused: its result is there.
  have hdone {α : Type} {x : Option α} {a : α} {refused : Prop} (hx : x = some a)
      (hnone : x = none ↔ refused) : (true = false ↔ refused) := by
    rw [← hnone, hx]
    exact iff_of_false Bool.noConfusion (Option.some_ne_none a)
  cases h with
  | enter | push hscope => exact iff_of_false Bool.noConfusion id
  | exit h => exact hdone h SymbolTable.exit?_eq_none_iff
  | declare h => exact hdone h SymbolTable.declare?_eq_none_iff
  | attach hscope h => exact hdone h SymbolTable.attach?_eq_none_iff
  | detach h => exact hdone h SymbolTable.detach?_eq_none_iff
  | refused h hheld => exact iff_of_true rfl h

/-- A refused operation leaves the table as it was. -/
theorem Steps.table_eq (h : s.Steps op answer s') (hanswer : answer = false) :
    s'.table = s.table := by
  cases h with
  | refused h hheld => rfl
  | _ => cases hanswer

/-! ## What a step keeps -/

/-- Every scope of the stack and every scope held is well formed. -/
def WellFormed (s : Holding) : Prop := s.table.WellFormed ∧ ∀ scope ∈ s.held, scope.WellFormed

/-- A step keeps the table and all held scopes well formed. -/
theorem WellFormed.of_steps (hw : s.WellFormed) (h : s.Steps op answer s') : s'.WellFormed := by
  obtain ⟨htable, hheld⟩ := hw
  cases h with
  | enter => exact ⟨htable.push .nil, hheld⟩
  | exit h =>
    obtain ⟨htable', hscope⟩ := htable.of_exit? h
    exact ⟨htable', List.forall_mem_cons.2 ⟨hscope, hheld⟩⟩
  | declare h => exact ⟨htable.of_declare? h, hheld⟩
  | attach hscope h =>
    exact ⟨htable.of_attach? (hheld _ (List.mem_of_getElem? hscope)) h,
      fun scope hmem => hheld scope (List.mem_of_mem_eraseIdx hmem)⟩
  | detach h =>
    obtain ⟨htable', hscope⟩ := htable.of_detach? h
    exact ⟨htable', List.forall_mem_cons.2 ⟨hscope, hheld⟩⟩
  | push hscope =>
    exact ⟨htable.push (hheld _ (List.mem_of_getElem? hscope)),
      fun scope hmem => hheld scope (List.mem_of_mem_eraseIdx hmem)⟩
  | refused h hsub => exact ⟨htable, fun scope hmem => hheld scope (hsub.subset hmem)⟩

/-- Giving a scope back takes its numbers off those held. -/
theorem ids_held_perm {held : List Scope} {place : Nat} {scope : Scope}
    (h : held[place]? = some scope) :
    (scope.ids ++ (held.eraseIdx place).flatMap Scope.ids).Perm (held.flatMap Scope.ids) := by
  obtain ⟨hlt, rfl⟩ := List.getElem?_eq_some_iff.1 h
  exact (List.getElem_cons_eraseIdx_perm hlt).flatMap_right Scope.ids

/-- An operation moves numbers, drops some, or adds the next one if it is a declaration. -/
theorem Steps.ids_subperm (hw : s.WellFormed) (h : s.Steps op answer s') :
    (s'.table.nextId = s.table.nextId ∧ List.Subperm s'.ids s.ids) ∨
      (op.isDeclaration = true ∧ s'.table.nextId = s.table.nextId + 1 ∧
        List.Subperm s'.ids (s.table.nextId :: s.ids)) := by
  unfold ids
  cases h with
  | enter =>
    refine .inl ⟨rfl, ?_⟩
    rw [SymbolTable.enter, SymbolTable.ids_push, Scope.ids_nil, List.nil_append]
  | exit h =>
    obtain ⟨hids, hnext⟩ := SymbolTable.ids_of_exit? h
    refine .inl ⟨hnext, List.Perm.subperm ?_⟩
    rw [hids, List.flatMap_cons, List.append_assoc]
    exact List.perm_append_comm_assoc ..
  | declare h =>
    obtain ⟨hids, hnext⟩ := SymbolTable.ids_of_declare? h
    exact .inr ⟨rfl, hnext, (hids.append_right _).subperm⟩
  | attach hscope h =>
    obtain ⟨dropped, hids, hnext⟩ := SymbolTable.ids_of_attach? hw.1 h
    refine .inl ⟨hnext, (List.sublist_append_left _ dropped).subperm.trans
      (List.Perm.subperm (List.perm_iff_count.2 fun id => ?_))⟩
    have hcount := hids.count_eq id
    have hheld := (ids_held_perm hscope).count_eq id
    simp only [List.count_append] at hcount hheld ⊢
    omega
  | detach h =>
    obtain ⟨hids, hnext⟩ := SymbolTable.ids_of_detach? hw.1 h
    refine .inl ⟨hnext, List.Perm.subperm ?_⟩
    rw [List.flatMap_cons, ← List.append_assoc]
    exact hids.append_right _
  | push hscope =>
    refine .inl ⟨rfl, List.Perm.subperm ?_⟩
    rw [SymbolTable.ids_push, List.append_assoc]
    exact (List.perm_append_comm_assoc ..).trans ((ids_held_perm hscope).append_left _)
  | refused h hsub => exact .inl ⟨rfl, ((hsub.flatMap _).append_left _).subperm⟩

/-! ## Runs -/

/-- The numbers of all symbols are distinct and below the next one, and all scopes are well
formed. -/
structure Sound (s : Holding) : Prop where
  wellFormed : s.WellFormed
  distinct : s.ids.Nodup
  below : ∀ id ∈ s.ids, id < s.table.nextId

theorem Sound.start : start.Sound :=
  ⟨⟨.empty, fun _ hscope => absurd hscope List.not_mem_nil⟩, List.nodup_nil,
    fun _ hid => absurd hid List.not_mem_nil⟩

theorem nodup_of_subperm {ids ids' : List Nat} (h : List.Subperm ids ids') (hids : ids'.Nodup) :
    ids.Nodup := by
  obtain ⟨moved, hperm, hsub⟩ := h
  exact hperm.nodup_iff.1 (hids.sublist hsub)

/-- A step keeps numbers distinct and below the next one. -/
theorem Sound.of_steps (hs : s.Sound) (h : s.Steps op answer s') : s'.Sound := by
  obtain ⟨hw, hdistinct, hbelow⟩ := hs
  rcases h.ids_subperm hw with ⟨hnext, hids⟩ | ⟨-, hnext, hids⟩
  · refine ⟨hw.of_steps h, nodup_of_subperm hids hdistinct, fun id hid => ?_⟩
    rw [hnext]
    exact hbelow id (hids.subset hid)
  · have hfresh : s.table.nextId ∉ s.ids := fun hmem => Nat.lt_irrefl _ (hbelow _ hmem)
    refine ⟨hw.of_steps h, nodup_of_subperm hids (List.nodup_cons.2 ⟨hfresh, hdistinct⟩),
      fun id hid => ?_⟩
    rw [hnext]
    rcases List.mem_cons.1 (hids.subset hid) with rfl | hold
    · exact Nat.lt_succ_self _
    · exact Nat.lt_succ_of_lt (hbelow id hold)

/-- A run keeps a sound holding sound, and takes at most one number for each declaration. -/
theorem Sound.of_run {ops : List Op} (hs : s.Sound) (h : s.run ops = some s') :
    s'.Sound ∧ s'.table.nextId ≤ s.table.nextId + ops.countP Op.isDeclaration := by
  induction ops generalizing s with
  | nil =>
    cases h
    exact ⟨hs, Nat.le_refl _⟩
  | cons op ops ih =>
    obtain ⟨⟨answer, mid⟩, hstep, hrun⟩ := Option.bind_eq_some_iff.1 h
    have hsteps := steps_of_step hstep
    obtain ⟨hsound, hle⟩ := ih (hs.of_steps hsteps) hrun
    refine ⟨hsound, ?_⟩
    rw [List.countP_cons]
    rcases hsteps.ids_subperm hs.wellFormed with ⟨hnext, -⟩ | ⟨hdeclaration, hnext, -⟩
    · omega
    · rw [if_pos hdeclaration]
      omega

/-- The laws of a table in every run in which each scope that is given back was handed out before
and not given back since: the global scope stays, a scope has one symbol for each of its names, only
subprograms have a scope attached, all symbols are numbered apart, and a refused operation changes
nothing. -/
theorem sound_of_run {ops : List Op} (hrun : start.run ops = some s)
    (hcount : ops.countP Op.isDeclaration < 2 ^ 32) :
    1 ≤ s.table.depth ∧
      (∀ outer ∈ s.table.scopes ++ s.held, ∀ scope, outer.Reaches scope →
        (∀ name symbol, scope.lookup? name = some symbol ↔ symbol ∈ scope ∧ symbol.name = name) ∧
        ∀ symbol ∈ scope, symbol.locals ≠ none → symbol.binding.isRoutine = true) ∧
      s.ids.Nodup ∧ (∀ id ∈ s.ids, id < s.table.nextId) ∧ s.table.nextId < 2 ^ 32 ∧
      ∀ op answer s', s.step op = some (answer, s') →
        (answer = false ↔ op.Refused s.table) ∧ (answer = false → s'.table = s.table) := by
  obtain ⟨⟨⟨htable, hheld⟩, hdistinct, hbelow⟩, hnext⟩ := Sound.start.of_run hrun
  refine ⟨Nat.succ_pos _, fun outer houter scope hreaches => ?_, hdistinct, hbelow, ?_,
    fun op answer s' hstep => ?_⟩
  · have houter : outer.WellFormed := (List.mem_append.1 houter).elim (htable outer) (hheld outer)
    have hscope := houter.of_reaches hreaches
    refine ⟨fun name symbol => hscope.lookup?_eq_some_iff, fun symbol hs hlocals => ?_⟩
    obtain ⟨-, hroutine, -⟩ := hscope
    obtain ⟨inner, hinner⟩ := Option.ne_none_iff_exists'.1 hlocals
    exact hroutine symbol hs inner hinner
  · have hstart : start.table.nextId = 0 := rfl
    omega
  · have hsteps := steps_of_step hstep
    exact ⟨hsteps.answer_eq_false_iff, hsteps.table_eq⟩

/-- A function with a procedure in it: both scopes are closed and attached, and the outer one is
taken off, opened and closed again. One `exit`, one `attach` and one `declare` are refused. -/
def reopening : List Op :=
  [.declare "f" (.function .integer []), .exit, .enter, .declare "x" (.scalar .integer), .enter,
    .exit, .attach "x" 0, .declare "g" (.procedure []), .declare "g" (.scalar .real), .enter,
    .declare "y" (.scalar .real), .exit, .attach "g" 0, .exit, .attach "f" 0, .detach "f", .push 0,
    .exit, .enter]

/-- After that run the procedure's scope is still attached in the scope held. -/
theorem sound_reopening :
    ∃ s, start.run reopening = some s ∧ s.table.depth = 2 ∧ s.held.map Scope.names = [["x", "g"]] ∧
      s.ids = [0, 1, 2, 3] ∧ s.ids.Nodup ∧ (∀ id ∈ s.ids, id < s.table.nextId) ∧
      s.table.nextId < 2 ^ 32 ∧
      ∀ answer s', s.step (.declare "f" .program) = some (answer, s') →
        (answer = false ↔ "f" ∈ s.table.current.names) := by
  have hrun := (Option.some_get (by decide : (start.run reopening).isSome = true)).symm
  obtain ⟨-, -, hdistinct, hbelow, hnext, hstep⟩ := sound_of_run hrun (by decide)
  exact ⟨_, hrun, by decide, by decide, by decide, hdistinct, hbelow, hnext,
    fun answer s' h => (hstep _ answer s' h).1⟩

end Holding

end PascalMips
