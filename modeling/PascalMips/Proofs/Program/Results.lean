import PascalMips.Program.Source
import PascalMips.Proofs.Program.Targets

/-!
# Where the result of a function is assigned

The name of a function is accepted as a target where the body of a subprogram of that name is open.
The names of the open bodies are compared, not their symbols, so this is not yet the body of that
function: a block may declare the name of a subprogram around it once more, and the two functions
are then told apart by their numbers only.

The numbers of the open subprograms are those of symbols in the scopes around their blocks
(`Opens`), and this is kept along the way of the parser (`invariant_tracks`). So the function that a
name stands for is open if and only if the name is accepted and no block from the target out to that
of the innermost open subprogram of that name declares the name again (`result_open_iff`).
-/

namespace PascalMips

/-! ## Numbers that are used once -/

namespace SymbolTable

variable {t u : SymbolTable}

/-- Every number is used at most once, and none from the next one on. -/
structure Counted (t : SymbolTable) : Prop where
  distinct : t.Distinct
  below : ∀ id ∈ t.ids, id < t.nextId

theorem Counted.empty : Counted .empty := ⟨List.nodup_nil, nofun⟩

theorem Counted.enter (h : t.Counted) : t.enter.Counted := by
  have hids : t.enter.ids = t.ids := by
    show ([] :: t.scopes).flatMap Scope.ids = t.scopes.flatMap Scope.ids
    rw [List.flatMap_cons, Scope.ids_nil, List.nil_append]
  refine ⟨?_, ?_⟩
  · unfold Distinct
    rw [hids]
    exact h.distinct
  · rw [hids]
    exact h.below

theorem Extends.ids_perm {added : Scope} (h : t.Extends added u) :
    u.ids.Perm (t.ids ++ added.ids) := by
  unfold SymbolTable.ids
  rw [h.scopes, t.scopes_eq, List.flatMap_cons, List.flatMap_cons, Scope.ids_append,
    List.append_assoc, List.append_assoc]
  exact List.perm_append_comm.append_left _

/-- The numbers of an extended table are still distinct and below the next one. -/
theorem Counted.extends {added : Scope} (h : t.Counted) (hextends : t.Extends added u) :
    u.Counted := by
  have hperm := hextends.ids_perm
  refine ⟨hperm.nodup_iff.2 ?_, fun id hid => ?_⟩
  · refine h.distinct.append hextends.nodup fun id hold hnew => ?_
    have := h.below id hold
    have := (hextends.ids hnew).1
    omega
  · have hnext := hextends.nextId
    rcases List.mem_append.1 (hperm.mem_iff.1 hid) with hold | hnew
    · have := h.below id hold
      omega
    · exact (hextends.ids hnew).2

end SymbolTable

/-! ## Open subprograms -/

/-- The subprograms of the given names, with the given numbers, are open: the block of each is a
scope, and the scope around the block declares the name with the number. -/
inductive Opens : List String → List Nat → List Scope → Prop
  | nil {scopes : List Scope} : Opens [] [] scopes
  | cons {name : String} {names : List String} {symbol : Symbol} {ids : List Nat}
      {block around : Scope} {rest : List Scope} (hlookup : around.lookup? name = some symbol)
      (h : Opens names ids (around :: rest)) :
      Opens (name :: names) (symbol.id :: ids) (block :: around :: rest)

namespace Opens

variable {names : List String} {ids : List Nat} {scopes : List Scope}

/-- What the innermost scope declares does not matter. -/
theorem replace {block block' : Scope} {rest : List Scope} (h : Opens names ids (block :: rest)) :
    Opens names ids (block' :: rest) := by
  cases h with
  | nil => exact .nil
  | cons hlookup h => exact .cons hlookup h

/-- The numbers are those of symbols in the scopes around the innermost one. -/
theorem exists_symbol (h : Opens names ids scopes) {id : Nat} (hid : id ∈ ids) :
    ∃ scope ∈ scopes.tail, ∃ symbol ∈ scope, symbol.id = id := by
  induction h with
  | nil => cases hid
  | @cons name names symbol ids block around rest hlookup _ ih =>
    rcases List.mem_cons.1 hid with rfl | hid
    · exact ⟨around, List.mem_cons_self, symbol, Scope.mem_of_lookup? hlookup, rfl⟩
    · obtain ⟨scope, hscope, hsymbol⟩ := ih hid
      exact ⟨scope, List.mem_cons_of_mem _ hscope, hsymbol⟩

/-- The symbol that a name stands for is that of an open subprogram if and only if one of that name
is open and no scope, from the innermost one out to the block of the innermost such subprogram,
declares the name. -/
theorem id_mem_iff {t : SymbolTable} (ht : t.Distinct) (h : Opens names ids scopes)
    {within : List Scope} (hscopes : t.scopes = within ++ scopes) {name : String} {depth : Nat}
    {symbol : Symbol} (hfind : SymbolTable.findIn scopes name = some (depth, symbol)) :
    symbol.id ∈ ids ↔
      name ∈ names ∧ ∀ scope ∈ scopes.take (names.idxOf name + 1), name ∉ scope.names := by
  induction h generalizing within depth with
  | nil => simp
  | @cons head names own ids block around rest hlookup hopens ih =>
    have hrest : t.scopes = (within ++ [block]) ++ around :: rest := by
      rw [hscopes, List.append_assoc]
      rfl
    by_cases hblock : name ∈ block.names
    · -- A name of the block itself: no open subprogram is declared there.
      obtain ⟨found, hfound⟩ := Scope.exists_lookup? hblock
      rw [SymbolTable.findIn_cons_of_mem hfound] at hfind
      cases hfind
      refine iff_of_false (fun hid => ?_) fun hall => hall.2 block (by simp) hblock
      have hopen : Opens (head :: names) (own.id :: ids) (block :: around :: rest) :=
        .cons hlookup hopens
      obtain ⟨scope, hscope, other, hother, hsame⟩ := hopen.exists_symbol hid
      exact ht.ne_of_outer hscopes (Scope.mem_of_lookup? hfound) hscope hother hsame.symm
    · rw [SymbolTable.findIn_cons_of_notMem hblock] at hfind
      by_cases hhead : head = name
      · -- The subprogram that the block belongs to: its name is found in the scope around.
        subst hhead
        rw [SymbolTable.findIn_cons_of_mem hlookup] at hfind
        cases hfind
        simp [hblock]
      · have hne : symbol.id ≠ own.id := by
          intro hid
          obtain ⟨scope, hscope, hfound⟩ := SymbolTable.mem_of_findIn hfind
          have hsame := ht.eq_of_id_eq (hrest ▸ List.mem_append_right _ hscope)
            (Scope.mem_of_lookup? hfound) (hrest ▸ List.mem_append_right _ List.mem_cons_self)
            (Scope.mem_of_lookup? hlookup) hid
          apply hhead
          rw [← Scope.name_of_lookup? hlookup, ← hsame, Scope.name_of_lookup? hfound]
        have hinner := ih hrest hfind
        simp [hne, hinner, hhead, hblock, List.idxOf_cons_ne, Ne.symm hhead]

end Opens

/-! ## The way of the parser -/

/-- The state of a parser inside the subprograms with the given numbers. -/
structure Parser.Tracks (opened : List Nat) (p : Parser) : Prop where
  opens : Opens p.enclosing opened p.symbols.scopes
  counted : p.symbols.Counted

namespace Parse

/-- The parser keeps track of the open subprograms: a subprogram is entered with its own number and
left with those around it. -/
theorem invariant_tracks : Invariant Parser.Tracks where
  grow := by
    intro opened p q added hextends henclosing h
    refine ⟨?_, h.counted.extends hextends⟩
    rw [henclosing, hextends.scopes]
    exact (p.symbols.scopes_eq ▸ h.opens).replace
  enter := by
    intro opened p q s hhead h
    obtain ⟨u, binding, params, locals, -, hdeclare, hblock, -, -, henclosing, -⟩ :=
      of_subprogramHead hhead
    obtain ⟨hfresh, -, hscopes⟩ := SymbolTable.of_declare? hdeclare
    have hcounted := h.counted.extends (SymbolTable.extends_of_declare? hdeclare)
    refine ⟨?_, hcounted.enter.extends hblock⟩
    have houter : u.enter.outer = u.scopes := rfl
    rw [henclosing, hblock.scopes, houter, hscopes]
    have hlookup : Scope.lookup? (p.symbols.current ++ [⟨p.symbols.nextId, s.name, binding, none⟩])
        s.name = some ⟨p.symbols.nextId, s.name, binding, none⟩ := Scope.lookup?_append_cons hfresh
    exact .cons hlookup (p.symbols.scopes_eq ▸ h.opens).replace

end Parse

/-! ## Targets that are functions -/

def Outcome.isOk {α : Type} : Outcome α → Bool
  | ok _ _ => true
  | error _ _ => false
  | exhausted => false

/-- A block declares the name again: the innermost one, or one around it up to that of the innermost
open subprogram of that name. -/
def Parser.Redeclares (p : Parser) (name : String) : Prop :=
  ∃ scope ∈ p.symbols.scopes.take (p.enclosing.idxOf name + 1), name ∈ scope.names

instance (p : Parser) (name : String) : Decidable (p.Redeclares name) :=
  inferInstanceAs (Decidable (∃ scope ∈ p.symbols.scopes.take _, name ∈ scope.names))

namespace Parse

/-- The function that the name read as `name` stands for. -/
def function? (name : Token) (p : Parser) : Option Symbol :=
  (p.symbols.lookup? name.lexeme).filter (·.binding.role = .function)

theorem of_function? {name : Token} {p : Parser} {function : Symbol}
    (h : function ∈ function? name p) : p.symbols.lookup? name.lexeme = some function ∧
      ∃ returns params, function.binding = .function returns params := by
  obtain ⟨hlookup, hrole⟩ := Option.mem_filter_iff.1 h
  refine ⟨hlookup, ?_⟩
  cases hbinding : function.binding with
  | function returns params => exact ⟨returns, params, rfl⟩
  | program | scalar | array | procedure => simp [hbinding, Binding.role] at hrole

/-- The name of a function is accepted where the body of a subprogram of that name is open. -/
theorem isOk_target_iff {name : Token} {p : Parser} {function : Symbol}
    (h : function ∈ function? name p) : (target name p).isOk ↔ name.lexeme ∈ p.enclosing := by
  obtain ⟨hlookup, returns, params, hbinding⟩ := of_function? h
  by_cases hopen : name.lexeme ∈ p.enclosing
  · simp [target, bind_apply, resolve, hlookup, hbinding, isEnclosing, hopen, pure_apply,
      Outcome.isOk]
  · simp [target, bind_apply, resolve, hlookup, hbinding, isEnclosing, hopen, fail, Outcome.isOk]

/-- The function that stands at a target is one whose declaration is being read if and only if its
name is accepted there and has not been declared again since the innermost open subprogram of that
name. -/
theorem result_open_iff (source : String) :
    EachTarget (fun opened name p => ∀ function ∈ function? name p,
      (function.id ∈ opened ↔ (target name p).isOk ∧ ¬ p.Redeclares name.lexeme)) source := by
  refine eachTarget_of_invariant invariant_tracks (fun _ => ⟨.nil, .empty⟩) ?_ source
  intro opened name p h function hfunction
  obtain ⟨hlookup, -⟩ := of_function? hfunction
  obtain ⟨⟨depth, found⟩, hfind, rfl⟩ := Option.map_eq_some_iff.1 hlookup
  have hiff := h.opens.id_mem_iff h.counted.distinct (List.nil_append _).symm hfind
  rw [hiff, isOk_target_iff hfunction]
  simp only [Parser.Redeclares, not_exists, not_and]

example : EachTarget (fun opened name p => ∃ function ∈ function? name p,
    (target name p).isOk ∧ function.id ∈ opened) ("program p; function f: integer; " ++
      "procedure g; begin f := 1 end; begin g; f := 2 end; begin end.") := by
  decide +kernel

/-- The block of a function declares another function of the same name. The assignment after that
one is closed stands for it. -/
def twinSource : String := "program p; function f: integer; function f: integer; " ++
  "begin f := 1 end; begin f := 2 end; begin end."

theorem result_closed_twinSource : (parse twinSource).isOk ∧
    ¬ EachTarget (fun opened name p => ∀ function ∈ function? name p,
      (target name p).isOk → function.id ∈ opened) twinSource := by
  decide +kernel

end Parse

end PascalMips
