import Mathlib.Data.List.Nodup
import PascalMips.Symbol.Table

/-!
# Tables as stacks of scopes

A table is its scopes from the innermost outwards and the next number (`eq_of_scopes`); each
operation is described by what it does to that list. In a well-formed table names are distinct
within a scope and only subprograms hold scopes of their own, at every level. There, taking the
scope off a subprogram and attaching it again changes nothing (`attach?_of_detach?`).
-/

namespace PascalMips

/-! ## Scopes -/

namespace Scope

def names (scope : Scope) : List String := scope.map Symbol.name

theorem names_append (first second : Scope) :
    names (first ++ second) = names first ++ names second :=
  List.map_append

theorem declares_iff {scope : Scope} {name : String} :
    scope.declares name = true ↔ name ∈ scope.names := by
  simp [declares, names]

theorem lookup?_eq_none_iff {scope : Scope} {name : String} :
    scope.lookup? name = none ↔ name ∉ scope.names := by
  simp [lookup?, names]

theorem name_of_lookup? {scope : Scope} {name : String} {symbol : Symbol}
    (h : scope.lookup? name = some symbol) : symbol.name = name := by
  simpa using List.find?_some h

theorem mem_of_lookup? {scope : Scope} {name : String} {symbol : Symbol}
    (h : scope.lookup? name = some symbol) : symbol ∈ scope :=
  List.mem_of_find?_eq_some h

theorem mem_names_of_lookup? {scope : Scope} {name : String} {symbol : Symbol}
    (h : scope.lookup? name = some symbol) : name ∈ scope.names :=
  name_of_lookup? h ▸ List.mem_map_of_mem (mem_of_lookup? h)

theorem exists_lookup? {scope : Scope} {name : String} (h : name ∈ scope.names) :
    ∃ symbol, scope.lookup? name = some symbol :=
  Option.ne_none_iff_exists'.1 fun hnone => lookup?_eq_none_iff.1 hnone h

theorem lookup?_append_of_notMem {first second : Scope} {name : String}
    (h : name ∉ first.names) : lookup? (first ++ second) name = lookup? second name := by
  unfold lookup?
  rw [List.find?_append, show first.find? (·.name = name) = none from lookup?_eq_none_iff.2 h]
  rfl

/-- Of two symbols with one name, the first is found. -/
theorem lookup?_append_of_mem {first second : Scope} {name : String} (h : name ∈ first.names) :
    lookup? (first ++ second) name = lookup? first name := by
  obtain ⟨symbol, hfirst⟩ := exists_lookup? h
  unfold lookup? at *
  rw [List.find?_append, hfirst]
  rfl

/-- A change to a name that is not declared is none. -/
theorem update_of_notMem {scope : Scope} {name : String} {change : Symbol → Symbol}
    (h : name ∉ scope.names) : scope.update name change = scope := by
  refine (List.map_congr_left fun symbol hs => if_neg ?_).trans (List.map_id scope)
  rintro rfl
  exact h (List.mem_map_of_mem hs)

/-- A change that keeps names keeps the names of the scope. -/
theorem names_update {scope : Scope} {name : String} {change : Symbol → Symbol}
    (hchange : ∀ symbol, (change symbol).name = symbol.name) :
    (scope.update name change).names = scope.names := by
  simp only [names, update, List.map_map]
  refine List.map_congr_left fun symbol _ => ?_
  simp only [Function.comp]
  split
  · exact hchange symbol
  · rfl

/-- Two changes to one name are one, done after the other. -/
theorem update_update {scope : Scope} {name : String} {change change' : Symbol → Symbol}
    (hchange : ∀ symbol, (change symbol).name = symbol.name) :
    (scope.update name change).update name change' = scope.update name (change' ∘ change) := by
  simp only [update, List.map_map]
  refine List.map_congr_left fun symbol _ => ?_
  by_cases h : symbol.name = name
  · simp [h, hchange]
  · simp [h]

/-- A change of the only symbol of a name, if it changes nothing, leaves the scope as it is. -/
theorem update_eq_self {scope : Scope} {name : String} {change : Symbol → Symbol} {symbol : Symbol}
    (hnodup : scope.names.Nodup) (hlookup : scope.lookup? name = some symbol)
    (hsame : change symbol = symbol) : scope.update name change = scope := by
  refine (List.map_congr_left fun other ho => ?_).trans (List.map_id scope)
  split
  · next hname =>
    have hsymbol := name_of_lookup? hlookup
    have heq : other = symbol :=
      List.inj_on_of_nodup_map hnodup ho (mem_of_lookup? hlookup) (hname.trans hsymbol.symm)
    rw [heq, hsame]
    rfl
  · rfl

/-- After a change, the changed symbol is found. -/
theorem lookup?_update {scope : Scope} {name : String} {change : Symbol → Symbol}
    (hchange : ∀ symbol, (change symbol).name = symbol.name) :
    (scope.update name change).lookup? name = (scope.lookup? name).map change := by
  unfold lookup? update
  induction scope with
  | nil => rfl
  | cons symbol rest ih =>
    by_cases h : symbol.name = name
    · simp [h, hchange]
    · simpa [h] using ih

theorem lookup?_append_cons {first second : Scope} {symbol : Symbol}
    (h : symbol.name ∉ first.names) :
    lookup? (first ++ symbol :: second) symbol.name = some symbol := by
  rw [lookup?_append_of_notMem h]
  simp [lookup?]

/-- In a scope with distinct names, a change affects one symbol. -/
theorem update_append_cons {first second : Scope} {symbol : Symbol} {change : Symbol → Symbol}
    (hfirst : symbol.name ∉ first.names) (hsecond : symbol.name ∉ second.names) :
    update (first ++ symbol :: second) symbol.name change = first ++ change symbol :: second := by
  have h₁ : update first symbol.name change = first := update_of_notMem hfirst
  have h₂ : update second symbol.name change = second := update_of_notMem hsecond
  unfold update at *
  rw [List.map_append, List.map_cons, h₁, h₂, if_pos rfl]

/-- Names are distinct, and what holds a scope is a subprogram and the scope well formed. -/
inductive WellFormed : Scope → Prop
  | mk {scope : Scope} (nodup : scope.names.Nodup)
      (routine : ∀ symbol ∈ scope, ∀ inner, symbol.locals = some inner →
        symbol.binding.isRoutine = true)
      (inner : ∀ symbol ∈ scope, ∀ inner, symbol.locals = some inner → WellFormed inner) :
      WellFormed scope

theorem WellFormed.nodup {scope : Scope} : scope.WellFormed → scope.names.Nodup
  | ⟨h, _, _⟩ => h

theorem WellFormed.nil : WellFormed [] := ⟨List.nodup_nil, nofun, nofun⟩

/-- A well-formed scope stays so with a new name at its end. -/
theorem WellFormed.append_singleton {scope : Scope} {symbol : Symbol} (h : scope.WellFormed)
    (hname : symbol.name ∉ scope.names)
    (hroutine : ∀ inner, symbol.locals = some inner → symbol.binding.isRoutine = true)
    (hinner : ∀ inner, symbol.locals = some inner → WellFormed inner) :
    WellFormed (scope ++ [symbol]) := by
  obtain ⟨hnodup, hr, hi⟩ := h
  refine ⟨?_, ?_, ?_⟩
  · rw [names_append]
    exact List.nodup_append_comm.1 (List.nodup_cons.2 ⟨hname, hnodup⟩)
  · intro other ho
    rcases List.mem_append.1 ho with ho | ho
    · exact hr other ho
    · exact List.mem_singleton.1 ho ▸ hroutine
  · intro other ho
    rcases List.mem_append.1 ho with ho | ho
    · exact hi other ho
    · exact List.mem_singleton.1 ho ▸ hinner

/-- Taking scopes off leaves a scope well formed. -/
theorem WellFormed.update_none {scope : Scope} (h : scope.WellFormed) (name : String) :
    (scope.update name ({ · with locals := none })).WellFormed := by
  obtain ⟨hnodup, hr, hi⟩ := h
  have hold : ∀ symbol ∈ scope.update name ({ · with locals := none }), ∀ inner,
      symbol.locals = some inner → symbol ∈ scope := by
    intro symbol hs inner hinner
    obtain ⟨other, ho, rfl⟩ := List.mem_map.1 hs
    by_cases hname : other.name = name
    · simp [hname] at hinner
    · simpa [hname] using ho
  refine ⟨?_, ?_, ?_⟩
  · rw [names_update]
    · exact hnodup
    · exact fun _ => rfl
  · exact fun symbol hs inner hinner => hr symbol (hold symbol hs inner hinner) inner hinner
  · exact fun symbol hs inner hinner => hi symbol (hold symbol hs inner hinner) inner hinner

/-- Attaching a well-formed scope to a subprogram leaves a scope well formed. -/
theorem WellFormed.update_some {scope inner : Scope} {name : String} {symbol : Symbol}
    (h : scope.WellFormed) (hlookup : scope.lookup? name = some symbol)
    (hroutine : symbol.binding.isRoutine = true) (hinner : inner.WellFormed) :
    (scope.update name ({ · with locals := some inner })).WellFormed := by
  obtain ⟨hnodup, hr, hi⟩ := h
  have honly : ∀ other ∈ scope, other.name = name → other = symbol := fun other ho hname =>
    List.inj_on_of_nodup_map hnodup ho (mem_of_lookup? hlookup)
      (hname.trans (name_of_lookup? hlookup).symm)
  have hcases : ∀ other ∈ scope.update name ({ · with locals := some inner }),
      other ∈ scope ∨ other = { symbol with locals := some inner } := by
    intro other ho
    obtain ⟨old, hold, rfl⟩ := List.mem_map.1 ho
    by_cases hname : old.name = name
    · rw [if_pos hname, honly old hold hname]
      exact .inr rfl
    · rw [if_neg hname]
      exact .inl hold
  refine ⟨?_, ?_, ?_⟩
  · rw [names_update]
    · exact hnodup
    · exact fun _ => rfl
  · intro other ho scope' hscope'
    rcases hcases other ho with hold | rfl
    · exact hr other hold scope' hscope'
    · exact hroutine
  · intro other ho scope' hscope'
    rcases hcases other ho with hold | rfl
    · exact hi other hold scope' hscope'
    · cases hscope'
      exact hinner

end Scope

/-! ## Tables -/

namespace SymbolTable

/-- The scopes around the innermost one. -/
def outer (t : SymbolTable) : List Scope := t.scopes.tail

theorem scopes_eq (t : SymbolTable) : t.scopes = t.current :: t.outer := by
  rcases t with ⟨_ | ⟨scope, inner⟩, global, nextId⟩ <;> rfl

/-- A table is determined by its scopes and its next number. -/
theorem eq_of_scopes {t u : SymbolTable} (hscopes : t.scopes = u.scopes)
    (hnext : t.nextId = u.nextId) : t = u := by
  obtain ⟨hinner, hglobal⟩ := List.append_inj' hscopes rfl
  rcases t with ⟨inner, global, nextId⟩
  cases hinner
  cases List.cons.inj hglobal |>.1
  cases hnext
  rfl

theorem current_eq {t : SymbolTable} {scope : Scope} {rest : List Scope}
    (h : t.scopes = scope :: rest) : t.current = scope :=
  (List.cons.inj (t.scopes_eq.symm.trans h)).1

theorem outer_eq {t : SymbolTable} {scope : Scope} {rest : List Scope}
    (h : t.scopes = scope :: rest) : t.outer = rest :=
  (List.cons.inj (t.scopes_eq.symm.trans h)).2

/-- A declaration adds a symbol with the next number at the end of the innermost scope, which had
none of the name. -/
theorem of_declare? {t u : SymbolTable} {name : String} {binding : Binding}
    (h : t.declare? name binding = some u) :
    name ∉ t.current.names ∧ u.nextId = t.nextId + 1 ∧
      u.scopes = (t.current ++ [⟨t.nextId, name, binding, none⟩]) :: t.outer := by
  obtain ⟨scope, hinsert, rfl⟩ := Option.map_eq_some_iff.1 h
  unfold Scope.insert? at hinsert
  split at hinsert
  · cases hinsert
  · next hnew =>
    cases hinsert
    refine ⟨fun hmem => hnew (Scope.declares_iff.2 hmem), rfl, ?_⟩
    rcases t with ⟨_ | ⟨_, _⟩, _, _⟩ <;> rfl

/-- A scope with another one around it can be left. -/
theorem exit?_of_outer {t : SymbolTable} {around : Scope} {rest : List Scope}
    (h : t.outer = around :: rest) :
    ∃ u, t.exit? = some (t.current, u) ∧ u.scopes = around :: rest ∧ u.nextId = t.nextId := by
  rcases t with ⟨_ | ⟨scope, inner⟩, global, nextId⟩
  · simp [outer, scopes] at h
  · exact ⟨⟨inner, global, nextId⟩, rfl, h, rfl⟩

/-- A change reaches the outermost scope if none inside declares the name. -/
theorem updateIn_concat {name : String} {change : Symbol → Symbol} {last : Scope} :
    ∀ inner : List Scope, updateIn name change (inner ++ [last]) =
      if inner.any (·.declares name) then updateIn name change inner ++ [last]
      else inner ++ [last.update name change]
  | [] => by
    by_cases h : last.declares name = true
    · simp [updateIn, h]
    · simp [updateIn, h, Scope.update_of_notMem (mt Scope.declares_iff.2 h)]
  | scope :: rest => by
    by_cases h : scope.declares name = true
    · simp [updateIn, h]
    · by_cases hrest : rest.any (·.declares name) = true
      · simp [updateIn, h, updateIn_concat rest, hrest]
      · simp [updateIn, h, updateIn_concat rest, hrest]

/-- A change to a table is one to the list of its scopes. -/
theorem scopes_update (t : SymbolTable) (name : String) (change : Symbol → Symbol) :
    (t.update name change).scopes = updateIn name change t.scopes := by
  rw [show t.scopes = t.inner ++ [t.global] from rfl, updateIn_concat]
  unfold update
  split <;> rfl

theorem nextId_update (t : SymbolTable) (name : String) (change : Symbol → Symbol) :
    (t.update name change).nextId = t.nextId := by
  unfold update
  split <;> rfl

/-- A name of the innermost scope is found there, at the depth of all scopes. -/
theorem findIn_cons_of_mem {scope : Scope} {rest : List Scope} {name : String} {symbol : Symbol}
    (h : scope.lookup? name = some symbol) :
    findIn (scope :: rest) name = some (rest.length + 1, symbol) := by
  rw [findIn, h]

theorem findIn_cons_of_notMem {scope : Scope} {rest : List Scope} {name : String}
    (h : name ∉ scope.names) : findIn (scope :: rest) name = findIn rest name := by
  rw [findIn, Scope.lookup?_eq_none_iff.2 h]

/-- A change affects the symbol that is found, and not where. -/
theorem findIn_updateIn (name : String) {change : Symbol → Symbol}
    (hchange : ∀ symbol, (change symbol).name = symbol.name) : ∀ scopes : List Scope,
    findIn (updateIn name change scopes) name =
      (findIn scopes name).map fun (depth, symbol) => (depth, change symbol)
  | [] => rfl
  | scope :: rest => by
    by_cases h : scope.declares name = true
    · obtain ⟨symbol, hlookup⟩ := Scope.exists_lookup? (Scope.declares_iff.1 h)
      simp [updateIn, h, findIn, Scope.lookup?_update hchange, hlookup]
    · have hlookup : scope.lookup? name = none :=
        Scope.lookup?_eq_none_iff.2 (mt Scope.declares_iff.2 h)
      simp [updateIn, h, findIn, hlookup, findIn_updateIn name hchange rest]

/-- What is found is in one of the scopes. -/
theorem mem_of_findIn {name : String} {depth : Nat} {symbol : Symbol} :
    ∀ {scopes : List Scope}, findIn scopes name = some (depth, symbol) →
      ∃ scope ∈ scopes, scope.lookup? name = some symbol
  | [], h => nomatch h
  | scope :: rest, h => by
    unfold findIn at h
    split at h
    · next hlookup =>
      cases h
      exact ⟨scope, List.mem_cons_self, hlookup⟩
    · obtain ⟨found, hmem, hlookup⟩ := mem_of_findIn h
      exact ⟨found, List.mem_cons_of_mem _ hmem, hlookup⟩

theorem name_of_find {t : SymbolTable} {x : String} {depth : Nat} {symbol : Symbol}
    (h : t.lookupWithDepth? x = some (depth, symbol)) : symbol.name = x := by
  obtain ⟨_, -, hlookup⟩ := mem_of_findIn h
  exact Scope.name_of_lookup? hlookup

/-- Where a name is found: in a scope with one less than its depth around it, and not within. -/
theorem split_of_findIn {name : String} {depth : Nat} {symbol : Symbol} :
    ∀ {scopes : List Scope}, findIn scopes name = some (depth, symbol) →
      ∃ inner scope outer, scopes = inner ++ scope :: outer ∧ depth = outer.length + 1 ∧
        scope.lookup? name = some symbol
  | [], h => nomatch h
  | scope :: rest, h => by
    unfold findIn at h
    split at h
    · next hlookup =>
      cases h
      exact ⟨[], scope, rest, rfl, rfl, hlookup⟩
    · obtain ⟨inner, found, outer, rfl, hdepth, hlookup⟩ := split_of_findIn h
      exact ⟨scope :: inner, found, outer, rfl, hdepth, hlookup⟩

/-- After a change, each scope is one from before, or a changed one. -/
theorem mem_updateIn {name : String} {change : Symbol → Symbol} {scope : Scope} :
    ∀ {scopes : List Scope}, scope ∈ updateIn name change scopes →
      scope ∈ scopes ∨ ∃ old ∈ scopes, scope = old.update name change
  | first :: rest, h => by
    unfold updateIn at h
    split at h
    · rcases List.mem_cons.1 h with rfl | h
      · exact .inr ⟨first, List.mem_cons_self, rfl⟩
      · exact .inl (List.mem_cons_of_mem _ h)
    · rcases List.mem_cons.1 h with rfl | h
      · exact .inl List.mem_cons_self
      · rcases mem_updateIn h with h | ⟨old, hold, heq⟩
        · exact .inl (List.mem_cons_of_mem _ h)
        · exact .inr ⟨old, List.mem_cons_of_mem _ hold, heq⟩

/-- Two changes to one name in a list of scopes are one. -/
theorem updateIn_updateIn {name : String} {change change' : Symbol → Symbol}
    (hchange : ∀ symbol, (change symbol).name = symbol.name) : ∀ scopes : List Scope,
    updateIn name change' (updateIn name change scopes) = updateIn name (change' ∘ change) scopes
  | [] => rfl
  | scope :: rest => by
    by_cases h : scope.declares name = true
    · have h' : (scope.update name change).declares name = true := by
        rw [Scope.declares_iff, Scope.names_update hchange]
        exact Scope.declares_iff.1 h
      simp [updateIn, h, h', Scope.update_update hchange]
    · simp [updateIn, h, updateIn_updateIn hchange rest]

/-- A change that leaves the symbol found as it is leaves all scopes. Names are distinct, so no
other symbol is affected. -/
theorem updateIn_eq_self {name : String} {change : Symbol → Symbol} {depth : Nat} {symbol : Symbol}
    (hsame : change symbol = symbol) : ∀ {scopes : List Scope},
      (∀ scope ∈ scopes, scope.WellFormed) → findIn scopes name = some (depth, symbol) →
      updateIn name change scopes = scopes
  | [], _, h => nomatch h
  | scope :: rest, hw, h => by
    obtain ⟨hscope, hrest⟩ := List.forall_mem_cons.1 hw
    unfold findIn at h
    split at h
    · next hlookup =>
      cases h
      have hdeclares := Scope.declares_iff.2 (Scope.mem_names_of_lookup? hlookup)
      rw [updateIn, if_pos hdeclares, Scope.update_eq_self hscope.nodup hlookup hsame]
    · next hlookup =>
      have hdeclares := mt Scope.declares_iff.1 (Scope.lookup?_eq_none_iff.1 hlookup)
      rw [updateIn, if_neg hdeclares, updateIn_eq_self hsame hrest h]

/-! ## Scopes of subprograms -/

def WellFormed (t : SymbolTable) : Prop := ∀ scope ∈ t.scopes, scope.WellFormed

theorem WellFormed.empty : WellFormed empty := by
  intro scope hscope
  cases List.mem_singleton.1 hscope
  exact .nil

theorem WellFormed.push {t : SymbolTable} {scope : Scope} (h : t.WellFormed)
    (hscope : scope.WellFormed) : (t.push scope).WellFormed :=
  List.forall_mem_cons.2 ⟨hscope, h⟩

/-- Leaving a scope keeps a table well formed, and so is the scope that was left. -/
theorem WellFormed.of_exit? {t u : SymbolTable} {scope : Scope} (h : t.WellFormed)
    (hexit : t.exit? = some (scope, u)) : u.WellFormed ∧ scope.WellFormed := by
  rcases t with ⟨_ | ⟨first, inner⟩, global, nextId⟩
  · cases hexit
  · cases hexit
    obtain ⟨hscope, hrest⟩ := List.forall_mem_cons.1 h
    exact ⟨hrest, hscope⟩

/-- A declaration keeps a table well formed, since it refuses names that are taken. -/
theorem WellFormed.of_declare? {t u : SymbolTable} {name : String} {binding : Binding}
    (h : t.WellFormed) (hdeclare : t.declare? name binding = some u) : u.WellFormed := by
  obtain ⟨hnew, -, hscopes⟩ := SymbolTable.of_declare? hdeclare
  unfold WellFormed at h ⊢
  rw [scopes_eq] at h
  obtain ⟨hcurrent, houter⟩ := List.forall_mem_cons.1 h
  rw [hscopes]
  exact List.forall_mem_cons.2 ⟨hcurrent.append_singleton hnew nofun nofun, houter⟩

theorem lookup?_eq_some {t : SymbolTable} {name : String} {symbol : Symbol}
    (h : t.lookup? name = some symbol) : ∃ depth, findIn t.scopes name = some (depth, symbol) := by
  obtain ⟨⟨depth, _⟩, hfind, rfl⟩ := Option.map_eq_some_iff.1 h
  exact ⟨depth, hfind⟩

/-- Giving a well-formed scope to a subprogram keeps scopes well formed. -/
theorem wellFormed_updateIn {name : String} {inner : Scope} {depth : Nat} {symbol : Symbol}
    (hroutine : symbol.binding.isRoutine = true) (hinner : inner.WellFormed) :
    ∀ {scopes : List Scope}, (∀ scope ∈ scopes, scope.WellFormed) →
      findIn scopes name = some (depth, symbol) →
      ∀ scope ∈ updateIn name ({ · with locals := some inner }) scopes, scope.WellFormed
  | [], _, h => nomatch h
  | scope :: rest, hw, h => by
    obtain ⟨hscope, hrest⟩ := List.forall_mem_cons.1 hw
    unfold findIn at h
    split at h
    · next hlookup =>
      cases h
      have hdeclares := Scope.declares_iff.2 (Scope.mem_names_of_lookup? hlookup)
      rw [updateIn, if_pos hdeclares]
      exact List.forall_mem_cons.2 ⟨hscope.update_some hlookup hroutine hinner, hrest⟩
    · next hlookup =>
      have hdeclares := mt Scope.declares_iff.1 (Scope.lookup?_eq_none_iff.1 hlookup)
      rw [updateIn, if_neg hdeclares]
      exact List.forall_mem_cons.2 ⟨hscope, wellFormed_updateIn hroutine hinner hrest h⟩

/-- Attaching a well-formed scope keeps a table well formed. It succeeds for subprograms only. -/
theorem WellFormed.of_attach? {t u : SymbolTable} {name : String} {inner : Scope}
    (h : t.WellFormed) (hinner : inner.WellFormed) (hattach : t.attach? name inner = some u) :
    u.WellFormed := by
  unfold attach? at hattach
  split at hattach
  · next symbol hlookup =>
    split at hattach
    · next hroutine =>
      cases hattach
      obtain ⟨depth, hfind⟩ := lookup?_eq_some hlookup
      unfold WellFormed
      rw [scopes_update]
      exact wellFormed_updateIn hroutine hinner h hfind
    · cases hattach
  · cases hattach

/-- Detaching a scope finds the subprogram, gives what it held, and leaves it without. -/
theorem of_detach? {t u : SymbolTable} {name : String} {inner : Scope}
    (h : t.detach? name = some (inner, u)) : ∃ depth symbol,
      findIn t.scopes name = some (depth, symbol) ∧ symbol.locals = some inner ∧
        u.scopes = updateIn name ({ · with locals := none }) t.scopes ∧ u.nextId = t.nextId := by
  unfold detach? at h
  split at h
  · next symbol hlookup =>
    obtain ⟨depth, hfind⟩ := lookup?_eq_some hlookup
    obtain ⟨_, hlocals, heq⟩ := Option.map_eq_some_iff.1 h
    cases heq
    exact ⟨depth, symbol, hfind, hlocals, scopes_update .., nextId_update ..⟩
  · cases h

/-- Detaching a scope keeps a table well formed, and the scope is well formed itself. -/
theorem WellFormed.of_detach? {t u : SymbolTable} {name : String} {inner : Scope}
    (hw : t.WellFormed) (h : t.detach? name = some (inner, u)) :
    u.WellFormed ∧ inner.WellFormed := by
  obtain ⟨depth, symbol, hfind, hlocals, hscopes, -⟩ := SymbolTable.of_detach? h
  constructor
  · intro scope hscope
    rw [hscopes] at hscope
    rcases mem_updateIn hscope with hold | ⟨old, hold, rfl⟩
    · exact hw scope hold
    · exact (hw old hold).update_none name
  · obtain ⟨scope, hscope, hlookup⟩ := mem_of_findIn hfind
    obtain ⟨-, -, hinner⟩ := hw scope hscope
    exact hinner symbol (Scope.mem_of_lookup? hlookup) inner hlocals

/-- In a well-formed table, attaching the scope that was taken off a subprogram restores the
table. -/
theorem attach?_of_detach? {t u : SymbolTable} {name : String} {inner : Scope}
    (hw : t.WellFormed) (h : t.detach? name = some (inner, u)) :
    u.attach? name inner = some t := by
  obtain ⟨depth, symbol, hfind, hlocals, hscopes, hnext⟩ := of_detach? h
  have hlookup : u.lookup? name = some { symbol with locals := none } := by
    unfold lookup? lookupWithDepth?
    rw [hscopes, findIn_updateIn, hfind]
    · rfl
    · exact fun _ => rfl
  have hroutine : symbol.binding.isRoutine = true := by
    obtain ⟨scope, hscope, hfound⟩ := mem_of_findIn hfind
    obtain ⟨-, hroutine, -⟩ := hw scope hscope
    exact hroutine symbol (Scope.mem_of_lookup? hfound) inner hlocals
  unfold attach?
  rw [hlookup]
  simp only [hroutine, if_true, Option.some.injEq]
  refine eq_of_scopes ?_ ((nextId_update ..).trans hnext)
  rw [scopes_update, hscopes, updateIn_updateIn]
  · refine updateIn_eq_self ?_ hw hfind
    rcases symbol with ⟨id, symbolName, binding, locals⟩
    cases hlocals
    rfl
  · exact fun _ => rfl

section Innermost

variable {t : SymbolTable} {first second : Scope} {symbol : Symbol} {rest : List Scope}

theorem findIn_innermost (hfirst : symbol.name ∉ first.names) :
    findIn ((first ++ symbol :: second) :: rest) symbol.name = some (rest.length + 1, symbol) :=
  findIn_cons_of_mem (Scope.lookup?_append_cons hfirst)

/-- A change to a name of the innermost scope affects its symbol there. -/
theorem scopes_update_innermost {change : Symbol → Symbol}
    (h : t.scopes = (first ++ symbol :: second) :: rest) (hfirst : symbol.name ∉ first.names)
    (hsecond : symbol.name ∉ second.names) :
    (t.update symbol.name change).scopes = (first ++ change symbol :: second) :: rest := by
  have hdeclares : Scope.declares (first ++ symbol :: second) symbol.name = true := by
    simp [Scope.declares]
  rw [scopes_update, h, updateIn, if_pos hdeclares, Scope.update_append_cons hfirst hsecond]

/-- Attaching a scope to a subprogram of the innermost scope. -/
theorem attach?_innermost (inner : Scope) (h : t.scopes = (first ++ symbol :: second) :: rest)
    (hfirst : symbol.name ∉ first.names) (hsecond : symbol.name ∉ second.names)
    (hroutine : symbol.binding.isRoutine = true) :
    ∃ u, t.attach? symbol.name inner = some u ∧ u.nextId = t.nextId ∧
      u.scopes = (first ++ { symbol with locals := some inner } :: second) :: rest := by
  refine ⟨t.update symbol.name ({ · with locals := some inner }), ?_, nextId_update ..,
    scopes_update_innermost h hfirst hsecond⟩
  have hlookup : t.lookup? symbol.name = some symbol := by
    rw [lookup?, lookupWithDepth?, h, findIn_innermost hfirst]
    rfl
  simp [attach?, hlookup, hroutine]

/-- Taking its scope off a subprogram of the innermost scope. -/
theorem detach?_innermost {inner : Scope} (h : t.scopes = (first ++ symbol :: second) :: rest)
    (hfirst : symbol.name ∉ first.names) (hsecond : symbol.name ∉ second.names)
    (hlocals : symbol.locals = some inner) :
    ∃ u, t.detach? symbol.name = some (inner, u) ∧
      u.scopes = (first ++ { symbol with locals := none } :: second) :: rest := by
  refine ⟨t.update symbol.name ({ · with locals := none }), ?_,
    scopes_update_innermost h hfirst hsecond⟩
  have hlookup : t.lookup? symbol.name = some symbol := by
    rw [lookup?, lookupWithDepth?, h, findIn_innermost hfirst]
    rfl
  simp [detach?, hlookup, hlocals]

end Innermost

end SymbolTable

end PascalMips
