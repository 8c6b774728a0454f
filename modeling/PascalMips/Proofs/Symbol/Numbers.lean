import Mathlib.Data.List.Nodup
import Mathlib.Data.List.Perm.Basic
import PascalMips.Proofs.Symbol.Scopes

/-!
# Numbers tell symbols apart

In a distinct table all numbers differ: those of the symbols of the open scopes and of everything
declared inside them. A scope that is taken off a subprogram and opened brings its numbers from the
one place to the other, so opening scopes keeps a table distinct (`Distinct.open`).
-/

namespace PascalMips

/-! ## The numbers in a scope -/

mutual

/-- The numbers of a symbol and of all that is declared in it. -/
def Symbol.ids : Symbol → List Nat
  | ⟨id, _, _, locals⟩ => id :: idsIn locals

def Symbol.idsIn : Option (List Symbol) → List Nat
  | none => []
  | some scope => idsAll scope

def Symbol.idsAll : List Symbol → List Nat
  | [] => []
  | symbol :: rest => symbol.ids ++ idsAll rest

end

namespace Scope

/-- The numbers of the symbols of a scope and of all that is declared in them. -/
def ids (scope : Scope) : List Nat := Symbol.idsAll scope

theorem ids_nil : ids [] = [] := by
  rw [ids, Symbol.idsAll]

theorem ids_cons (symbol : Symbol) (rest : Scope) :
    ids (symbol :: rest) = symbol.ids ++ ids rest := by
  rw [ids, Symbol.idsAll]
  rfl

theorem ids_append (first second : Scope) : ids (first ++ second) = ids first ++ ids second := by
  induction first with
  | nil => rw [ids_nil]; rfl
  | cons symbol rest ih => rw [List.cons_append, ids_cons, ids_cons, ih, List.append_assoc]

end Scope

namespace Symbol

theorem ids_eq (symbol : Symbol) : symbol.ids = symbol.id :: idsIn symbol.locals := by
  rcases symbol with ⟨id, name, binding, locals⟩
  rw [ids]

theorem ids_of_none {symbol : Symbol} (h : symbol.locals = none) : symbol.ids = [symbol.id] := by
  rw [ids_eq, h, idsIn]

theorem ids_of_some {symbol : Symbol} {inner : Scope} (h : symbol.locals = some inner) :
    symbol.ids = symbol.id :: inner.ids := by
  rw [ids_eq, h, idsIn]
  rfl

end Symbol

theorem Scope.id_mem_ids {scope : Scope} {symbol : Symbol} (h : symbol ∈ scope) :
    symbol.id ∈ scope.ids := by
  obtain ⟨first, second, rfl⟩ := List.append_of_mem h
  rw [ids_append, ids_cons, symbol.ids_eq]
  simp

/-- The numbers of the symbols themselves are among all numbers of a scope. -/
theorem Scope.map_id_sublist (scope : Scope) : (scope.map Symbol.id).Sublist scope.ids := by
  induction scope with
  | nil => exact List.nil_sublist _
  | cons symbol rest ih =>
    rw [ids_cons, symbol.ids_eq, List.map_cons, List.cons_append]
    exact (ih.trans (List.sublist_append_right ..)).cons_cons _

/-- Two symbols of a scope with the same number are the same symbol. -/
theorem Scope.eq_of_id_eq {scope : Scope} (hids : scope.ids.Nodup) {a b : Symbol} (ha : a ∈ scope)
    (hb : b ∈ scope) (hid : a.id = b.id) : a = b := by
  induction scope with
  | nil => cases ha
  | cons symbol rest ih =>
    rw [ids_cons] at hids
    have hdisjoint := List.disjoint_of_nodup_append hids
    have hhead : symbol.id ∈ symbol.ids := by
      rw [symbol.ids_eq]
      exact List.mem_cons_self
    rcases List.mem_cons.1 ha with rfl | ha'
    · rcases List.mem_cons.1 hb with rfl | hb'
      · rfl
      · exact absurd (hid ▸ id_mem_ids hb') (hdisjoint hhead)
    · rcases List.mem_cons.1 hb with rfl | hb'
      · exact absurd (hid ▸ id_mem_ids ha') (hdisjoint hhead)
      · exact ih hids.of_append_right ha' hb'

/-! ## Distinct tables -/

namespace SymbolTable

/-- The numbers of the open scopes and of all that is declared in them. -/
def ids (t : SymbolTable) : List Nat := t.scopes.flatMap Scope.ids

/-- No number is used twice. -/
def Distinct (t : SymbolTable) : Prop := t.ids.Nodup

variable {t : SymbolTable}

theorem Distinct.scope (h : t.Distinct) {scope : Scope} (hscope : scope ∈ t.scopes) :
    scope.ids.Nodup := by
  unfold Distinct ids at h
  exact (List.nodup_flatMap.1 h).1 scope hscope

/-- A symbol of an open scope has another number than one of a scope around it. -/
theorem Distinct.ne_of_outer (h : t.Distinct) {within rest : List Scope} {inner : Scope}
    (hscopes : t.scopes = within ++ inner :: rest) {a b : Symbol} (ha : a ∈ inner) {scope : Scope}
    (hscope : scope ∈ rest) (hb : b ∈ scope) : a.id ≠ b.id := by
  unfold Distinct ids at h
  rw [hscopes, List.flatMap_append, List.flatMap_cons] at h
  intro hid
  refine List.disjoint_of_nodup_append h.of_append_right (Scope.id_mem_ids ha) ?_
  rw [hid]
  exact List.mem_flatMap.2 ⟨scope, hscope, Scope.id_mem_ids hb⟩

/-- Symbols of the open scopes with the same number are the same symbol. -/
theorem Distinct.eq_of_id_eq (h : t.Distinct) {scope scope' : Scope} {a b : Symbol}
    (hscope : scope ∈ t.scopes) (ha : a ∈ scope) (hscope' : scope' ∈ t.scopes) (hb : b ∈ scope')
    (hid : a.id = b.id) : a = b := by
  unfold Distinct ids at h
  generalize t.scopes = scopes at h hscope hscope'
  induction scopes with
  | nil => cases hscope
  | cons first rest ih =>
    rw [List.flatMap_cons] at h
    have hdisjoint := List.disjoint_of_nodup_append h
    rcases List.mem_cons.1 hscope with rfl | hrest
    · rcases List.mem_cons.1 hscope' with rfl | hrest'
      · exact Scope.eq_of_id_eq h.of_append_left ha hb hid
      · exact absurd (List.mem_flatMap.2 ⟨scope', hrest', hid ▸ Scope.id_mem_ids hb⟩)
          (hdisjoint (Scope.id_mem_ids ha))
    · rcases List.mem_cons.1 hscope' with rfl | hrest'
      · exact absurd (List.mem_flatMap.2 ⟨scope, hrest, hid ▸ Scope.id_mem_ids ha⟩)
          (hdisjoint (Scope.id_mem_ids hb))
      · exact ih h.of_append_right hrest hrest'

/-- Opening the scope of a subprogram of the innermost scope keeps numbers distinct. -/
theorem Distinct.open {u : SymbolTable} {first second inner : Scope} {symbol : Symbol}
    {rest : List Scope} (h : t.Distinct)
    (hscopes : t.scopes = (first ++ symbol :: second) :: rest)
    (hlocals : symbol.locals = some inner)
    (hu : u.scopes = inner :: (first ++ { symbol with locals := none } :: second) :: rest) :
    u.Distinct := by
  unfold Distinct ids at h ⊢
  rw [hscopes, List.flatMap_cons, Scope.ids_append, Scope.ids_cons,
    Symbol.ids_of_some hlocals] at h
  rw [hu, List.flatMap_cons, List.flatMap_cons, Scope.ids_append, Scope.ids_cons,
    Symbol.ids_of_none rfl]
  refine (List.Perm.nodup_iff ?_).1 h
  simp only [List.append_assoc, List.cons_append, List.nil_append]
  have hmove : ((first.ids ++ [symbol.id]) ++ inner.ids).Perm
      (inner.ids ++ (first.ids ++ [symbol.id])) := List.perm_append_comm
  simpa only [List.append_assoc, List.cons_append, List.nil_append] using
    hmove.append_right (second.ids ++ rest.flatMap Scope.ids)

end SymbolTable

end PascalMips
