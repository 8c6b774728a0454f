import PascalMips.Lower.Basic

/-!
# Lowering without diagnostics

What the primitive steps of lowering give, and what is known of them if their lines mark no
diagnostic: registers come from the pool, and names have places.
-/

namespace PascalMips

/-- The lines mark no diagnostic. -/
def Clean (lines : List Line) : Prop := diagnosticsOf lines = []

instance (lines : List Line) : Decidable (Clean lines) := inferInstanceAs (Decidable (_ = _))

@[simp] theorem clean_nil : Clean [] := rfl

@[simp] theorem clean_append {xs ys : List Line} : Clean (xs ++ ys) ↔ Clean xs ∧ Clean ys := by
  simp [Clean, diagnosticsOf]

@[simp] theorem clean_instr_cons {i : Instr} {xs : List Line} :
    Clean (.instr i :: xs) ↔ Clean xs := by
  simp [Clean, diagnosticsOf, List.filterMap_cons, Line.diagnostic?]

@[simp] theorem clean_label_cons {l : Label} {xs : List Line} :
    Clean (.label l :: xs) ↔ Clean xs := by
  simp [Clean, diagnosticsOf, List.filterMap_cons, Line.diagnostic?]

@[simp] theorem not_clean_mark_cons {d : Diagnostic} {xs : List Line} :
    ¬Clean (.mark d :: xs) := by
  simp [Clean, diagnosticsOf, Line.diagnostic?]

/-! ## Counters -/

namespace Counters

@[simp] theorem cursor_take (c : Counters) (n : Nat) : (c.take n).cursor = c.cursor + n := rfl

@[simp] theorem overdrawn_take (c : Counters) (n : Nat) : (c.take n).overdrawn = c.overdrawn := rfl

/-- The cursor stops at zero; that more was given back than taken is told by `overdrawn`. -/
@[simp] theorem cursor_release (c : Counters) (n : Nat) : (c.release n).cursor = c.cursor - n := rfl

@[simp] theorem take_zero (c : Counters) : c.take 0 = c := rfl

@[simp] theorem take_take (c : Counters) (m n : Nat) : (c.take m).take n = c.take (m + n) := by
  rw [take, take, take, Nat.add_assoc]

/-- Registers that were taken can be given back. -/
@[simp] theorem release_take (c : Counters) (n : Nat) : (c.take n).release n = c := by
  have hback : ¬c.cursor + n < n := by omega
  simp [take, release, hback]

/-- Counters are overdrawn when more registers are given back than were taken, and stay so. -/
theorem overdrawn_release {c : Counters} {n : Nat} :
    (c.release n).overdrawn = false ↔ c.overdrawn = false ∧ n ≤ c.cursor := by
  simp [release]

/-- Giving back no more than was taken is no overdraft. -/
theorem overdrawn_release_of_le {c : Counters} {n : Nat} (h : n ≤ c.cursor) :
    (c.release n).overdrawn = c.overdrawn := by
  simp [release, Nat.not_lt.2 h]

end Counters

namespace Lower

variable {ctx : Context} {c : Counters}

@[simp] theorem line_apply (l : Line) : line l ctx c = ⟨(), c, [l]⟩ := rfl

@[simp] theorem emit_apply (i : Instr) : emit i ctx c = ⟨(), c, [.instr i]⟩ := rfl

@[simp] theorem label_apply (l : Label) : label l ctx c = ⟨(), c, [.label l]⟩ := rfl

@[simp] theorem diagnose_apply (d : Diagnostic) : diagnose d ctx c = ⟨(), c, [.mark d]⟩ := rfl

@[simp] theorem cursor_apply : cursor ctx c = ⟨c.cursor, c, []⟩ := rfl

@[simp] theorem take_apply (count : Nat) : take count ctx c = ⟨(), c.take count, []⟩ := rfl

@[simp] theorem release_apply (count : Nat) : release count ctx c = ⟨(), c.release count, []⟩ := rfl

@[simp] theorem nextIf_apply : nextIf ctx c = ⟨c.ifs, { c with ifs := c.ifs + 1 }, []⟩ := rfl

@[simp] theorem nextLoop_apply : nextLoop ctx c = ⟨c.loops, { c with loops := c.loops + 1 }, []⟩ :=
  rfl

/-! ## Registers -/

theorem pool_fin : ∀ n : Fin 8, Reg.pool[n.val]? = some (.s n) := by decide

/-- Beyond the pool there is a mark, and the last register of the pool stands in. -/
theorem register_of_none {i : Nat} (h : Reg.pool[i]? = none) :
    register i ctx c = ⟨.s7, c, [.mark .outOfRegisters]⟩ := by
  simp [register, h, bind_apply, pure_apply]

theorem register_of_some {i : Nat} {r : Reg} (h : Reg.pool[i]? = some r) :
    register i ctx c = ⟨r, c, []⟩ := by
  simp [register, h, pure_apply]

@[simp] theorem counters_register (i : Nat) : (register i ctx c).counters = c := by
  cases h : Reg.pool[i]? with
  | none => rw [register_of_none h]
  | some r => rw [register_of_some h]

/-- Within the pool, the register asked for is given and nothing is marked. -/
theorem register_of_eq {i : Nat} {n : Fin 8} (h : i = n.val) :
    register i ctx c = ⟨.s n, c, []⟩ := by
  subst h
  exact register_of_some (pool_fin n)

/-- A register is missing exactly if its index is beyond the pool. -/
theorem mark_mem_register {i : Nat} {d : Diagnostic} :
    .mark d ∈ (register i ctx c).lines ↔ d = .outOfRegisters ∧ 8 ≤ i := by
  by_cases hi : i < 8
  · rw [register_of_eq (n := ⟨i, hi⟩) rfl]
    simp [hi]
  · have hnone : Reg.pool[i]? = none := List.getElem?_eq_none (Nat.le_of_not_lt hi)
    rw [register_of_none hnone]
    simp [Nat.le_of_not_lt hi]

/-- A register that was not marked as missing is one of the pool. -/
theorem fin_of_clean_register {i : Nat} (h : Clean (register i ctx c).lines) :
    ∃ n : Fin 8, i = n.val := by
  by_cases hi : i < 8
  · exact ⟨⟨i, hi⟩, rfl⟩
  · rw [register_of_none (List.getElem?_eq_none (Nat.le_of_not_lt hi))] at h
    exact absurd h not_clean_mark_cons

/-! ## Places -/

end Lower

/-- The place of a visible name and the index range of an array, if it has a place. -/
def Context.place? (ctx : Context) (name : String) : Option (Storage × Option Bounds) :=
  (ctx.symbols.lookup? name).bind fun symbol =>
    (ctx.storage.get? symbol.id).map fun storage => (storage, symbol.binding.bounds?)

/-- The index range of a place is that of the visible symbol. -/
theorem Context.bounds_of_place {ctx : Context} {name : String} {symbol : Symbol}
    {place : Storage × Option Bounds} (hs : ctx.symbols.lookup? name = some symbol)
    (h : ctx.place? name = some place) : place.2 = symbol.binding.bounds? := by
  simp only [place?, hs, Option.bind_some, Option.map_eq_some_iff] at h
  obtain ⟨_, _, rfl⟩ := h
  rfl

namespace Lower

variable {ctx : Context} {c : Counters}

@[simp] theorem counters_locate (name : String) : (locate name ctx c).counters = c := by
  simp only [locate, bind_apply, find?]
  cases ctx.symbols.lookup? name with
  | none => rfl
  | some symbol => cases h : ctx.storage.get? symbol.id <;> simp [h] <;> rfl

/-- A name with a place is located without a mark. -/
theorem locate_of_place {name : String} {place : Storage × Option Bounds}
    (h : ctx.place? name = some place) : locate name ctx c = ⟨some place, c, []⟩ := by
  simp only [Context.place?, Option.bind_eq_some_iff, Option.map_eq_some_iff] at h
  obtain ⟨symbol, hsymbol, storage, hstorage, rfl⟩ := h
  simp [locate, bind_apply, find?, hsymbol, hstorage, pure_apply]

/-- What is located is the place of the context, whether the code is marked or not. -/
theorem value_locate (name : String) : (locate name ctx c).value = ctx.place? name := by
  cases h : ctx.place? name with
  | some place => rw [locate_of_place h]
  | none =>
    simp only [Context.place?, locate, bind_apply, find?] at h ⊢
    cases hs : ctx.symbols.lookup? name with
    | none => rfl
    | some symbol =>
      rw [hs, Option.bind_some, Option.map_eq_none_iff] at h
      simp only [Option.map_some, h]
      rfl

/-- A visible name without a place is marked. -/
theorem locate_of_unplaced {name : String} {symbol : Symbol}
    (hs : ctx.symbols.lookup? name = some symbol) (h : ctx.storage.get? symbol.id = none) :
    locate name ctx c = ⟨none, c, [.mark (unreachable symbol)]⟩ := by
  simp [locate, bind_apply, find?, hs, h, pure_apply]

/-- A name that was not marked as missing has a place. -/
theorem place_of_clean_locate {name : String} (h : Clean (locate name ctx c).lines) :
    ∃ place, ctx.place? name = some place := by
  simp only [locate, bind_apply, find?] at h
  unfold Context.place?
  cases hs : ctx.symbols.lookup? name with
  | none => simp [hs, bind_apply] at h
  | some symbol =>
    cases hp : ctx.storage.get? symbol.id with
    | none => simp [hs, hp, bind_apply] at h
    | some storage => exact ⟨(storage, symbol.binding.bounds?), by simp [hp]⟩

end Lower

end PascalMips
