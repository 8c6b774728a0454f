import Mathlib.Data.List.Nodup
import PascalMips.Proofs.Expr.Lowering
import PascalMips.Proofs.Lower.Cursor
import PascalMips.Proofs.Lower.Frame
import PascalMips.Proofs.Program.Writing

/-!
# Addresses of array elements

The code for the address of an element evaluates the index (`Lower.indexRegister`), subtracts the
lower bound, scales the difference and adds the place of the array (`Lower.addElement`). For every
index within the bounds this gives the address of a word of the array, without a trap, if the words
of the array are words of user space: the bounds may be any 32-bit integers, and the stack pointer
any word. Data and frames reserve as many words as the array has elements
(`Generator.reserves_emitData`, `Frame.holds_array`).
-/

namespace PascalMips

/-! ## The address of an element -/

namespace Lower

/-- Evaluates the index of an element above the cursor, as an integer, and gives its register. -/
def indexRegister (type : ValueType) (index : Lower Unit) : Lower Reg := do
  take 1
  index
  let reg ← register (← cursor)
  release 1
  convert reg type .integer
  return reg

/-- The address of an element of an array from the register of its index. -/
def addElement (index : Reg) (lo : Int) (storage : Storage) : Lower Unit := do
  elementOffset index lo
  emit (.sll .t9 .t9 2)
  addPlace storage

/-- For an array with a place, the address is computed from the register of the index. -/
theorem elementAddress_eq (name : String) (type : ValueType) (index : Lower Unit) {ctx : Context}
    {storage : Storage} {bounds? : Option Bounds} (h : ctx.place? name = some (storage, bounds?))
    (c : Counters) :
    elementAddress name type index ctx c =
      let found := indexRegister type index ctx c
      ⟨true, found.counters, found.lines ++ (addElement found.value
        ((bounds?.map Bounds.lo).getD 0) storage ctx found.counters).lines⟩ := by
  simp [elementAddress, indexRegister, addElement, bind_apply, pure_apply, locate_of_place h,
    counters_elementOffset, counters_addPlace]

theorem exists_value_register (i : Nat) (ctx : Context) (c : Counters) :
    ∃ n : Fin 8, (register i ctx c).value = .s n := by
  cases h : Reg.pool[i]? with
  | none => exact ⟨7, by rw [register_of_none h]⟩
  | some r =>
    rw [register_of_some h]
    have hmem : ∀ r ∈ Reg.pool, ∃ n : Fin 8, r = .s n := by decide
    exact hmem r (List.mem_of_getElem? h)

end Lower

/-- The address of a place below 2^31 is the sum of its parts, without a wrap. -/
theorem Storage.base_eq_effective {p : Image} {m : Machine} {s : Storage}
    (hoff : 0 ≤ s.offset ∧ s.offset < 2147483648)
    (h : (m.effective p s.address).toNat < 2147483648) :
    s.base p m = (m.effective p s.address).toNat := by
  have horigin : Literal.InRange (s.origin p m) := by
    cases s with
    | global label => exact inRange_toInt _
    | stack offset => exact inRange_toInt _
  obtain ⟨hlo, hhi⟩ := horigin
  have hbase : s.base p m = s.origin p m + s.offset := rfl
  rw [effective_address, BitVec.toNat_ofInt] at h ⊢
  omega

namespace Lower

variable {p : Image} {m : Machine}

/-- From an index within the bounds the code computes the address of its word, and changes no other
register than the two for addresses. -/
theorem executes_addElement {r : Reg} {storage : Storage} {bounds : Bounds} (ctx : Context)
    (c : Counters) (hr : ∃ n : Fin 8, r = .s n) (hlo : Literal.InRange bounds.lo)
    (hoff : 0 ≤ storage.offset ∧ storage.offset < 2147483648)
    (hblock : (m.effective p storage.address).toNat + 4 * bounds.size ≤ 2147483648)
    (hle : bounds.lo ≤ (m.read r).toInt) (hge : (m.read r).toInt ≤ bounds.hi) :
    ∃ m', p.Executes (addElement r bounds.lo storage ctx c).lines m m' ∧
      ((m'.read .t9).toNat : Int) =
        (m.effective p storage.address).toNat + 4 * ((m.read r).toInt - bounds.lo) ∧
      m.Keeps 8 m' := by
  obtain ⟨n, rfl⟩ := hr
  have hsize : (bounds.size : Int) = bounds.hi - bounds.lo + 1 := by
    unfold Bounds.size
    omega
  have hbase := Storage.base_eq_effective hoff (p := p) (m := m) (by omega)
  obtain ⟨m₁, hrun₁, hread₁, hkeep₁⟩ := executes_elementOffset (p := p) ctx c rfl (by simp)
    (by simp) hlo hle (by omega)
  -- Scaled, the difference is an offset inside the block.
  obtain ⟨d, hd⟩ : ∃ d, d = 4 * ((m.read (.s n)).toInt - bounds.lo) := ⟨_, rfl⟩
  have hread₂ : (m₁.write .t9 (BitVec.ofInt 32 d)).read .t9 = BitVec.ofInt 32 d := read_write_t9 ..
  have hkeep₂ : m.Keeps 8 (m₁.write .t9 (BitVec.ofInt 32 d)) := hkeep₁.trans (keeps_t9 8 _ _)
  have hbase₂ := storage.base_congr (p := p) hkeep₂.sp
  obtain ⟨m₃, hrun₃, hread₃, hkeep₃⟩ := executes_addPlace_of_base (p := p) ctx c hoff
    (by omega) hread₂ (by omega) (by omega)
  refine ⟨m₃, ?_, ?_, hkeep₂.trans hkeep₃⟩
  · simp only [addElement, bind_apply, emit_apply, counters_elementOffset, List.singleton_append]
    refine hrun₁.append (Image.Executes.cons (fun _ => ?_) hrun₃)
    simp only [Instr.exec, hread₁, shiftLeft_two, hd]
  · rw [hread₃, hbase₂, hbase, BitVec.toNat_ofInt]
    omega

end Lower

/-! ## Words of data -/

namespace Generator

/-- The data has `words` words under the label, and the symbol is placed there. -/
structure Reserves (g : Generator) (id : Nat) (label : Label) (words : Nat) : Prop where
  line : .words label words ∈ g.lines
  place : g.context.storage.get? id = some (.global label)

theorem reserves_emitVariable {g : Generator} {v : Variable} {symbol : Symbol} {bounds : Bounds}
    (h : g.symbols.global.lookup? v.name = some symbol)
    (hbounds : symbol.binding.bounds? = some bounds) :
    (g.emitVariable v).Reserves symbol.id (.ofVariable v.name) bounds.size := by
  simp only [emitVariable, h, hbounds]
  refine ⟨List.mem_append_right _ (List.mem_singleton_self _), ?_⟩
  exact (StorageMap.get?_assign ..).trans (if_pos rfl)

/-- A variable declared later has another symbol, or the same name. -/
theorem Reserves.emitVariable {g : Generator} {name : String} {symbol : Symbol} {words : Nat}
    (hids : (g.symbols.global.map Symbol.id).Nodup)
    (hname : g.symbols.global.lookup? name = some symbol)
    (h : g.Reserves symbol.id (.ofVariable name) words) (v : Variable) :
    (g.emitVariable v).Reserves symbol.id (.ofVariable name) words := by
  unfold Generator.emitVariable
  cases hv : g.symbols.global.lookup? v.name with
  | none => exact ⟨List.mem_append_left _ h.line, h.place⟩
  | some other =>
    refine ⟨List.mem_append_left _ h.line, ?_⟩
    show (g.context.storage.assign other.id _).get? symbol.id = _
    rw [StorageMap.get?_assign]
    by_cases hid : symbol.id = other.id
    · have heq : symbol = other := List.inj_on_of_nodup_map hids (Scope.mem_of_lookup? hname)
        (Scope.mem_of_lookup? hv) hid
      have hsame : v.name = name :=
        (Scope.name_of_lookup? hv).symm.trans (heq ▸ Scope.name_of_lookup? hname)
      rw [if_pos hid, hsame]
    · rw [if_neg hid]
      exact h.place

/-- Data that is written later leaves what was reserved. -/
theorem Reserves.emitData {g : Generator} {name : String} {symbol : Symbol} {words : Nat}
    (hids : (g.symbols.global.map Symbol.id).Nodup)
    (hname : g.symbols.global.lookup? name = some symbol)
    (h : g.Reserves symbol.id (.ofVariable name) words) (vars : List Variable) :
    (g.emitData vars).Reserves symbol.id (.ofVariable name) words := by
  induction vars generalizing g with
  | nil => exact h
  | cons v vars ih =>
    have hsymbols : (g.emitVariable v).symbols = g.symbols := (resumes_emitData [v] g).symbols
    refine ih (g := g.emitVariable v) ?_ ?_ (h.emitVariable hids hname v)
    · rw [hsymbols]
      exact hids
    · rw [hsymbols]
      exact hname

/-- Each global array gets as many words of data as it has elements. -/
theorem reserves_emitData {g : Generator} {vars : List Variable} {v : Variable} {symbol : Symbol}
    {bounds : Bounds} (hids : (g.symbols.global.map Symbol.id).Nodup) (hv : v ∈ vars)
    (h : g.symbols.global.lookup? v.name = some symbol)
    (hbounds : symbol.binding.bounds? = some bounds) :
    (g.emitData vars).Reserves symbol.id (.ofVariable v.name) bounds.size := by
  obtain ⟨before, after, rfl⟩ := List.append_of_mem hv
  have hsymbols : (g.emitData before).symbols = g.symbols := (resumes_emitData before g).symbols
  have hsymbols' : ((g.emitData before).emitVariable v).symbols = g.symbols :=
    (resumes_emitData [v] (g.emitData before)).symbols.trans hsymbols
  have hdata : g.emitData (before ++ v :: after) =
      ((g.emitData before).emitVariable v).emitData after := List.foldl_append
  rw [hdata]
  refine Reserves.emitData ?_ ?_ (reserves_emitVariable (hsymbols ▸ h) hbounds) after
  · rw [hsymbols']
    exact hids
  · rw [hsymbols']
    exact h

end Generator

/-! ## Words of a frame -/

namespace Frame

variable {scope : Scope} {f f' : Frame} {blocks : List (Nat × Nat)}

theorem of_bind_eq_ok {x : Except Frame Frame} {k : Frame → Except Frame Frame}
    (h : (x >>= k) = .ok f') : ∃ f, x = .ok f ∧ k f = .ok f' := by
  cases x with
  | error e => cases h
  | ok f => exact ⟨f, rfl, h⟩

theorem holds_of_reserve {id n : Nat} (hf : f.Holds blocks) (h : f.reserve id n = .ok f') :
    f'.Holds (blocks ++ [(id, n)]) := by
  have hlays := lays_reserve hf id n
  rw [h] at hlays
  exact hlays.1

/-- Laying out parameters adds blocks behind those that are there. -/
theorem holds_of_addParams {vs : List Variable} (hf : f.Holds blocks)
    (h : addParams scope vs f = .ok f') : ∃ more, f'.Holds (blocks ++ more) := by
  induction vs generalizing f blocks with
  | nil =>
    cases h
    exact ⟨[], by rwa [List.append_nil]⟩
  | cons v vs ih =>
    rw [addParams] at h
    cases hv : scope.lookup? v.name with
    | none =>
      rw [hv] at h
      exact ih hf h
    | some symbol =>
      rw [hv] at h
      obtain ⟨f₁, hreserve, h⟩ := of_bind_eq_ok h
      have hf₁ := holds_of_reserve hf hreserve
      obtain ⟨more, hmore⟩ := ih (f := { f₁ with params := f₁.params ++ [f.size] })
        ⟨hf₁.slots, hf₁.words, hf₁.fits⟩ h
      exact ⟨[(symbol.id, 1)] ++ more, by rwa [← List.append_assoc]⟩

/-- Each variable that the scope declares gets its words, one block after the other. -/
theorem holds_of_addVariables {vs : List Variable} (hf : f.Holds blocks)
    (h : addVariables scope vs f = .ok f') :
    f'.Holds (blocks ++ (vs.filterMap fun v => scope.lookup? v.name).map blockOf) := by
  induction vs generalizing f blocks with
  | nil =>
    cases h
    rwa [List.filterMap_nil, List.map_nil, List.append_nil]
  | cons v vs ih =>
    rw [addVariables] at h
    rw [List.filterMap_cons]
    cases hv : scope.lookup? v.name with
    | none =>
      rw [hv] at h
      exact ih hf h
    | some symbol =>
      rw [hv] at h
      obtain ⟨f₁, hreserve, h⟩ := of_bind_eq_ok h
      have hf₁ : f₁.Holds (blocks ++ [blockOf symbol]) := holds_of_reserve hf hreserve
      show f'.Holds (blocks ++ blockOf symbol :: _)
      rw [List.append_cons]
      exact ih hf₁ h

theorem holds_of_addResult {kind : RoutineKind} {id : Nat} (hf : f.Holds blocks)
    (h : addResult kind id f = .ok f') : ∃ more, f'.Holds (blocks ++ more) := by
  cases kind with
  | procedure =>
    cases h
    exact ⟨[], by rwa [List.append_nil]⟩
  | function =>
    obtain ⟨f₁, hreserve, h⟩ := of_bind_eq_ok h
    have hf₁ := holds_of_reserve hf hreserve
    cases h
    exact ⟨_, hf₁.slots, hf₁.words, hf₁.fits⟩

/-- Each local array gets as many words of the frame as it has elements, after the blocks before it
and before those that follow. -/
theorem holds_array {kind : RoutineKind} {id : Nat} {args vars : List Variable} {v : Variable}
    {symbol : Symbol} {bounds : Bounds} (h : layout scope kind id args vars = .ok f)
    (hv : v ∈ vars) (hfind : scope.lookup? v.name = some symbol)
    (hbounds : symbol.binding.bounds? = some bounds) :
    ∃ before after, f.Holds (before ++ (symbol.id, bounds.size) :: after) := by
  obtain ⟨f₁, hargs, h⟩ := of_bind_eq_ok h
  obtain ⟨f₂, hvars, h⟩ := of_bind_eq_ok h
  obtain ⟨params, hf₁⟩ := holds_of_addParams holds_empty hargs
  obtain ⟨result, hf⟩ := holds_of_addResult (holds_of_addVariables hf₁ hvars) h
  have hwords : blockOf symbol = (symbol.id, bounds.size) := by
    rw [blockOf, Symbol.words, hbounds]
    rfl
  have hblock : (symbol.id, bounds.size) ∈
      (vars.filterMap fun v => scope.lookup? v.name).map blockOf :=
    hwords ▸ List.mem_map_of_mem (List.mem_filterMap.2 ⟨v, hv, hfind⟩)
  obtain ⟨before, after, hsplit⟩ := List.append_of_mem hblock
  rw [hsplit] at hf
  exact ⟨[] ++ params ++ before, after ++ result, by simpa using hf⟩

/-- Blocks are placed where the blocks before them end. -/
theorem Holds.mem_slots {before after : List (Nat × Nat)} {id words : Nat}
    (h : f.Holds (before ++ (id, words) :: after)) : (id, wordSize * total before) ∈ f.slots := by
  rw [h.slots, place_append, Nat.zero_add]
  exact List.mem_append_right _ List.mem_cons_self

/-- A block ends within the frame. -/
theorem Holds.end_le_size {before after : List (Nat × Nat)} {id words : Nat}
    (h : f.Holds (before ++ (id, words) :: after)) :
    wordSize * (total before + words) ≤ f.size := by
  rw [size, h.words]
  simp only [total, List.map_append, List.map_cons, List.sum_append, List.sum_cons]
  exact Nat.mul_le_mul_left _ (by omega)

end Frame

namespace Lower

/-- Array elements are addressed exactly. After the index the code computes, without a trap, the
address of the word of the array that belongs to the index, wherever in user space the array lies;
no register of the pool is changed. The word is one of the array and shared with no other index.
Data and frames reserve a word for each element, in a place that satisfies the assumption on
offsets. -/
theorem elementAddress_exact {ctx : Context} {name : String} {storage : Storage} {bounds : Bounds}
    (hplace : ctx.place? name = some (storage, some bounds)) (hlo : Literal.InRange bounds.lo)
    (hoff : 0 ≤ storage.offset ∧ storage.offset < 2147483648) (type : ValueType)
    (index : Lower Unit) (c : Counters) :
    (∃ code, elementAddress name type index ctx c =
        ⟨true, (indexRegister type index ctx c).counters,
          (indexRegister type index ctx c).lines ++ code⟩ ∧
      ∀ (p : Image) (m : Machine) (base : Nat) (i : Int),
        base = (m.effective p storage.address).toNat → base + 4 * bounds.size ≤ 2147483648 →
        i = (m.read (indexRegister type index ctx c).value).toInt → bounds.lo ≤ i → i ≤ bounds.hi →
        ∃ m' a, p.Executes code m m' ∧ (m'.read .t9).toNat = a ∧
          (a : Int) = base + 4 * (i - bounds.lo) ∧ (∀ r ∈ Reg.pool, m'.read r = m.read r) ∧
          m'.memory = m.memory ∧ base ≤ a ∧ a + 4 ≤ base + 4 * bounds.size ∧
          ∀ j : Int, bounds.lo ≤ j → j ≤ bounds.hi → j ≠ i →
            a + 4 ≤ base + 4 * (j - bounds.lo) ∨ base + 4 * (j - bounds.lo) + 4 ≤ a) ∧
    (∀ (g : Generator) (vars : List Variable) (v : Variable) (symbol : Symbol),
      (g.symbols.global.map Symbol.id).Nodup → v ∈ vars →
      g.symbols.global.lookup? v.name = some symbol → symbol.binding.bounds? = some bounds →
      (g.emitData vars).Reserves symbol.id (.ofVariable v.name) bounds.size) ∧
    ∀ (scope : Scope) (kind : RoutineKind) (id : Nat) (args vars : List Variable) (f : Frame)
      (v : Variable) (symbol : Symbol), Frame.layout scope kind id args vars = .ok f → v ∈ vars →
      scope.lookup? v.name = some symbol → symbol.binding.bounds? = some bounds →
      ∃ before after, f.Holds (before ++ (symbol.id, bounds.size) :: after) ∧
        wordSize * (Frame.total before + bounds.size) ≤ f.size ∧ f.size < 2147483648 ∧
        (f.ids.Nodup → ∀ others : StorageMap, (f.assign others).get? symbol.id =
          some (.stack (wordSize * Frame.total before : Nat))) := by
  refine ⟨⟨_, elementAddress_eq name type index hplace c, ?_⟩, ?_, ?_⟩
  · rintro p m _ _ rfl hblock rfl hle hge
    have hregister : ∃ n : Fin 8, (indexRegister type index ctx c).value = .s n := by
      simp only [indexRegister, bind_apply, pure_apply]
      exact exists_value_register ..
    obtain ⟨m', hrun, hread, hkeep⟩ := executes_addElement ctx
      (indexRegister type index ctx c).counters hregister hlo hoff hblock hle hge
    have hsize : (bounds.size : Int) = bounds.hi - bounds.lo + 1 := by
      unfold Bounds.size
      omega
    have hpool : ∀ r ∈ Reg.pool, r.isScratch 8 = false := by decide
    exact ⟨m', _, hrun, rfl, hread, fun r hr => hkeep.read r (hpool r hr), hkeep.memory,
      by omega, by omega, fun j _ _ _ => by omega⟩
  · intro g vars v symbol hids hv hfind hbounds
    exact Generator.reserves_emitData hids hv hfind hbounds
  · intro scope kind id args vars f v symbol hlayout hv hfind hbounds
    obtain ⟨before, after, hf⟩ := Frame.holds_array hlayout hv hfind hbounds
    exact ⟨before, after, hf, hf.end_le_size, hf.fits,
      fun hids _ => Frame.get?_assign_of_mem hids hf.mem_slots⟩

/-- An array in the frame that starts at the least integer, and an index. -/
def leastContext : Context where
  symbols := ⟨[], [⟨0, "a", .array .integer ⟨-2147483648, -2147483646⟩, none⟩,
    ⟨1, "i", .scalar .integer, none⟩], 2⟩
  storage := ⟨[(0, .stack 8), (1, .global (.ofVariable "i"))]⟩
  path := []

/-- The register that the index is computed in. -/
def indexOfLeast : Reg := .s ⟨1, by decide⟩

/-- The stack pointer is four below address zero, and the index is the second. -/
def leastMachine : Machine :=
  (Expr.sampleMachine.write .sp 0xfffffffc).write indexOfLeast (BitVec.ofInt 32 (-2147483647))

def leastCode : List Line :=
  [.instr (.li .t9 (-2147483648)), .instr (.alu .sub .t9 indexOfLeast .t9), .instr (.sll .t9 .t9 2),
    .instr (.alu .add .t9 .t9 .sp), .instr (.addi .t9 .t9 8)]

theorem elementAddress_leastCode :
    elementAddress "a" .integer (variableValue "i") leastContext .start =
      ⟨true, .start, .instr (.lw indexOfLeast (.label (.ofVariable "i"))) :: leastCode⟩ ∧
    ∃ m', (Expr.sampleImage leastCode (by decide)).Executes leastCode leastMachine m' ∧
      (m'.read .t9).toNat = 8 ∧ ∀ r ∈ Reg.pool, m'.read r = leastMachine.read r := by
  have hplace : leastContext.place? "a" = some (.stack 8, some ⟨-2147483648, -2147483646⟩) := by
    decide
  have hlower : elementAddress "a" .integer (variableValue "i") leastContext .start =
      ⟨true, .start, .instr (.lw indexOfLeast (.label (.ofVariable "i"))) :: leastCode⟩ := rfl
  obtain ⟨⟨code, hcode, hrun⟩, -⟩ := elementAddress_exact hplace (by decide) (by decide) .integer
    (variableValue "i") .start
  obtain rfl : leastCode = code :=
    (List.cons.inj (congrArg Lowered.lines (hlower.symm.trans hcode))).2
  obtain ⟨m', a, hexec, ha, haddress, hpool, -⟩ := hrun (Expr.sampleImage leastCode (by decide))
    leastMachine 4 (-2147483647) (by decide) (by decide) (by decide) (by decide) (by decide)
  replace haddress : (a : Int) = 8 := haddress
  exact ⟨hlower, m', hexec, by omega, hpool⟩

end Lower

end PascalMips
