import Mathlib.Algebra.GroupWithZero.Nat
import Mathlib.Data.List.Forall2
import Mathlib.Data.List.Nodup
import PascalMips.Lower.Frame
import PascalMips.Proofs.Symbol.Scopes

/-!
# Layouts of frames

A frame is laid out block by block, each one where the blocks before it end (`Frame.Holds`). So
blocks are aligned, one lies below the next, and all of them lie in the frame; where the layout
stops because the frame would grow too large, this is true of the blocks it came to.

A frame's places are added to the storage while its subprogram is written and taken away afterwards,
which restores the storage if the symbols had no places in it (`Frame.release_assign`).
-/

namespace PascalMips

/-! ## Storage -/

namespace StorageMap

/-- A symbol has no place exactly if no entry is its own. -/
theorem get?_eq_none_iff {m : StorageMap} {id : Nat} :
    m.get? id = none ↔ ∀ entry ∈ m.entries, entry.1 ≠ id := by
  unfold get?
  rw [List.lookup_eq_none_iff]
  constructor
  · intro h entry hentry heq
    exact absurd (h entry hentry) (by simp [heq])
  · intro h entry hentry
    simpa using (h entry hentry).symm

/-- Taking a place away affects one symbol. -/
theorem get?_release (m : StorageMap) (id other : Nat) :
    (m.release id).get? other = if other = id then none else m.get? other := by
  rcases m with ⟨entries⟩
  unfold get? release
  induction entries with
  | nil => simp
  | cons entry rest ih =>
    rcases entry with ⟨key, place⟩
    by_cases hkey : key = id
    · subst hkey
      rw [List.filter_cons_of_neg (by simp), ih]
      by_cases hother : other = key
      · simp [hother]
      · rw [if_neg hother, if_neg hother, List.lookup_cons, beq_eq_false_iff_ne.2 hother]
    · rw [List.filter_cons_of_pos (by simpa using hkey), List.lookup_cons, List.lookup_cons, ih]
      by_cases hother : other = key
      · subst hother
        simp [hkey]
      · rw [beq_eq_false_iff_ne.2 hother]

/-- Giving a place affects one symbol. -/
theorem get?_assign (m : StorageMap) (id other : Nat) (place : Storage) :
    (m.assign id place).get? other = if other = id then some place else m.get? other := by
  by_cases h : other = id
  · subst h
    simp [assign, get?]
  · have hrelease := get?_release m id other
    rw [if_neg h] at hrelease
    rw [if_neg h, ← hrelease]
    unfold assign get?
    rw [List.lookup_cons, beq_eq_false_iff_ne.2 h]

end StorageMap

namespace Frame

/-! ## Places while a frame is in use -/

/-- The numbers of the symbols that have a place in the frame. -/
def ids (f : Frame) : List Nat := f.slots.map Prod.fst

/-- Releasing a frame takes away the entries of its symbols and no others. -/
theorem release_entries (f : Frame) (m : StorageMap) :
    (f.release m).entries = m.entries.filter (·.1 ∉ f.ids) := by
  unfold release ids
  generalize f.slots = slots
  induction slots generalizing m with
  | nil => simp
  | cons slot rest ih =>
    rw [List.foldl_cons, ih]
    unfold StorageMap.release
    rw [List.filter_filter]
    refine List.filter_congr fun entry _ => Bool.eq_iff_iff.2 ?_
    simp only [Bool.and_eq_true, decide_eq_true_eq, List.map_cons, List.mem_cons, not_or]
    exact and_comm

/-- Apart from its own symbols, assigning a frame leaves the storage as it is. -/
theorem filter_assign {f : Frame} {S : List Nat} (hS : ∀ id ∈ f.ids, id ∈ S) (m : StorageMap) :
    (f.assign m).entries.filter (·.1 ∉ S) = m.entries.filter (·.1 ∉ S) := by
  unfold assign ids at *
  generalize f.slots = slots at *
  induction slots generalizing m with
  | nil => rfl
  | cons slot rest ih =>
    obtain ⟨hslot, hrest⟩ := List.forall_mem_cons.1 hS
    rw [List.foldl_cons, ih _ hrest]
    unfold StorageMap.assign StorageMap.release
    rw [List.filter_cons_of_neg (by simpa using hslot), List.filter_filter]
    refine List.filter_congr fun entry _ => ?_
    by_cases hentry : entry.1 = slot.1
    · simp [hentry, hslot]
    · simp [hentry]

/-- Taking the places of a frame away again restores the storage. -/
theorem release_assign {f : Frame} {m : StorageMap} (h : ∀ id ∈ f.ids, m.get? id = none) :
    f.release (f.assign m) = m := by
  have hentries : (f.release (f.assign m)).entries = m.entries := by
    rw [release_entries, filter_assign fun _ hid => hid, List.filter_eq_self]
    intro entry hentry
    simp only [decide_eq_true_eq]
    exact fun hmem => StorageMap.get?_eq_none_iff.1 (h _ hmem) entry hentry rfl
  rcases m with ⟨entries⟩
  exact congrArg StorageMap.mk hentries

/-- A place is one of the frame or was there before. -/
theorem of_get?_assign {f : Frame} {m : StorageMap} {id : Nat} {place : Storage}
    (h : (f.assign m).get? id = some place) :
    (∃ offset : Nat, (id, offset) ∈ f.slots ∧ place = .stack offset) ∨
      id ∉ f.ids ∧ m.get? id = some place := by
  unfold assign ids at *
  generalize f.slots = slots at *
  induction slots generalizing m with
  | nil => exact .inr ⟨nofun, h⟩
  | cons slot rest ih =>
    rcases ih h with ⟨offset, hmem, rfl⟩ | ⟨hnot, hget⟩
    · exact .inl ⟨offset, List.mem_cons_of_mem _ hmem, rfl⟩
    · rw [StorageMap.get?_assign] at hget
      by_cases heq : id = slot.1
      · rw [if_pos heq] at hget
        exact .inl ⟨slot.2, heq ▸ List.mem_cons_self, (Option.some.inj hget).symm⟩
      · rw [if_neg heq] at hget
        exact .inr ⟨by simp [heq, hnot], hget⟩

/-- A symbol that is not of the frame keeps its place. -/
theorem get?_assign_of_notMem {f : Frame} {m : StorageMap} {id : Nat} (h : id ∉ f.ids) :
    (f.assign m).get? id = m.get? id := by
  unfold assign ids at *
  generalize f.slots = slots at *
  induction slots generalizing m with
  | nil => rfl
  | cons slot rest ih =>
    rw [List.map_cons, List.mem_cons, not_or] at h
    rw [List.foldl_cons, ih h.2, StorageMap.get?_assign, if_neg h.1]

/-- Each symbol of a frame has its own place. -/
theorem get?_assign_of_mem {f : Frame} {m : StorageMap} {id offset : Nat} (hnodup : f.ids.Nodup)
    (h : (id, offset) ∈ f.slots) : (f.assign m).get? id = some (.stack offset) := by
  unfold assign ids at *
  generalize f.slots = slots at *
  induction slots generalizing m with
  | nil => cases h
  | cons slot rest ih =>
    obtain ⟨hslot, hrest⟩ := List.nodup_cons.1 hnodup
    rcases List.mem_cons.1 h with rfl | hmem
    · have := get?_assign_of_notMem (f := ⟨0, [], none, rest⟩)
        (m := m.assign id (.stack offset)) hslot
      rw [StorageMap.get?_assign, if_pos rfl] at this
      exact this
    · exact ih hrest hmem

/-! ## Blocks -/

/-- The slots of blocks, given as symbols and numbers of words, that follow one another from the
word `start` on. -/
def place (start : Nat) : List (Nat × Nat) → List (Nat × Nat)
  | [] => []
  | (id, words) :: rest => (id, wordSize * start) :: place (start + words) rest

/-- The words of blocks. -/
def total (blocks : List (Nat × Nat)) : Nat := (blocks.map Prod.snd).sum

/-- Blocks that follow others start where those end. -/
theorem place_append (start : Nat) (first second : List (Nat × Nat)) :
    place start (first ++ second) = place start first ++ place (start + total first) second := by
  induction first generalizing start with
  | nil => rfl
  | cons block rest ih =>
    rcases block with ⟨id, words⟩
    simp only [List.cons_append, place, ih, total, List.map_cons, List.sum_cons, Nat.add_assoc]

theorem map_fst_place (start : Nat) (blocks : List (Nat × Nat)) :
    (place start blocks).map Prod.fst = blocks.map Prod.fst := by
  induction blocks generalizing start with
  | nil => rfl
  | cons block rest ih => exact congrArg (block.1 :: ·) (ih _)

theorem length_place (start : Nat) (blocks : List (Nat × Nat)) :
    (place start blocks).length = blocks.length := by
  rw [← List.length_map Prod.fst, map_fst_place, List.length_map]

/-- Where the blocks of a list lie, the lowest first. -/
structure Laid (words : Nat → Nat) (low high : Nat) (slots : List (Nat × Nat)) : Prop where
  aligned : ∀ slot ∈ slots, wordSize ∣ slot.2
  bounds : ∀ slot ∈ slots, low ≤ slot.2 ∧ slot.2 + wordSize * words slot.1 ≤ high
  ordered : slots.Pairwise fun a b => a.2 + wordSize * words a.1 ≤ b.2

/-- Blocks placed one after the other are aligned and ordered, and end where their words are used
up. By induction over the blocks, with the start left open. -/
theorem laid_place {words : Nat → Nat} (start : Nat) {blocks : List (Nat × Nat)}
    (h : ∀ block ∈ blocks, block.2 = words block.1) :
    Laid words (wordSize * start) (wordSize * (start + total blocks)) (place start blocks) := by
  induction blocks generalizing start with
  | nil => exact ⟨nofun, nofun, .nil⟩
  | cons block rest ih =>
    obtain ⟨hblock, hrest⟩ := List.forall_mem_cons.1 h
    rcases block with ⟨id, n⟩
    obtain ⟨haligned, hbounds, hordered⟩ := ih (start + n) hrest
    have htotal : total ((id, n) :: rest) = n + total rest := by
      simp [total]
    rw [htotal]
    have hn : n = words id := hblock
    refine ⟨?_, ?_, ?_⟩
    · exact List.forall_mem_cons.2 ⟨Nat.dvd_mul_right .., haligned⟩
    · refine List.forall_mem_cons.2 ⟨?_, fun slot hslot => ?_⟩
      · dsimp only
        rw [← hn]
        unfold wordSize
        omega
      · have := hbounds slot hslot
        unfold wordSize at *
        omega
    · refine List.pairwise_cons.2 ⟨fun slot hslot => ?_, hordered⟩
      have := hbounds slot hslot
      dsimp only
      rw [← hn]
      unfold wordSize at *
      omega

/-- The frame holds the blocks, one after the other, and its offsets fit into 32 bits. -/
structure Holds (f : Frame) (blocks : List (Nat × Nat)) : Prop where
  slots : f.slots = place 0 blocks
  words : f.words = total blocks
  fits : f.size < 2147483648

theorem holds_empty : empty.Holds [] := ⟨rfl, rfl, by decide⟩

theorem Holds.ids {f : Frame} {blocks : List (Nat × Nat)} (h : f.Holds blocks) :
    f.ids = blocks.map Prod.fst := by
  rw [Frame.ids, h.slots, map_fst_place]

/-- A frame that holds blocks is laid out from its start to its size. -/
theorem Holds.laid {f : Frame} {blocks : List (Nat × Nat)} (h : f.Holds blocks) {words : Nat → Nat}
    (hwords : ∀ block ∈ blocks, block.2 = words block.1) : Laid words 0 f.size f.slots := by
  have := laid_place 0 hwords
  rwa [Nat.zero_add, ← h.words, ← h.slots] at this

/-! ## Laying out -/

/-- The result of laying out: a frame with the blocks that satisfies `P`, or one with the first few
of them, where the next did not fit. -/
def Lays (blocks : List (Nat × Nat)) (P : Frame → Prop) : Except Frame Frame → Prop
  | .ok f => f.Holds blocks ∧ P f
  | .error f => ∃ done block, done ++ [block] <+: blocks ∧ f.Holds done ∧
      2147483648 ≤ wordSize * (total done + block.2)

theorem Lays.mono {blocks : List (Nat × Nat)} {P Q : Frame → Prop} {x : Except Frame Frame}
    (h : Lays blocks P x) (hPQ : ∀ f, f.Holds blocks → P f → Q f) : Lays blocks Q x := by
  cases x with
  | ok f => exact ⟨h.1, hPQ f h.1 h.2⟩
  | error f => exact h

/-- Laying out goes on with the frame so far, or stays where it stopped. -/
theorem lays_bind {blocks more : List (Nat × Nat)} {P Q : Frame → Prop} {x : Except Frame Frame}
    {k : Frame → Except Frame Frame} (hx : Lays blocks P x)
    (hk : ∀ f, f.Holds blocks → P f → Lays (blocks ++ more) Q (k f)) :
    Lays (blocks ++ more) Q (x >>= k) := by
  cases x with
  | ok f => exact hk f hx.1 hx.2
  | error f =>
    obtain ⟨done, block, hdone, hf⟩ := hx
    exact ⟨done, block, hdone.trans (List.prefix_append ..), hf⟩

/-- A block is added behind the others if its end fits into 32 bits, and otherwise the layout stops.
-/
theorem lays_reserve {f : Frame} {blocks : List (Nat × Nat)} (h : f.Holds blocks) (id n : Nat) :
    Lays (blocks ++ [(id, n)]) (fun f' => f'.params = f.params ∧ f'.result = f.result ∧
      f'.slots = f.slots ++ [(id, f.size)]) (f.reserve id n) := by
  unfold reserve
  split
  · next hfits =>
    refine ⟨⟨?_, ?_, hfits⟩, rfl, rfl, rfl⟩
    · rw [place_append, ← h.slots, Nat.zero_add, ← h.words]
      rfl
    · simp [total, h.words]
  · next hfits =>
    refine ⟨blocks, (id, n), List.prefix_rfl, h, ?_⟩
    rw [← h.words]
    exact Nat.not_lt.1 hfits

end Frame

/-- The words of a symbol: one for each element of an array, and otherwise one. -/
def Symbol.words (symbol : Symbol) : Nat := (symbol.binding.bounds?.map Bounds.size).getD 1

namespace Frame

/-- The block that a symbol takes. -/
def blockOf (symbol : Symbol) : Nat × Nat := (symbol.id, symbol.words)

/-- The block of the result of the subprogram `id`. -/
def resultBlock (id : Nat) : RoutineKind → List (Nat × Nat)
  | .function => [(id, 1)]
  | .procedure => []

/-- The scope declares the variable as the symbol. -/
def Finds (scope : Scope) (v : Variable) (symbol : Symbol) : Prop :=
  scope.lookup? v.name = some symbol

/-- Parameters are laid out one after the other, each in one word, and their offsets are kept in
order. -/
theorem lays_addParams {scope : Scope} {vs : List Variable} {symbols : Scope}
    (h : List.Forall₂ (Finds scope) vs symbols) (hwords : ∀ symbol ∈ symbols, symbol.words = 1)
    {f : Frame} {blocks : List (Nat × Nat)} (hf : f.Holds blocks)
    (hparams : f.params = f.slots.map Prod.snd) (hresult : f.result = none) :
    Lays (blocks ++ symbols.map blockOf)
      (fun f' => f'.params = f'.slots.map Prod.snd ∧ f'.result = none) (addParams scope vs f) := by
  induction h generalizing f blocks with
  | nil =>
    rw [List.map_nil, List.append_nil]
    exact ⟨hf, hparams, hresult⟩
  | @cons v symbol vs symbols hv _ ih =>
    obtain ⟨hone, hwords⟩ := List.forall_mem_cons.1 hwords
    have hlookup : scope.lookup? v.name = some symbol := hv
    have hreserve := lays_reserve hf symbol.id 1
    rw [addParams, hlookup, List.map_cons, List.append_cons, blockOf, hone]
    refine lays_bind hreserve fun f' hf' hkept => ih hwords ⟨hf'.slots, hf'.words, hf'.fits⟩ ?_ ?_
    · dsimp only
      rw [hkept.1, hkept.2.2, hparams, List.map_append]
      rfl
    · exact hkept.2.1.trans hresult

/-- Variables are laid out one after the other, each in as many words as it has. -/
theorem lays_addVariables {scope : Scope} {vs : List Variable} {symbols : Scope}
    (h : List.Forall₂ (Finds scope) vs symbols) {f : Frame} {blocks : List (Nat × Nat)}
    (hf : f.Holds blocks) :
    Lays (blocks ++ symbols.map blockOf)
      (fun f' => f'.params = f.params ∧ f'.result = f.result ∧ f.slots <+: f'.slots)
      (addVariables scope vs f) := by
  induction h generalizing f blocks with
  | nil =>
    rw [List.map_nil, List.append_nil]
    exact ⟨hf, rfl, rfl, List.prefix_rfl⟩
  | @cons v symbol vs symbols hv _ ih =>
    have hlookup : scope.lookup? v.name = some symbol := hv
    have hreserve := lays_reserve hf symbol.id symbol.words
    rw [addVariables, hlookup, List.map_cons, List.append_cons]
    refine lays_bind hreserve fun f' hf' ⟨hparams, hresult, hslots⟩ => (ih hf').mono ?_
    rintro f'' - ⟨hparams', hresult', hslots'⟩
    refine ⟨hparams'.trans hparams, hresult'.trans hresult, List.IsPrefix.trans ?_ hslots'⟩
    rw [hslots]
    exact List.prefix_append ..

/-- What is known of the result of the subprogram `id` in its frame. -/
def PlacesResult (kind : RoutineKind) (id : Nat) (f : Frame) : Prop :=
  (∀ offset, f.result = some offset → kind = .function ∧ (id, offset) ∈ f.slots) ∧
    (kind = .function → f.result.isSome)

/-- A function has one word more, for its result; a procedure has none. -/
theorem lays_addResult {f : Frame} {blocks : List (Nat × Nat)} (hf : f.Holds blocks)
    (hresult : f.result = none) (kind : RoutineKind) (id : Nat) :
    Lays (blocks ++ resultBlock id kind)
      (fun f' => f'.params = f.params ∧ f.slots <+: f'.slots ∧ f'.PlacesResult kind id)
      (addResult kind id f) := by
  cases kind with
  | procedure =>
    rw [resultBlock, List.append_nil]
    refine ⟨hf, rfl, List.prefix_rfl, fun offset h => ?_, nofun⟩
    rw [hresult] at h
    cases h
  | function =>
    rw [resultBlock, ← List.append_nil (blocks ++ _)]
    refine lays_bind (lays_reserve hf id 1) fun f' hf' ⟨hparams, _, hslots⟩ => ?_
    rw [List.append_nil]
    refine ⟨⟨hf'.slots, hf'.words, hf'.fits⟩, hparams, ?_, ?_, fun _ => rfl⟩
    · dsimp only
      rw [hslots]
      exact List.prefix_append ..
    · rintro offset ⟨⟩
      refine ⟨rfl, ?_⟩
      dsimp only
      rw [hslots]
      exact List.mem_append_right _ (List.mem_singleton_self _)

/-- The blocks of a subprogram's frame: one for each parameter and variable, and one for a
result. -/
def blocks (params locals : Scope) (kind : RoutineKind) (id : Nat) : List (Nat × Nat) :=
  params.map blockOf ++ (locals.map blockOf ++ resultBlock id kind)

/-- What a layout is: the blocks one after the other. The parameters are at the first places, and
the result of a function has one of its own. -/
theorem lays_layout {scope : Scope} {args vars : List Variable} {params locals : Scope}
    (hargs : List.Forall₂ (Finds scope) args params) (hone : ∀ symbol ∈ params, symbol.words = 1)
    (hvars : List.Forall₂ (Finds scope) vars locals) (kind : RoutineKind) (id : Nat) :
    Lays (blocks params locals kind id)
      (fun f => f.params = (f.slots.take params.length).map Prod.snd ∧ f.PlacesResult kind id)
      (layout scope kind id args vars) := by
  have hparams := lays_addParams hargs hone holds_empty rfl rfl
  rw [List.nil_append] at hparams
  refine lays_bind hparams fun f hf ⟨hfparams, hfresult⟩ => ?_
  rw [← List.append_assoc]
  refine lays_bind (lays_addVariables hvars hf) fun f' hf' ⟨hparams', hresult', hslots'⟩ => ?_
  refine (lays_addResult hf' (hresult'.trans hfresult) kind id).mono ?_
  rintro f'' - ⟨hparams'', hslots'', hplaces⟩
  refine ⟨?_, hplaces⟩
  have hlength : params.length = f.slots.length := by
    rw [hf.slots, length_place, List.length_map]
  rw [hparams'', hparams', hfparams, hlength, ← List.prefix_iff_eq_take.1 (hslots'.trans hslots'')]

end Frame

/-! ## The code around a body -/

namespace Lower

/-- The lines that do something with registers and their places in the save area. -/
def savedLines (action : Reg → Address → Instr) (index : Nat) : List Reg → List Line
  | [] => []
  | reg :: regs =>
    .instr (action reg (.offset (wordSize * index : Nat) .sp)) :: savedLines action (index + 1) regs

/-- The line that moves the stack pointer, if it moves. -/
def moveLines (amount : Int) : List Line :=
  if amount = 0 then [] else [.instr (.addi .sp .sp amount)]

def prologueLines (f : Frame) : List Line :=
  moveLines (-(saveAreaSize : Int)) ++ (savedLines .sw 0 savedRegisters ++ moveLines (-(f.size : Int)))

def epilogueLines (f : Frame) : List Line :=
  moveLines f.size ++
    (savedLines .lw 0 savedRegisters ++ (moveLines saveAreaSize ++ [.instr (.jr .ra)]))

/-- The lines that store parameters at offsets, from registers as long as there are any. -/
def storeLines (name : String) : List Nat → List Reg → List Line
  | [], _ => []
  | offset :: offsets, reg :: regs =>
    .instr (.sw reg (.offset offset .sp)) :: storeLines name offsets regs
  | _ :: offsets, [] => .mark (.tooManyParameters name) :: storeLines name offsets []

def resultLines : Option Nat → List Line
  | none => []
  | some offset => [.instr (.lw .v0 (.offset offset .sp))]

section

variable (ctx : Context) (c : Counters)

/-- Saving or restoring registers is one line for each of them. -/
theorem forSaved_apply (action : Reg → Address → Instr) (index : Nat) (regs : List Reg) :
    forSaved action index regs ctx c = ⟨(), c, savedLines action index regs⟩ := by
  induction regs generalizing index with
  | nil => rfl
  | cons reg regs ih =>
    rw [forSaved, bind_apply, emit, line, ih]
    rfl

theorem moveStack_apply (amount : Int) :
    moveStack amount ctx c = ⟨(), c, moveLines amount⟩ := by
  unfold moveStack moveLines
  split <;> rfl

theorem prologue_apply (f : Frame) : prologue f ctx c = ⟨(), c, prologueLines f⟩ := by
  simp only [prologue, bind_apply, moveStack_apply, forSaved_apply, prologueLines]

theorem epilogue_apply (f : Frame) : epilogue f ctx c = ⟨(), c, epilogueLines f⟩ := by
  simp only [epilogue, bind_apply, moveStack_apply, forSaved_apply, epilogueLines, emit, line]

/-- Parameters are stored one by one as long as there are registers, and marked after that. -/
theorem storeParams_apply (name : String) (offsets : List Nat) (regs : List Reg) :
    storeParams name offsets regs ctx c = ⟨(), c, storeLines name offsets regs⟩ := by
  induction offsets generalizing regs with
  | nil => rfl
  | cons offset offsets ih =>
    cases regs with
    | nil =>
      rw [storeParams, bind_apply, diagnose, line, ih]
      rfl
    | cons reg regs =>
      rw [storeParams, bind_apply, emit, line, ih]
      rfl

theorem loadResult_apply (result : Option Nat) :
    loadResult result ctx c = ⟨(), c, resultLines result⟩ := by
  cases result <;> rfl

/-- A routine is its label, its prologue, its body and its epilogue. -/
theorem routine_apply (start : Label) (name : String) (f : Frame) (body : List Statement) :
    routine start name f body ctx c =
      ⟨(), (Statement.lowerAll body ctx c).counters, .label start :: (prologueLines f ++
        (storeLines name f.params Reg.arguments ++ ((Statement.lowerAll body ctx c).lines ++
          (resultLines f.result ++ epilogueLines f))))⟩ := by
  simp only [routine, bind_apply, prologue_apply, storeParams_apply, loadResult_apply,
    epilogue_apply, label, line, List.singleton_append]

theorem oversizedRoutine_apply (start : Label) (name : String) :
    oversizedRoutine start name ctx c =
      ⟨(), c, [.mark (.frameTooLarge name), .label start, .instr (.jr .ra)]⟩ :=
  rfl

end

/-- Where there is a register for it, a parameter is stored from that register to its offset. -/
theorem getElem?_storeLines {name : String} {offsets : List Nat} {regs : List Reg} {i : Nat}
    {offset : Nat} {reg : Reg} (hoffset : offsets[i]? = some offset) (hreg : regs[i]? = some reg) :
    (storeLines name offsets regs)[i]? = some (.instr (.sw reg (.offset offset .sp))) := by
  induction offsets generalizing regs i with
  | nil => cases hoffset
  | cons first offsets ih =>
    cases regs with
    | nil => cases hreg
    | cons reg' regs =>
      cases i with
      | zero =>
        cases hoffset
        cases hreg
        rfl
      | succ i => exact ih hoffset hreg

end Lower

end PascalMips
