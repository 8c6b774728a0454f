import PascalMips.Proofs.Expr.Meaning
import PascalMips.Proofs.Lower.Basic
import PascalMips.Proofs.Machine.Run

/-!
# Variables in memory

A store gives the values of variables and array elements (`Cell`). `ctx.Holds p σ m`: each of them
that has a place in the context `ctx` is in memory at that place, and the places lie in user space,
on the boundaries of words. `Keeps n m m'`: from `m` to `m'` only registers of the pool from `n` on
and the two address registers changed, apart from what holds no variable.
-/

namespace PascalMips

/-- A variable, or an element of an array. -/
inductive Cell where
  | var (name : String)
  | element (name : String) (index : Int)
deriving DecidableEq

/-- The values of variables and elements. -/
abbrev Store := Cell → Word

/-- The meaning of names over a store: an array has the elements that its declaration says. -/
def Store.env (σ : Store) (t : SymbolTable) (toWord : Single → Word) : Env where
  var name := σ (.var name)
  element name index :=
    match (t.lookup? name).bind (·.binding.bounds?) with
    | some bounds =>
      if bounds.lo ≤ index.toInt ∧ index.toInt ≤ bounds.hi then some (σ (.element name index.toInt))
      else none
    | none => none
  call _ _ := none
  toWord := toWord

/-! ## Places -/

namespace Storage

/-- What the offset of a place counts from. -/
def origin (p : Image) (m : Machine) : Storage → Int
  | global label => (p.data label).toInt
  | stack _ => (m.read .sp).toInt

def offset : Storage → Int
  | global _ => 0
  | stack offset => offset

/-- The address of a place. -/
def base (p : Image) (m : Machine) (s : Storage) : Int := s.origin p m + s.offset

/-- The words from a place on are words of user space, and a place on the stack is not below the
stack pointer. -/
structure Fits (p : Image) (m : Machine) (words : Nat) (s : Storage) : Prop where
  origin : 0 ≤ s.origin p m
  offset : 0 ≤ s.offset
  aligned : 4 ∣ s.base p m
  bound : s.base p m + 4 * words ≤ 2147483648

end Storage

/-- The number of words of a variable, or of an array. -/
def wordsOf (bounds? : Option Bounds) : Nat := (bounds?.map Bounds.size).getD 1

namespace Context

/-- The address of a cell. -/
def address? (ctx : Context) (p : Image) (m : Machine) : Cell → Option Int
  | .var name =>
    match ctx.place? name with
    | some (storage, none) => some (storage.base p m)
    | _ => none
  | .element name index =>
    match ctx.place? name with
    | some (storage, some bounds) =>
      if bounds.lo ≤ index ∧ index ≤ bounds.hi then
        some (storage.base p m + 4 * (index - bounds.lo))
      else none
    | _ => none

/-- Memory holds the store: every place is in user space, index ranges are of 32-bit integers, and
every cell has its value in its place. -/
structure Holds (ctx : Context) (p : Image) (σ : Store) (m : Machine) : Prop where
  fits : ∀ name storage bounds?, ctx.place? name = some (storage, bounds?) →
    storage.Fits p m (wordsOf bounds?)
  inRange : ∀ name storage bounds, ctx.place? name = some (storage, some bounds) →
    Literal.InRange bounds.lo ∧ Literal.InRange bounds.hi
  value : ∀ cell a, ctx.address? p m cell = some a → m.memory (BitVec.ofInt 32 a) = σ cell

end Context

/-! ## Addresses -/

section Addresses

variable {p : Image} {m : Machine} {s : Storage}

theorem effective_address (p : Image) (m : Machine) (s : Storage) :
    m.effective p s.address = BitVec.ofInt 32 (s.base p m) := by
  cases s with
  | global label => simp [Storage.address, Machine.effective, Storage.base, Storage.origin,
      Storage.offset]
  | stack offset => simp [Storage.address, Machine.effective, Storage.base, Storage.origin,
      Storage.offset, BitVec.ofInt_add]

theorem accessible_ofInt {a : Int} (h0 : 0 ≤ a) (h1 : a < 2147483648) (h4 : 4 ∣ a) :
    Machine.Accessible (BitVec.ofInt 32 a) := by
  have hn : (BitVec.ofInt 32 a).toNat = a.toNat := by
    rw [BitVec.toNat_ofInt]
    omega
  unfold Machine.Accessible
  rw [hn]
  omega

variable {ctx : Context} {σ : Store} {cell : Cell} {a : Int}

/-- The address of a cell is that of a word in user space. -/
theorem Context.Holds.address_bounds (h : ctx.Holds p σ m) (ha : ctx.address? p m cell = some a) :
    0 ≤ a ∧ a < 2147483648 ∧ 4 ∣ a := by
  cases cell with
  | var name =>
    simp only [Context.address?] at ha
    split at ha <;> cases ha
    rename_i storage hplace
    have hf := h.fits _ _ _ hplace
    have hb := hf.bound
    have ho := hf.origin
    have hoff := hf.offset
    have ha4 := hf.aligned
    simp only [wordsOf, Option.map_none, Option.getD_none, Storage.base] at *
    omega
  | element name index =>
    simp only [Context.address?] at ha
    split at ha
    · rename_i storage bounds hplace
      split at ha <;> cases ha
      have hf := h.fits _ _ _ hplace
      have hb := hf.bound
      have ho := hf.origin
      have hoff := hf.offset
      have ha4 := hf.aligned
      simp only [wordsOf, Option.map_some, Option.getD_some, Storage.base, Bounds.size] at *
      omega
    · cases ha

theorem Context.Holds.accessible (h : ctx.Holds p σ m) (ha : ctx.address? p m cell = some a) :
    Machine.Accessible (BitVec.ofInt 32 a) :=
  have ⟨h0, h1, h4⟩ := h.address_bounds ha
  accessible_ofInt h0 h1 h4

theorem Context.Holds.load (h : ctx.Holds p σ m) (ha : ctx.address? p m cell = some a) :
    m.load (BitVec.ofInt 32 a) = some (σ cell) := by
  rw [Machine.load, if_pos (h.accessible ha), h.value cell a ha]

end Addresses

/-! ## What code for expressions keeps -/

/-- Whether code for an expression may change a register, if the pool is free from `n` on. -/
def Reg.isScratch (n : Nat) : Reg → Bool
  | s index => n ≤ index.val
  | t8 => true
  | t9 => true
  | _ => false

namespace Machine

/-- Registers that are not scratch from `n` on, memory and console are the same. -/
structure Keeps (n : Nat) (m m' : Machine) : Prop where
  read : ∀ r : Reg, r.isScratch n = false → m'.read r = m.read r
  memory : m'.memory = m.memory
  input : m'.input = m.input
  output : m'.output = m.output

namespace Keeps

variable {n k : Nat} {m m' m'' : Machine}

theorem refl (n : Nat) (m : Machine) : Keeps n m m := ⟨fun _ _ => rfl, rfl, rfl, rfl⟩

theorem trans (h : Keeps n m m') (h' : Keeps n m' m'') : Keeps n m m'' where
  read r hr := (h'.read r hr).trans (h.read r hr)
  memory := h'.memory.trans h.memory
  input := h'.input.trans h.input
  output := h'.output.trans h.output

theorem mono (h : Keeps k m m') (hn : n ≤ k) : Keeps n m m' where
  read r hr := h.read r (by cases r <;> simp_all [Reg.isScratch]; omega)
  memory := h.memory
  input := h.input
  output := h.output

theorem write {r : Reg} (hr : r.isScratch n = true) (m : Machine) (w : Word) :
    Keeps n m (m.write r w) where
  read q hq := by
    by_cases hz : q = .zero
    · subst hz; rfl
    · rw [read_write _ _ _ _ hz, if_neg (fun h => by rw [h, hr] at hq; cases hq)]
  memory := rfl
  input := rfl
  output := rfl

theorem sp (h : Keeps n m m') : m'.read .sp = m.read .sp := h.read .sp rfl

/-- A register of the pool below `n` is kept. -/
theorem pool (h : Keeps n m m') {i : Fin 8} (hi : i.val < n) : m'.read (.s i) = m.read (.s i) :=
  h.read (.s i) (by simpa [Reg.isScratch] using hi)

end Keeps

end Machine

theorem Storage.base_congr {p : Image} {m m' : Machine} (h : m'.read .sp = m.read .sp)
    (s : Storage) : s.base p m' = s.base p m := by
  cases s <;> simp [Storage.base, Storage.origin, h]

theorem Storage.Fits.congr {p : Image} {m m' : Machine} {words : Nat} {s : Storage}
    (hf : s.Fits p m words) (h : m'.read .sp = m.read .sp) : s.Fits p m' words := by
  have ho : s.origin p m' = s.origin p m := by cases s <;> simp [Storage.origin, h]
  exact ⟨ho ▸ hf.origin, hf.offset, Storage.base_congr h s ▸ hf.aligned,
    Storage.base_congr h s ▸ hf.bound⟩

theorem Context.address?_congr {ctx : Context} {p : Image} {m m' : Machine}
    (h : m'.read .sp = m.read .sp) (cell : Cell) :
    ctx.address? p m' cell = ctx.address? p m cell := by
  cases cell <;> simp [Context.address?, Storage.base_congr h]

/-- Memory goes on to hold a store while memory and the stack pointer stay. -/
theorem Context.Holds.congr {ctx : Context} {p : Image} {σ : Store} {m m' : Machine}
    (h : ctx.Holds p σ m) (hsp : m'.read .sp = m.read .sp) (hmem : m'.memory = m.memory) :
    ctx.Holds p σ m' where
  fits name storage bounds? hplace := (h.fits name storage bounds? hplace).congr hsp
  inRange := h.inRange
  value cell a ha := by
    rw [Context.address?_congr hsp] at ha
    rw [hmem, h.value cell a ha]

theorem Context.Holds.keeps {ctx : Context} {p : Image} {σ : Store} {n : Nat} {m m' : Machine}
    (h : ctx.Holds p σ m) (hk : m.Keeps n m') : ctx.Holds p σ m' := h.congr hk.sp hk.memory

end PascalMips
