import PascalMips.Asm.Instr

/-!
# Storage

Where the values of symbols are kept while code is generated: under a label, or at an offset from
the stack pointer in the frame of the current subprogram. Symbols are told apart by their numbers.
-/

namespace PascalMips

/-- The place of a symbol's value. -/
inductive Storage where
  | global (label : Label)
  | stack (offset : Int)
deriving DecidableEq

namespace Storage

def address : Storage → Address
  | global label => .label label
  | stack offset => .offset offset .sp

def text (s : Storage) : String := s.address.text

end Storage

/-- The places of symbols, at most one for each number. -/
structure StorageMap where
  entries : List (Nat × Storage)
deriving DecidableEq

namespace StorageMap

def empty : StorageMap := ⟨[]⟩

def get? (m : StorageMap) (id : Nat) : Option Storage := m.entries.lookup id

def release (m : StorageMap) (id : Nat) : StorageMap := ⟨m.entries.filter (·.1 ≠ id)⟩

/-- The map with a place for a symbol, instead of any it had. -/
def assign (m : StorageMap) (id : Nat) (storage : Storage) : StorageMap :=
  ⟨(id, storage) :: (m.release id).entries⟩

def isEmpty (m : StorageMap) : Bool := m.entries.isEmpty

end StorageMap

end PascalMips
