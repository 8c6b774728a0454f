import PascalMips.Program.Basic
import PascalMips.Statement.Lower

/-!
# Frames

A subprogram saves the registers of the pool and its return address, and below them reserves a word
for each parameter, variable, array element and, in a function, the result. Places are offsets from
the stack pointer, given out in that order from zero upwards, as long as they fit into 32 bits.
-/

namespace PascalMips

def wordSize : Nat := 4

/-- The size of the saved registers in bytes. -/
def saveAreaSize : Nat := wordSize * (Reg.pool.length + 1)

/-- The layout of a frame: the words reserved, the offsets of the parameters and of the result, and
the offset of each symbol that has a place, in the order in which they were given out. -/
structure Frame where
  words : Nat
  params : List Nat
  result : Option Nat
  slots : List (Nat × Nat)
deriving DecidableEq

namespace Frame

def empty : Frame := ⟨0, [], none, []⟩

/-- The bytes reserved, which is also the offset of the next place. -/
def size (f : Frame) : Nat := wordSize * f.words

/-- The frame with `words` more words, for the symbol `id`; the old frame if offsets would not
fit. -/
def reserve (f : Frame) (id words : Nat) : Except Frame Frame :=
  if wordSize * (f.words + words) < 2147483648 then
    .ok { f with words := f.words + words, slots := f.slots ++ [(id, f.size)] }
  else .error f

/-- Adds the parameters that `scope` declares. -/
def addParams (scope : Scope) : List Variable → Frame → Except Frame Frame
  | [], f => .ok f
  | v :: vs, f =>
    match scope.lookup? v.name with
    | none => addParams scope vs f
    | some symbol => do
      let f' ← f.reserve symbol.id 1
      addParams scope vs { f' with params := f'.params ++ [f.size] }

/-- Adds the variables that `scope` declares. -/
def addVariables (scope : Scope) : List Variable → Frame → Except Frame Frame
  | [], f => .ok f
  | v :: vs, f =>
    match scope.lookup? v.name with
    | none => addVariables scope vs f
    | some symbol => do
      let f' ← f.reserve symbol.id ((symbol.binding.bounds?.map Bounds.size).getD 1)
      addVariables scope vs f'

/-- Adds the result of the subprogram `id`, if it is a function. -/
def addResult (kind : RoutineKind) (id : Nat) (f : Frame) : Except Frame Frame :=
  match kind with
  | .procedure => .ok f
  | .function => do
    let f' ← f.reserve id 1
    return { f' with result := some f.size }

/-- The frame of the subprogram `id` whose names are in `scope`; the frame so far if it grew too
large. -/
def layout (scope : Scope) (kind : RoutineKind) (id : Nat) (args vars : List Variable) :
    Except Frame Frame := do
  let f ← addParams scope args empty
  let f ← addVariables scope vars f
  addResult kind id f

/-- The storage with the places of a frame. -/
def assign (f : Frame) (storage : StorageMap) : StorageMap :=
  f.slots.foldl (fun m (id, offset) => m.assign id (.stack offset)) storage

/-- The storage without the places of a frame. -/
def release (f : Frame) (storage : StorageMap) : StorageMap :=
  f.slots.foldl (fun m (id, _) => m.release id) storage

end Frame

namespace Lower

/-- Does something with each register of the pool and its place in the save area. -/
def forSaved (action : Reg → Address → Instr) (index : Nat) : List Reg → Lower Unit
  | [] => pure ()
  | reg :: regs => do
    emit (action reg (.offset (wordSize * index : Nat) .sp))
    forSaved action (index + 1) regs

/-- The registers that a subprogram saves. -/
def savedRegisters : List Reg := Reg.pool ++ [.ra]

/-- Moves the stack pointer, if by anything. -/
def moveStack (amount : Int) : Lower Unit :=
  if amount = 0 then pure () else emit (.addi .sp .sp amount)

/-- Saves the registers and reserves the frame. -/
def prologue (f : Frame) : Lower Unit := do
  moveStack (-(saveAreaSize : Int))
  forSaved .sw 0 savedRegisters
  moveStack (-(f.size : Int))

/-- Gives back the frame, restores the registers and returns. -/
def epilogue (f : Frame) : Lower Unit := do
  moveStack f.size
  forSaved .lw 0 savedRegisters
  moveStack saveAreaSize
  emit (.jr .ra)

/-- Stores the parameters of the subprogram `name`, passed in registers, at their places. -/
def storeParams (name : String) : List Nat → List Reg → Lower Unit
  | [], _ => pure ()
  | offset :: offsets, reg :: regs => do
    emit (.sw reg (.offset offset .sp))
    storeParams name offsets regs
  | _ :: offsets, [] => do
    diagnose (.tooManyParameters name)
    storeParams name offsets []

def loadResult : Option Nat → Lower Unit
  | none => pure ()
  | some offset => emit (.lw .v0 (.offset offset .sp))

def routine (start : Label) (name : String) (f : Frame) (body : List Statement) : Lower Unit := do
  label start
  prologue f
  storeParams name f.params Reg.arguments
  Statement.lowerAll body
  loadResult f.result
  epilogue f

/-- A subprogram whose frame does not fit: it is marked and returns at once. -/
def oversizedRoutine (start : Label) (name : String) : Lower Unit := do
  diagnose (.frameTooLarge name)
  label start
  emit (.jr .ra)

end Lower

end PascalMips
