import PascalMips.CommandLine.Run

/-!
# The command

Compiles a mini-Pascal file to MIPS32 assembly.
-/

namespace PascalMips

/-- The fault behind an error of the operating system. -/
def pathFault? : IO.Error → Option PathFault
  | .noFileOrDirectory _ code _ => PathFault.ofCode? code.toNat
  | .inappropriateType _ code _ => PathFault.ofCode? code.toNat
  | .invalidArgument _ code _ => PathFault.ofCode? code.toNat
  | _ => none

/-- The source text in a file, or the reason why it cannot be read. -/
def readInput (path : String) : IO (Except String String) := do
  try
    let handle ← IO.FS.Handle.mk path .read
    return (decodeSource (← handle.readBinToEnd)).mapError ReadFault.message
  catch cause =>
    match pathFault? cause with
    | some fault => return .error (ReadFault.path fault).message
    | none => return .error (toString cause)

/-- Writes a file, or gives the message that tells why it cannot be written. -/
def writeOutput (path text : String) : IO (Except String Unit) := do
  try
    IO.FS.writeFile path text
    return .ok ()
  catch cause =>
    match pathFault? cause with
    | some fault => return .error (Invocation.writeError fault)
    | none => return .error s!"Error: {cause}\n"

def answer (r : Response) : IO UInt32 := do
  (← IO.getStdout).putStr r.stdout
  (← IO.getStderr).putStr r.stderr
  return r.exit.toUInt32

end PascalMips

open PascalMips in
def main (args : List String) : IO UInt32 := do
  match Invocation.ofArgs? args with
  | none =>
    IO.eprintln "usage: [--tree] [--no-fold] [-o OUTPUT] INPUT"
    return 2
  | some inv =>
    match ← readInput inv.input with
    | .error reason => answer (.failure (inv.readError reason))
    | .ok source =>
      match inv.result source with
      | .error cause => answer (.ofError cause)
      | .ok text =>
        match inv.output with
        | none => answer (.success text)
        | some path =>
          match ← writeOutput path text with
          | .ok () => return 0
          | .error message => answer (.failure message)
