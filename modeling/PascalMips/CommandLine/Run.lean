import PascalMips.CommandLine.Directory
import PascalMips.CommandLine.Invocation
import PascalMips.Compile
import PascalMips.Program.Outline

/-!
# The command line

What the program answers: an exit code, what it prints, and the file it writes. `run` is the whole
command over the files of its working directory.
-/

namespace PascalMips

/-- Why a source text cannot be read. -/
inductive ReadFault where
  | path (fault : PathFault)
  | notText
deriving DecidableEq

def ReadFault.message : ReadFault → String
  | path fault => s!"{fault.text} (os error {fault.code})"
  | notText => "stream did not contain valid UTF-8"

namespace Invocation

/-- The message for an input that cannot be read. -/
def readError (inv : Invocation) (reason : String) : String :=
  s!"Error: cannot read '{inv.input}': {reason}\n"

/-- The message for an output that cannot be written. -/
def writeError (fault : PathFault) : String :=
  s!"Error: Os \x7b code: {fault.code}, kind: {fault.kind}, message: \"{fault.text}\" \x7d\n"

/-- What is written for a source text. -/
def result (inv : Invocation) (source : String) : Except CompileError String :=
  if inv.tree then do return (← (parse source).mapError .invalid).1.dump
  else compile source inv.fold

end Invocation

/-- The answer to a command. -/
structure Response where
  exit : Nat
  stdout : String
  stderr : String
deriving DecidableEq

namespace Response

/-- A success that prints `text`. -/
def success (text : String) : Response := ⟨0, text, ""⟩

/-- A failure with a message. -/
def failure (message : String) : Response := ⟨1, "", message⟩

/-- The answer to arguments that are refused. -/
def usage : Response := ⟨2, "", ""⟩

/-- The answer where the compiler itself fails, with a message. -/
def crash (message : String) : Response := ⟨101, "", message⟩

/-- The answer to a source text without a result. -/
def ofError : CompileError → Response
  | .invalid cause => failure (cause.message ++ "\n")
  | .failed cause => crash (cause.message ++ "\n")

end Response

/-- The source text in the bytes of a file. -/
def decodeSource (bytes : ByteArray) : Except ReadFault String :=
  match String.fromUTF8? bytes with
  | some text => .ok text
  | none => .error .notText

/-- The source text in the file that a path leads to. -/
def Directory.readSource (dir : Directory) (path : String) : Except ReadFault String :=
  match dir.read path with
  | .error fault => .error (.path fault)
  | .ok bytes => decodeSource bytes

namespace Invocation

/-- Carries out what was asked for. -/
def run (inv : Invocation) (dir : Directory) : Response × Directory :=
  match dir.readSource inv.input with
  | .error fault => (.failure (inv.readError fault.message), dir)
  | .ok source =>
    match inv.result source with
    | .error cause => (.ofError cause, dir)
    | .ok text =>
      match inv.output with
      | none => (.success text, dir)
      | some path =>
        match dir.write path text.toUTF8 with
        | .ok dir => (.success "", dir)
        | .error fault => (.failure (writeError fault), dir)

end Invocation

def run (args : List String) (dir : Directory) : Response × Directory :=
  match Invocation.ofArgs? args with
  | none => (.usage, dir)
  | some inv => inv.run dir

end PascalMips
