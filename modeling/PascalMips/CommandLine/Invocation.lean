/-!
# Command line arguments

One input path and any of the options, in any order. After `--` every argument is a path. An option
or flag given twice, a flag with a value, an option without one, an unknown option and an empty path
are refused.
-/

namespace PascalMips

/-- What the command line asks for. -/
structure Invocation where
  input : String
  /-- The file to write instead of standard output. -/
  output : Option String
  /-- Write the outline of the program instead of its assembly. -/
  tree : Bool
  /-- Fold constants. -/
  fold : Bool
deriving DecidableEq

namespace Invocation

/-- The arguments read so far. -/
structure Partial where
  input : Option String
  output : Option String
  tree : Bool
  noFold : Bool

namespace Partial

def empty : Partial := ⟨none, none, false, false⟩

def setInput (s : Partial) (path : String) : Option Partial :=
  if s.input.isSome ∨ path = "" then none else some { s with input := some path }

def setOutput (s : Partial) (path : String) : Option Partial :=
  if s.output.isSome ∨ path = "" then none else some { s with output := some path }

def setTree (s : Partial) : Option Partial := if s.tree then none else some { s with tree := true }

def setNoFold (s : Partial) : Option Partial :=
  if s.noFold then none else some { s with noFold := true }

/-- What was asked for, if there is an input path. -/
def finish (s : Partial) : Option Invocation :=
  s.input.map fun input => ⟨input, s.output, s.tree, !s.noFold⟩

end Partial

/-- Whether an argument is an option: it starts with a minus and has more than that. -/
def isOption (arg : String) : Bool :=
  match arg.toList with
  | '-' :: _ :: _ => true
  | _ => false

/-- What follows `start` in an argument that starts with it. -/
def afterStart? (start arg : String) : Option String :=
  if start.toList.isPrefixOf arg.toList then some (String.ofList (arg.toList.drop start.length))
  else none

/-- The value in an argument that holds both an option and its value: `-oVALUE`, `-o=VALUE` or
`--output=VALUE`. -/
def attachedOutput? (arg : String) : Option String :=
  match afterStart? "--output=" arg with
  | some value => some value
  | none =>
    match afterStart? "-o=" arg with
    | some value => some value
    | none => afterStart? "-o" arg

def takePaths : List String → Partial → Option Partial
  | [], s => some s
  | path :: paths, s => do takePaths paths (← s.setInput path)

def take : List String → Partial → Option Partial
  | [], s => some s
  | arg :: args, s =>
    if arg = "--" then takePaths args s
    else if arg = "--tree" then do take args (← s.setTree)
    else if arg = "--no-fold" then do take args (← s.setNoFold)
    else if arg = "-o" ∨ arg = "--output" then
      match args with
      | [] => none
      | value :: args => if isOption value then none else do take args (← s.setOutput value)
    else if isOption arg then do take args (← s.setOutput (← attachedOutput? arg))
    else do take args (← s.setInput arg)

/-- What the arguments ask for; nothing if they are refused. -/
def ofArgs? (args : List String) : Option Invocation := do (← take args .empty).finish

end Invocation

end PascalMips
