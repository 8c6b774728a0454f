import PascalMips.Lower.Frame

/-!
# Generating programs

A generator writes the data of a program, its main part and its subprograms one after the other.
While a subprogram is generated its scope is taken off its symbol and pushed onto the table; it is
put back afterwards. The places of its variables are forgotten before the subprograms nested in it
are generated, because those cannot reach its frame.

Generation fails if its counters are overdrawn. What cannot be compiled otherwise is marked in the
assembly.
-/

namespace PascalMips

/-- The state of generation: the context of the next statement, the counters, and the lines so
far. -/
structure Generator where
  context : Context
  counters : Counters
  lines : List Line

/-- Why generation fails. -/
inductive GenerateError where
  | overdrawn
deriving DecidableEq

/-- The message for a cursor below the first register. -/
def GenerateError.message : GenerateError → String
  | overdrawn => "attempt to subtract with overflow"

namespace Generator

/-- A generator that has written nothing. -/
def new (symbols : SymbolTable) : Generator := ⟨⟨symbols, .empty, []⟩, .start, []⟩

/-- The generator, if it has not failed. -/
def result (g : Generator) : Except GenerateError Generator :=
  if g.counters.overdrawn then .error .overdrawn else .ok g

def symbols (g : Generator) : SymbolTable := g.context.symbols

def diagnostics (g : Generator) : List Diagnostic := diagnosticsOf g.lines

def text (g : Generator) : String := assemble g.lines

/-- Writes a piece of code. -/
def run (g : Generator) (code : Lower Unit) : Generator :=
  let lowered := code g.context g.counters
  { g with counters := lowered.counters, lines := g.lines ++ lowered.lines }

def write (g : Generator) (line : Line) : Generator := { g with lines := g.lines ++ [line] }

def withSymbols (g : Generator) (symbols : SymbolTable) : Generator :=
  { g with context := { g.context with symbols := symbols } }

def withStorage (g : Generator) (storage : StorageMap) : Generator :=
  { g with context := { g.context with storage := storage } }

def withPath (g : Generator) (path : List String) : Generator :=
  { g with context := { g.context with path := path } }

def emitStatement (g : Generator) (s : Statement) : Generator := g.run s.lower

/-! ## Data -/

/-- The line that reserves the words of a variable. -/
def dataLine (label : Label) : Option Bounds → Line
  | none => .word label
  | some bounds => .words label bounds.size

/-- Reserves the words of a global variable and places it there. -/
def emitVariable (g : Generator) (v : Variable) : Generator :=
  match g.symbols.global.lookup? v.name with
  | none => g.write (.mark (.missingGlobal v.name))
  | some symbol =>
    let label := Label.ofVariable v.name
    (g.write (dataLine label symbol.binding.bounds?)).withStorage
      (g.context.storage.assign symbol.id (.global label))

/-- Reserves the words of global variables. -/
def emitData (g : Generator) (vars : List Variable) : Generator :=
  vars.foldl emitVariable g

/-! ## Subprograms -/

/-- Writes the code of a subprogram with the given number, whose scope was pushed. -/
def emitRoutine (g : Generator) (start : Label) (id : Nat) (s : Subprogram) : Generator :=
  match Frame.layout g.symbols.current s.kind id s.args s.vars with
  | .ok frame =>
    let g := (g.withStorage (frame.assign g.context.storage)).run
      (Lower.routine start s.name frame s.body)
    g.withStorage (frame.release g.context.storage)
  | .error frame =>
    let g := (g.withStorage (frame.assign g.context.storage)).run
      (Lower.oversizedRoutine start s.name)
    g.withStorage (frame.release g.context.storage)

/-- Enters the scope taken off the subprogram `name`. -/
def enter (g : Generator) (name : String) (scope : Scope) (symbols : SymbolTable) : Generator :=
  (g.withSymbols (symbols.push scope)).withPath (g.context.path ++ [name])

/-- Leaves the scope of the subprogram `name` and puts it back. -/
def leave (g : Generator) (name : String) : Generator :=
  let symbols :=
    match g.symbols.exit? with
    | some (scope, symbols) => (symbols.attach? name scope).getD symbols
    | none => g.symbols
  (g.withSymbols symbols).withPath g.context.path.dropLast

mutual

/-- Writes a subprogram and the subprograms nested in it. -/
def emitSubprogram (g : Generator) : Subprogram → Generator
  | ⟨kind, name, returns, args, vars, subprograms, body, location⟩ =>
    match g.symbols.lookupWithDepth? name with
    | none => g.write (.mark (.missingRoutine name))
    | some (depth, symbol) =>
      let start := Lower.routineLabel g.context.path depth name
      match g.symbols.detach? name with
      | none => g.write (.mark (.noLocalScope name))
      | some (scope, symbols) =>
        let g := (g.enter name scope symbols).emitRoutine start symbol.id
          ⟨kind, name, returns, args, vars, subprograms, body, location⟩
        (g.emitSubprograms subprograms).leave name

def emitSubprograms (g : Generator) : List Subprogram → Generator
  | [] => g
  | s :: ss => (g.emitSubprogram s).emitSubprograms ss

end

/-! ## Programs -/

/-- The main part of a program. -/
def mainPart (body : List Statement) : Lower Unit := do
  Lower.line (.directive .text)
  Lower.line (.directive .globalMain)
  Lower.label .main
  Statement.lowerAll body
  Lower.callService .exit

def emitProgram (g : Generator) (p : Program) : Generator :=
  let g := (g.write (.directive .data)).emitData p.vars
  (g.run (mainPart p.body)).emitSubprograms p.subprograms

end Generator

/-- The assembly of a program whose names are in `symbols`, and the table after generation. -/
def Program.generate (p : Program) (symbols : SymbolTable) :
    Except GenerateError (String × SymbolTable) := do
  let g ← ((Generator.new symbols).emitProgram p).result
  return (g.text, g.symbols)

/-- Generation gives what its generator has in the end, if that is not overdrawn. -/
theorem Program.generate_eq_ok {p : Program} {symbols symbols' : SymbolTable} {text : String} :
    p.generate symbols = .ok (text, symbols') ↔
      let g := (Generator.new symbols).emitProgram p
      g.counters.overdrawn = false ∧ g.text = text ∧ g.symbols = symbols' := by
  simp only [generate, Generator.result]
  split
  · next h => simp [h, bind, Except.bind]
  · next h => simp [h, bind, Except.bind, pure, Except.pure]

theorem Program.generate_eq_error {p : Program} {symbols : SymbolTable} :
    p.generate symbols = .error .overdrawn ↔
      ((Generator.new symbols).emitProgram p).counters.overdrawn = true := by
  simp only [generate, Generator.result]
  split
  · next h => simp [h, bind, Except.bind]
  · next h => simp [h, bind, Except.bind, pure, Except.pure]

end PascalMips
