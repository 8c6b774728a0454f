import PascalMips.Program.Progress

/-!
# Programs from source texts

Reading a program declares its names in a symbol table. If the text is not a program, the table
keeps the names declared and the scopes opened before the first fault.
-/

namespace PascalMips.Program

/-- The program made of `tokens`, and the table with its names. -/
def ofTokens (tokens : TokenStream) (symbols : SymbolTable) :
    Except ParseError Program × SymbolTable :=
  match h : Parse.program ⟨tokens, symbols, []⟩ with
  | .ok program rest => (.ok program, rest.symbols)
  | .error cause rest => (.error cause, rest.symbols)
  | .exhausted => absurd h (Parse.program_ne_exhausted _)

/-- The program written in `source`, and the table with its names. -/
def ofSource (source : String) (symbols : SymbolTable) : Except ParseError Program × SymbolTable :=
  match TokenStream.ofSource source with
  | .ok tokens => ofTokens tokens symbols
  | .error cause => (.error (.ofLexError cause), symbols)

end PascalMips.Program

namespace PascalMips

/-- The program written in `source` and the table of its names. -/
def parse (source : String) : Except ParseError (Program × SymbolTable) :=
  match Program.ofSource source .empty with
  | (.ok program, symbols) => .ok (program, symbols)
  | (.error cause, _) => .error cause

/-- A text is a program if anything can be computed from what it is read as. -/
theorem exists_of_parse_map {α : Type} {source : String} {f : Program × SymbolTable → α} {a : α}
    (h : (parse source).toOption.map f = some a) :
    ∃ program symbols, parse source = .ok (program, symbols) ∧ f (program, symbols) = a := by
  cases hparse : parse source with
  | error cause =>
    rw [hparse] at h
    cases h
  | ok parsed =>
    rw [hparse] at h
    exact ⟨parsed.1, parsed.2, rfl, Option.some.inj h⟩

end PascalMips
