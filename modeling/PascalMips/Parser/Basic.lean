import PascalMips.Parser.Error
import PascalMips.Symbol.Table
import PascalMips.Token.Stream

/-!
# Parsers

A parser reads tokens with one token of lookahead, declares names in a symbol table and asks it what
the names it meets stand for. The first fault ends it; the table then keeps what was declared so
far.

Repetition and nesting are bounded by a budget, the number of tokens left. Each round and each level
reads a token, so the budget lasts; a parser whose budget ran out would be `exhausted`.
-/

namespace PascalMips

/-- The tokens to read, the names known, and the subprograms whose bodies are open, the innermost
first. -/
structure Parser where
  tokens : TokenStream
  symbols : SymbolTable
  enclosing : List String

/-- What a parser came to, and its state then. -/
inductive Outcome (α : Type) where
  | ok (value : α) (rest : Parser)
  | error (cause : ParseError) (rest : Parser)
  | exhausted

/-- A parser of `α`. -/
def Parse (α : Type) : Type := Parser → Outcome α

namespace Parse

variable {α β : Type}

instance : Monad Parse where
  pure a := fun p => .ok a p
  bind x f := fun p =>
    match x p with
    | .ok a q => f a q
    | .error e q => .error e q
    | .exhausted => .exhausted

theorem pure_apply (a : α) (p : Parser) : (pure a : Parse α) p = .ok a p := rfl

theorem bind_apply (x : Parse α) (f : α → Parse β) (p : Parser) :
    (x >>= f) p =
      match x p with
      | .ok a q => f a q
      | .error e q => .error e q
      | .exhausted => .exhausted := rfl

/-! ## Tokens -/

/-- The next token, which stays. -/
def current : Parse Token := fun p => .ok p.tokens.current p

def advance : Parse Token := fun p => .ok p.tokens.current { p with tokens := p.tokens.advance }

def fail (fault : ParseFault) (location : Location) : Parse α := fun p => .error ⟨fault, location⟩ p

/-- Ends because something else was expected next. -/
def unexpected (expected : Expected) : Parse α := do
  let token ← current
  fail (.mismatch expected token.kind token.lexeme) token.location

/-- Whether the next token is of the given kind. -/
def check (kind : Kind) : Parse Bool := return (← current).kind = kind

/-- Reads the next token if it is of the given kind, and tells whether it was. -/
def accept (kind : Kind) : Parse Bool := do
  if ← check kind then
    let _ ← advance
    return true
  else
    return false

def expect (kind : Kind) : Parse Token := do
  if ← check kind then advance else unexpected (.kind kind)

/-! ## Names -/

/-- Declares the name read as `name`. -/
def declare (name : Token) (binding : Binding) : Parse Unit := fun p =>
  match p.symbols.declare? name.lexeme binding with
  | some symbols => .ok () { p with symbols := symbols }
  | none => .error ⟨.redeclared name.lexeme, name.location⟩ p

/-- What the name read as `name` stands for. -/
def resolve (name : Token) : Parse Binding := fun p =>
  match p.symbols.lookup? name.lexeme with
  | some symbol => .ok symbol.binding p
  | none => .error ⟨.undeclared name.lexeme, name.location⟩ p

/-- Whether `name` is that of a subprogram whose body is open. -/
def isEnclosing (name : String) : Parse Bool := fun p => .ok (p.enclosing.contains name) p

/-! ## Repetition -/

/-- Runs `step` until it gives nothing, at most as often as the budget allows. -/
def manyWithin (step : Parse (Option α)) : Nat → Parse (List α)
  | 0 => fun _ => .exhausted
  | budget + 1 => do
    match ← step with
    | none => return []
    | some a => return a :: (← manyWithin step budget)

/-- Runs `step` until it gives nothing. -/
def many (step : Parse (Option α)) : Parse (List α) := fun p =>
  manyWithin step (p.tokens.size + 1) p

/-- Runs `item` once, and again after each `separator`. -/
def sepBy (separator : Kind) (item : Parse α) : Parse (List α) := do
  let first ← item
  let others ← many do
    if ← accept separator then return some (← item) else return none
  return first :: others

/-! ## Nesting -/

/-- The parser `level`, which is given itself for the levels below, at most as deep as the budget
allows. -/
def nestWithin (level : Parse α → Parse α) : Nat → Parse α
  | 0 => fun _ => .exhausted
  | budget + 1 => level (nestWithin level budget)

/-- The parser `level`, which is given itself for the levels below. -/
def nest (level : Parse α → Parse α) : Parse α := fun p =>
  nestWithin level (p.tokens.size + 1) p

end Parse

end PascalMips
