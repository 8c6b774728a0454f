import PascalMips.Symbol.Basic
import PascalMips.Token.Lexer

/-!
# Parse errors

The reasons why a text is not a program, each at a position, and their wording.
-/

namespace PascalMips

/-- What could have come next. -/
inductive Expected where
  | kind (kind : Kind)
  | standardType
  | statement
  | expression
deriving DecidableEq

namespace Expected

def text : Expected → String
  | kind k => k.describe
  | standardType => "'integer' or 'real'"
  | statement => "statement"
  | expression => "expression"

end Expected

/-- What a name can be used as. -/
inductive Usage where
  | target
  | factor
deriving DecidableEq

namespace Usage

/-- The roles that a name can be used in. -/
def text : Usage → String
  | target => "variable"
  | factor => "variable, array or function"

end Usage

/-- The reasons why a text is not a program. -/
inductive ParseFault where
  | lexical (fault : LexFault)
  | mismatch (expected : Expected) (found : Kind) (lexeme : String)
  | redeclared (name : String)
  | undeclared (name : String)
  | wrongRole (name : String) (found : Role) (usage : Usage)
  | arity (name : String) (expected found : Nat)
  | malformedNumber (text : String)
  | emptyBounds (bounds : Bounds)
deriving DecidableEq

/-- A fault and where it was found. -/
structure ParseError where
  fault : ParseFault
  location : Location
deriving DecidableEq

namespace ParseFault

def text : ParseFault → String
  | lexical fault => fault.message
  | mismatch expected found lexeme =>
    s!"expected {expected.text}, found {found.describeToken lexeme}"
  | redeclared name => s!"'{name}' is already declared in this scope"
  | undeclared name => s!"'{name}' is not declared"
  | wrongRole name found usage => s!"'{name}' is a {found.text}, expected {usage.text}"
  | arity name expected found => s!"'{name}' takes {expected} argument(s), {found} given"
  | malformedNumber text => s!"malformed number '{text}'"
  | emptyBounds bounds => s!"array bounds [{bounds.lo}:{bounds.hi}] are empty"

end ParseFault

namespace ParseError

def ofLexError (e : LexError) : ParseError := ⟨.lexical e.fault, e.location⟩

def message (e : ParseError) : String :=
  match e.fault with
  | .lexical fault => LexError.message ⟨fault, e.location⟩
  | fault => s!"Parse error at {e.location.describe}: {fault.text}"

end ParseError

end PascalMips
