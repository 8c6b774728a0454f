import PascalMips.Token.Lexer

/-!
# Token streams

A stream gives one token of lookahead over a list of tokens and stops for good at the first end
token. A list without one is closed at the position of its last token.
-/

namespace PascalMips

/-- The tokens still to be read, and the text and position of the end token that follows them. -/
structure TokenStream where
  pending : List Token
  endLexeme : String
  endLocation : Location
deriving DecidableEq

namespace TokenStream

def stop (s : TokenStream) : Token := ⟨.eof, s.endLexeme, s.endLocation⟩

/-- The end token of a list of tokens: the first one in it, or one at the position of its last
token. -/
def endOf (tokens : List Token) : Token :=
  (tokens.find? (·.kind = .eof)).getD
    ⟨.eof, "", (tokens.getLast?.map Token.location).getD Location.start⟩

def ofTokens (tokens : List Token) : TokenStream where
  pending := tokens.takeWhile (·.kind ≠ .eof)
  endLexeme := (endOf tokens).lexeme
  endLocation := (endOf tokens).location

def current (s : TokenStream) : Token := s.pending.headD s.stop

/-- The stream after its next token. The end token stays. -/
def advance (s : TokenStream) : TokenStream := { s with pending := s.pending.tail }

/-- The number of tokens before the end token. -/
def size (s : TokenStream) : Nat := s.pending.length

theorem size_advance_le (s : TokenStream) : s.advance.size ≤ s.size := by
  simp [advance, size]

/-- Reading any token but the end token leaves fewer. -/
theorem size_advance_lt {s : TokenStream} (h : s.current.kind ≠ .eof) :
    s.advance.size < s.size := by
  unfold current stop at h
  unfold advance size
  cases hp : s.pending with
  | nil => simp [hp] at h
  | cons t ts => simp

/-- The stream over the tokens of a source text. -/
def ofSource (source : String) : Except LexError TokenStream := do
  return ofTokens (← lex source)

end TokenStream

end PascalMips
