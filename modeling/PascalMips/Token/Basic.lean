import PascalMips.Text.Location

/-!
# Tokens

The vocabulary of the language: reserved words, punctuation, identifiers, numbers and the end of the
input. A token keeps the text it was read from, so a reserved word keeps its spelling.
-/

namespace PascalMips

/-- The reserved words. -/
inductive Keyword where
  | program | var | array | of | integer | real | function | procedure
  | begin_ | end_ | if_ | then_ | else_ | while_ | do_
  | not | and | or | div | mod | read | write
deriving DecidableEq

namespace Keyword

/-- The lower-case spelling of a reserved word. -/
def text : Keyword → String
  | program => "program"
  | var => "var"
  | array => "array"
  | of => "of"
  | integer => "integer"
  | real => "real"
  | function => "function"
  | procedure => "procedure"
  | begin_ => "begin"
  | end_ => "end"
  | if_ => "if"
  | then_ => "then"
  | else_ => "else"
  | while_ => "while"
  | do_ => "do"
  | not => "not"
  | and => "and"
  | or => "or"
  | div => "div"
  | mod => "mod"
  | read => "read"
  | write => "write"

def all : List Keyword :=
  [program, var, array, of, integer, real, function, procedure, begin_, end_, if_, then_, else_,
    while_, do_, not, and, or, div, mod, read, write]

theorem mem_all (k : Keyword) : k ∈ all := by cases k <;> decide

/-- The reserved word spelled by `word`, whatever the case of its letters. -/
def ofWord? (word : List Char) : Option Keyword :=
  all.find? fun k => k.text.toList = word.map Char.toLower

end Keyword

/-- The punctuation and operator signs. -/
inductive Punct where
  | semicolon | comma | period | colon | lbracket | rbracket | lparen | rparen
  | plus | minus | equal | notEqual | less | lessEqual | greater | greaterEqual
  | star | slash | assign
deriving DecidableEq

namespace Punct

def text : Punct → String
  | semicolon => ";"
  | comma => ","
  | period => "."
  | colon => ":"
  | lbracket => "["
  | rbracket => "]"
  | lparen => "("
  | rparen => ")"
  | plus => "+"
  | minus => "-"
  | equal => "="
  | notEqual => "<>"
  | less => "<"
  | lessEqual => "<="
  | greater => ">"
  | greaterEqual => ">="
  | star => "*"
  | slash => "/"
  | assign => ":="

def all : List Punct :=
  [semicolon, comma, period, colon, lbracket, rbracket, lparen, rparen, plus, minus, equal,
    notEqual, less, lessEqual, greater, greaterEqual, star, slash, assign]

theorem mem_all (p : Punct) : p ∈ all := by cases p <;> decide

end Punct

/-- What a token is. -/
inductive Kind where
  | keyword (word : Keyword)
  | punct (sign : Punct)
  | identifier
  | number
  | eof
deriving DecidableEq

namespace Kind

/-- The name of a kind in error messages. -/
def describe : Kind → String
  | keyword word => s!"'{word.text}'"
  | punct sign => s!"'{sign.text}'"
  | identifier => "identifier"
  | number => "number"
  | eof => "end of input"

/-- The name of a token of this kind in error messages. -/
def describeToken (kind : Kind) (lexeme : String) : String :=
  match kind with
  | identifier => s!"identifier '{lexeme}'"
  | number => s!"number {lexeme}"
  | _ => kind.describe

end Kind

/-- A token: what it is, the text it was read from and where that text starts. -/
structure Token where
  kind : Kind
  lexeme : String
  location : Location
deriving DecidableEq

namespace Token

def describe (t : Token) : String := t.kind.describeToken t.lexeme

end Token

end PascalMips
