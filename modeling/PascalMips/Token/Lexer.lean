import PascalMips.Text.Blank
import PascalMips.Token.Basic

/-!
# Reading tokens from text

A text is cut, from the left, into pieces: runs of blanks and comments in braces, which are skipped,
and lexemes, each as long as the rules allow. `lex` gives the tokens of a text, closed by an end
token, or the first lexical fault and its position.

* A comment runs to the first closing brace and does not nest.
* A word is an ASCII letter and the ASCII letters and digits after it.
* A number is a run of digits, a fraction if a digit follows the point, and an exponent if there is
  an `e`; an `e` without digits is a fault, since a number cannot be followed by a word.
-/

namespace PascalMips

/-- The reasons why a text cannot be cut into tokens. -/
inductive LexFault where
  | unterminatedComment
  | unexpectedCharacter (c : Char)
  | malformedExponent (text : String)
deriving DecidableEq

namespace LexFault

def message : LexFault → String
  | unterminatedComment => "Unterminated comment"
  | unexpectedCharacter c => s!"Unexpected character: '{c}'"
  | malformedExponent text => s!"Malformed exponent in number '{text}'"

end LexFault

/-- A lexical fault and where it was found. -/
structure LexError where
  fault : LexFault
  location : Location
deriving DecidableEq

namespace LexError

def message (e : LexError) : String :=
  s!"Lexer error at {e.location.describe}: {e.fault.message}"

end LexError

namespace Lexer

/-- What stands at the front of a text: a lexeme of the given kind, or text to skip if there is
none. -/
structure Piece where
  kind : Option Kind
  text : List Char
  rest : List Char

/-! ## Numbers -/

/-- The longest fraction at the front of `cs`, and the rest. A point without a digit after it is
none. -/
def fraction (cs : List Char) : List Char × List Char :=
  match cs with
  | '.' :: rest =>
    match rest.takeWhile Char.isDigit with
    | [] => ([], cs)
    | digits => ('.' :: digits, rest.dropWhile Char.isDigit)
  | _ => ([], cs)

/-- An optional sign at the front of `cs`, and the rest. -/
def sign (cs : List Char) : List Char × List Char :=
  match cs with
  | '+' :: rest => (['+'], rest)
  | '-' :: rest => (['-'], rest)
  | _ => ([], cs)

/-- The exponent at the front of `cs`, empty if no `e` is there, and the rest; nothing if digits are
missing after the `e`. -/
def exponent? (cs : List Char) : Option (List Char × List Char) :=
  match cs with
  | [] => some ([], [])
  | e :: rest =>
    if e = 'e' ∨ e = 'E' then
      match (sign rest).2.takeWhile Char.isDigit with
      | [] => none
      | digits => some (e :: ((sign rest).1 ++ digits), (sign rest).2.dropWhile Char.isDigit)
    else some ([], cs)

/-- The number that starts with the digit `c`. -/
def number (c : Char) (rest : List Char) : Except LexFault Piece :=
  let whole := c :: rest.takeWhile Char.isDigit
  let frac := fraction (rest.dropWhile Char.isDigit)
  match exponent? frac.2 with
  | none => .error (.malformedExponent (String.ofList (whole ++ frac.1)))
  | some (expo, rest) => .ok ⟨some .number, whole ++ frac.1 ++ expo, rest⟩

/-! ## Words, signs and skipped text -/

/-- The word that starts with the letter `c`: a reserved word or an identifier. -/
def word (c : Char) (rest : List Char) : Piece :=
  let text := c :: rest.takeWhile Char.isAlphanum
  let kind :=
    match Keyword.ofWord? text with
    | some keyword => .keyword keyword
    | none => .identifier
  ⟨some kind, text, rest.dropWhile Char.isAlphanum⟩

/-- The longest sign that starts with `c`. -/
def punct? (c : Char) (rest : List Char) : Option Piece :=
  match c, rest with
  | ':', '=' :: rest => some ⟨some (.punct .assign), [':', '='], rest⟩
  | ':', rest => some ⟨some (.punct .colon), [':'], rest⟩
  | '<', '=' :: rest => some ⟨some (.punct .lessEqual), ['<', '='], rest⟩
  | '<', '>' :: rest => some ⟨some (.punct .notEqual), ['<', '>'], rest⟩
  | '<', rest => some ⟨some (.punct .less), ['<'], rest⟩
  | '>', '=' :: rest => some ⟨some (.punct .greaterEqual), ['>', '='], rest⟩
  | '>', rest => some ⟨some (.punct .greater), ['>'], rest⟩
  | ';', rest => some ⟨some (.punct .semicolon), [';'], rest⟩
  | ',', rest => some ⟨some (.punct .comma), [','], rest⟩
  | '.', rest => some ⟨some (.punct .period), ['.'], rest⟩
  | '[', rest => some ⟨some (.punct .lbracket), ['['], rest⟩
  | ']', rest => some ⟨some (.punct .rbracket), [']'], rest⟩
  | '(', rest => some ⟨some (.punct .lparen), ['('], rest⟩
  | ')', rest => some ⟨some (.punct .rparen), [')'], rest⟩
  | '+', rest => some ⟨some (.punct .plus), ['+'], rest⟩
  | '-', rest => some ⟨some (.punct .minus), ['-'], rest⟩
  | '=', rest => some ⟨some (.punct .equal), ['='], rest⟩
  | '*', rest => some ⟨some (.punct .star), ['*'], rest⟩
  | '/', rest => some ⟨some (.punct .slash), ['/'], rest⟩
  | _, _ => none

/-- The comment that the brace `c` opens. -/
def comment (c : Char) (rest : List Char) : Except LexFault Piece :=
  match rest.dropWhile (· ≠ '\x7d') with
  | [] => .error .unterminatedComment
  | close :: rest' => .ok ⟨none, c :: (rest.takeWhile (· ≠ '\x7d') ++ [close]), rest'⟩

/-- The piece at the front of the text `c :: rest`. -/
def piece (c : Char) (rest : List Char) : Except LexFault Piece :=
  if Text.isBlank c then
    .ok ⟨none, c :: rest.takeWhile Text.isBlank, rest.dropWhile Text.isBlank⟩
  else if c = '\x7b' then comment c rest
  else if c.isDigit then number c rest
  else if c.isAlpha then .ok (word c rest)
  else
    match punct? c rest with
    | some p => .ok p
    | none => .error (.unexpectedCharacter c)

/-! ## A piece is a front part of the text -/

theorem fraction_append (cs : List Char) : (fraction cs).1 ++ (fraction cs).2 = cs := by
  unfold fraction
  split
  · split
    · rfl
    · rename_i rest _ h
      simp only [List.cons_append, List.cons.injEq, true_and]
      exact List.takeWhile_append_dropWhile
  · rfl

theorem sign_append (cs : List Char) : (sign cs).1 ++ (sign cs).2 = cs := by
  unfold sign
  split <;> rfl

theorem exponent?_append {cs text rest : List Char} (h : exponent? cs = some (text, rest)) :
    text ++ rest = cs := by
  unfold exponent? at h
  split at h
  · simp_all
  · rename_i e tail
    split at h
    · split at h
      · cases h
      · simp only [Option.some.injEq, Prod.mk.injEq] at h
        obtain ⟨rfl, rfl⟩ := h
        rw [List.cons_append, List.append_assoc, List.takeWhile_append_dropWhile, sign_append]
    · simp_all

theorem number_append {c : Char} {rest : List Char} {p : Piece} (h : number c rest = .ok p) :
    p.text ++ p.rest = c :: rest := by
  simp only [number] at h
  split at h
  · cases h
  · rename_i expo after he
    cases h
    have hf := fraction_append (rest.dropWhile Char.isDigit)
    rw [List.append_assoc, exponent?_append he, List.append_assoc, hf, List.cons_append,
      List.takeWhile_append_dropWhile]

theorem word_append (c : Char) (rest : List Char) :
    (word c rest).text ++ (word c rest).rest = c :: rest := by
  simp [word]

theorem punct?_append {c : Char} {rest : List Char} {p : Piece} (h : punct? c rest = some p) :
    p.text ++ p.rest = c :: rest := by
  unfold punct? at h
  split at h <;> cases h <;> rfl

theorem comment_append {c : Char} {rest : List Char} {p : Piece} (h : comment c rest = .ok p) :
    p.text ++ p.rest = c :: rest := by
  unfold comment at h
  split at h
  · cases h
  · rename_i close after hd
    cases h
    have := List.takeWhile_append_dropWhile (p := (· ≠ '\x7d')) (l := rest)
    rw [hd] at this
    simpa using this

/-- A piece and the rest of the text make up the text, whichever scanner took it. -/
theorem piece_append {c : Char} {rest : List Char} {p : Piece} (h : piece c rest = .ok p) :
    p.text ++ p.rest = c :: rest := by
  unfold piece at h
  split at h
  · cases h; simp
  split at h
  · exact comment_append h
  split at h
  · exact number_append h
  split at h
  · cases h; exact word_append c rest
  split at h
  · rename_i q hq
    cases h; exact punct?_append hq
  · cases h

/-- No piece is empty, so each of them shortens the text. -/
theorem piece_text_ne_nil {c : Char} {rest : List Char} {p : Piece} (h : piece c rest = .ok p) :
    p.text ≠ [] := by
  unfold piece at h
  split at h
  · cases h; simp
  split at h
  · unfold comment at h
    split at h <;> cases h
    simp
  split at h
  · simp only [number] at h
    split at h <;> cases h
    simp
  split at h
  · cases h; simp [word]
  split at h
  · rename_i q hq
    cases h
    unfold punct? at hq
    split at hq <;> cases hq <;> simp
  · cases h

/-- Each piece takes at least one character, which is why reading ends. -/
theorem length_rest_le {c : Char} {rest : List Char} {p : Piece} (h : piece c rest = .ok p) :
    p.rest.length ≤ rest.length := by
  have ha := congrArg List.length (piece_append h)
  have hn := List.length_pos_iff.2 (piece_text_ne_nil h)
  simp only [List.length_append, List.length_cons] at ha
  omega

/-- The tokens of a text that starts at `loc`. -/
def tokens (loc : Location) : List Char → Except LexError (List Token)
  | [] => .ok [⟨.eof, "", loc⟩]
  | c :: rest =>
    match _piece : piece c rest with
    | .error fault => .error ⟨fault, loc⟩
    | .ok p =>
      match tokens (loc.advance p.text) p.rest with
      | .error e => .error e
      | .ok later =>
        match p.kind with
        | none => .ok later
        | some kind => .ok (⟨kind, String.ofList p.text, loc⟩ :: later)
termination_by cs => cs.length
decreasing_by
  have := length_rest_le _piece
  simp only [List.length_cons]
  omega

end Lexer

/-- The tokens of a source text, closed by an end token. -/
def lex (source : String) : Except LexError (List Token) :=
  Lexer.tokens Location.start source.toList

end PascalMips
