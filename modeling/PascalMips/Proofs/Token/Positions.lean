import Mathlib.Data.List.TakeWhile
import Mathlib.Logic.Function.Iterate
import PascalMips.Token.Stream

/-!
# Token streams by position

A stream can also be kept as a list of tokens that is closed by an end token, and the position of
the next one (`TokenCursor`). Reading is then a look into the list, which could miss it. It does
not: however often the cursor is advanced, its position is at most that of the first end token, and
the token there is the one that the stream is at (`after_eq`, `current?_min`).
-/

namespace PascalMips

/-- A list of tokens and the position of the next one. -/
structure TokenCursor where
  tokens : List Token
  position : Nat

namespace TokenCursor

/-- The tokens with an end token behind them, unless the last is one. -/
def closed (tokens : List Token) : List Token :=
  if tokens.getLast?.map Token.kind = some .eof then tokens
  else tokens ++ [⟨.eof, "", (tokens.getLast?.map Token.location).getD Location.start⟩]

def ofTokens (tokens : List Token) : TokenCursor := ⟨closed tokens, 0⟩

/-- The token at the position, unless that lies outside the list. -/
def current? (c : TokenCursor) : Option Token := c.tokens[c.position]?

/-- The cursor after its next token, unless there is none. An end token is not passed. -/
def advance? (c : TokenCursor) : Option TokenCursor :=
  c.current?.map fun token =>
    if token.kind = .eof then c else { c with position := c.position + 1 }

/-- The cursor after a number of tokens. -/
def after (c : TokenCursor) : Nat → Option TokenCursor
  | 0 => some c
  | k + 1 => (c.after k).bind advance?

/-- The position of the first end token. -/
def firstEnd (tokens : List Token) : Nat := (closed tokens).findIdx (·.kind = .eof)

end TokenCursor

namespace TokenStream

theorem kind_endOf (tokens : List Token) : (endOf tokens).kind = .eof := by
  unfold endOf
  cases h : tokens.find? (·.kind = .eof) with
  | none => rfl
  | some token => simpa using List.find?_some h

theorem stop_ofTokens (tokens : List Token) : (ofTokens tokens).stop = endOf tokens := by
  rw [stop, ← kind_endOf tokens]
  rfl

theorem iterate_advance (s : TokenStream) (k : Nat) :
    advance^[k] s = { s with pending := s.pending.drop k } := by
  induction k with
  | zero => rfl
  | succ k ih => rw [Function.iterate_succ_apply', ih, advance, List.tail_drop]

theorem size_iterate_advance (s : TokenStream) (k : Nat) :
    (advance^[k] s).size = s.size - k := by
  rw [iterate_advance, size, List.length_drop, size]

theorem iterate_advance_min (s : TokenStream) (k : Nat) :
    advance^[min k s.size] s = advance^[k] s := by
  rw [iterate_advance, iterate_advance]
  rcases Nat.le_total k s.size with h | h
  · rw [Nat.min_eq_left h]
  · rw [Nat.min_eq_right h, List.drop_eq_nil_of_le h, size, List.drop_length]

theorem current_iterate_advance (s : TokenStream) (k : Nat) :
    (advance^[k] s).current = s.pending[k]?.getD s.stop := by
  rw [iterate_advance, current, List.headD_eq_head?_getD, List.head?_drop]
  rfl

end TokenStream

namespace TokenCursor

open TokenStream (endOf)

/-- The closed list starts with the tokens before the end of the stream and its end token. -/
theorem closed_eq (tokens : List Token) :
    ∃ rest, closed tokens = (TokenStream.ofTokens tokens).pending ++ endOf tokens :: rest := by
  have hpending : (TokenStream.ofTokens tokens).pending = tokens.takeWhile (·.kind ≠ .eof) := rfl
  rw [hpending, endOf]
  cases h : tokens.find? (·.kind = .eof) with
  | some token =>
    obtain ⟨hkind, before, rest, rfl, hbefore⟩ := List.find?_eq_some_iff_append.1 h
    have htake : (before ++ token :: rest).takeWhile (·.kind ≠ .eof) = before := by
      rw [List.takeWhile_append_of_pos (by simpa using hbefore), List.takeWhile_cons_of_neg
        (by simpa using hkind), List.append_nil]
    rw [htake, Option.getD_some]
    unfold closed
    split
    · exact ⟨rest, rfl⟩
    · exact ⟨_, List.append_assoc ..⟩
  | none =>
    have hkinds : ∀ token ∈ tokens, token.kind ≠ .eof := by simpa using h
    have htake : tokens.takeWhile (·.kind ≠ .eof) = tokens :=
      List.takeWhile_eq_self_iff.2 (by simpa using hkinds)
    have hlast : tokens.getLast?.map Token.kind ≠ some .eof := by
      intro hlast
      obtain ⟨token, htoken, hkind⟩ := Option.map_eq_some_iff.1 hlast
      exact hkinds token (List.mem_of_getLast? htoken) hkind
    rw [htake, closed, if_neg hlast]
    exact ⟨[], rfl⟩

theorem kind_ne_of_mem_pending {tokens : List Token} {token : Token}
    (h : token ∈ (TokenStream.ofTokens tokens).pending) : token.kind ≠ .eof := by
  simpa using List.mem_takeWhile_imp h

/-- The stream ends at the first end token. -/
theorem firstEnd_eq (tokens : List Token) :
    firstEnd tokens = (TokenStream.ofTokens tokens).size := by
  obtain ⟨rest, hclosed⟩ := closed_eq tokens
  have hpending : ¬(TokenStream.ofTokens tokens).pending.findIdx (·.kind = .eof) <
      (TokenStream.ofTokens tokens).pending.length := by
    rw [List.findIdx_lt_length]
    rintro ⟨token, htoken, hkind⟩
    exact kind_ne_of_mem_pending htoken (of_decide_eq_true hkind)
  rw [firstEnd, hclosed, List.findIdx_append, if_neg hpending, List.findIdx_cons,
    TokenStream.kind_endOf, decide_eq_true rfl, cond_true, Nat.zero_add, TokenStream.size]

theorem firstEnd_lt (tokens : List Token) : firstEnd tokens < (closed tokens).length := by
  obtain ⟨rest, hclosed⟩ := closed_eq tokens
  rw [firstEnd_eq, hclosed, List.length_append, TokenStream.size, List.length_cons]
  omega

/-- The stream is at its end token from the position of the first end token on. -/
theorem kind_current_eq_eof_iff (tokens : List Token) (k : Nat) :
    (TokenStream.advance^[k] (.ofTokens tokens)).current.kind = .eof ↔ firstEnd tokens ≤ k := by
  rw [TokenStream.current_iterate_advance, firstEnd_eq, TokenStream.size]
  cases h : (TokenStream.ofTokens tokens).pending[k]? with
  | none => exact iff_of_true rfl (List.getElem?_eq_none_iff.1 h)
  | some token =>
    refine iff_of_false (kind_ne_of_mem_pending (List.mem_of_getElem? h)) ?_
    exact Nat.not_le.2 (List.getElem?_eq_some_iff.1 h).1

theorem current?_min (tokens : List Token) (k : Nat) :
    current? ⟨closed tokens, min k (firstEnd tokens)⟩ =
      some (TokenStream.advance^[k] (.ofTokens tokens)).current := by
  obtain ⟨rest, hclosed⟩ := closed_eq tokens
  rw [firstEnd_eq, ← TokenStream.iterate_advance_min, TokenStream.current_iterate_advance, current?,
    hclosed]
  rcases Nat.lt_or_ge k (TokenStream.ofTokens tokens).size with h | h
  · rw [Nat.min_eq_left (Nat.le_of_lt h), List.getElem?_append_left h, List.getElem?_eq_getElem h,
      Option.getD_some]
  · rw [Nat.min_eq_right h, TokenStream.size, List.getElem?_append_right (Nat.le_refl _),
      Nat.sub_self, List.getElem?_cons_zero, List.getElem?_eq_none (Nat.le_refl _),
      Option.getD_none, TokenStream.stop_ofTokens]

/-- However often a cursor is advanced, it stays in its list and stops at the first end token. -/
theorem after_eq (tokens : List Token) (k : Nat) :
    (ofTokens tokens).after k = some ⟨closed tokens, min k (firstEnd tokens)⟩ := by
  induction k with
  | zero => rw [after, Nat.zero_min, ofTokens]
  | succ k ih =>
    rw [after, ih, Option.bind_some, advance?, current?_min, Option.map_some]
    by_cases h : firstEnd tokens ≤ k
    · rw [if_pos ((kind_current_eq_eof_iff tokens k).2 h), Nat.min_eq_right h,
        Nat.min_eq_right (Nat.le_succ_of_le h)]
    · have hlt := Nat.not_le.1 h
      rw [if_neg (mt (kind_current_eq_eof_iff tokens k).1 h), Nat.min_eq_left (Nat.le_of_lt hlt),
        Nat.min_eq_left hlt]

end TokenCursor

end PascalMips
