import PascalMips.Proofs.Parser.Complete
import PascalMips.Proofs.Parser.Moves
import PascalMips.Proofs.Program.Reading
import PascalMips.Proofs.Token.Positions

/-!
# Parsing reads on

Why the parsing of any list of tokens comes to an end, said without budgets. A nested parser is its
level over itself, and it still is if the levels below are refused all but the states with fewer
tokens left (`Descends`): none of them is started before a token was read. A round of a repetition
that gives something has read tokens (`Advances`). This holds of all recursions and loops of the
grammar (`GrammarReadsOn`); names and parameters that were read before are declared by recursion
over their lists. Tokens are only read by advancing the stream, and that stops at the first end
token, so the position of the parser stays in the list it was given (`program_ends`).
-/

namespace PascalMips

/-- Moves read some number of tokens one by one. -/
theorem Parser.Moves.exists_iterate_advance {p q : Parser} (h : p.Moves q) :
    ∃ k ≤ p.tokens.size, q.tokens = TokenStream.advance^[k] p.tokens := by
  obtain ⟨k, hk⟩ : ∃ k, q.tokens = TokenStream.advance^[k] p.tokens := by
    induction h with
    | refl => exact ⟨0, rfl⟩
    | tail _ hmove ih =>
      obtain ⟨k, hk⟩ := ih
      cases hmove with
      | advance => exact ⟨k + 1, by rw [Function.iterate_succ_apply', ← hk]⟩
      | declare | enter | leave | leaveGlobal => exact ⟨k, hk⟩
  exact ⟨min k p.tokens.size, Nat.min_le_right .., by rw [hk, TokenStream.iterate_advance_min]⟩

namespace Parse

variable {α : Type}

/-! ## Recursion -/

/-- The parser, refused where `n` tokens or more are left. -/
def below (n : Nat) (x : Parse α) : Parse α := fun p =>
  if p.tokens.size < n then x p else .exhausted

/-- Each level reads a token before it starts the level below it, so a budget of more than the
tokens left is enough. -/
structure Descends (level : Parse α → Parse α) : Prop where
  lasts : ∀ budget (p : Parser), p.tokens.size < budget → nestWithin level budget p ≠ .exhausted
  reads : ∀ p : Parser, nest level p = level (below p.tokens.size (nest level)) p

theorem refines_below (n : Nat) (x : Parse α) : Refines (below n x) x := by
  intro p
  unfold below
  split
  · exact .inr rfl
  · exact .inl rfl

theorem settles_below {n : Nat} {x : Parse α} (h : Settles n x) : Settles n (below n x) := by
  intro p hp
  rw [below, if_pos hp]
  exact h p hp

/-- Every level of a recursion starts with fewer tokens than the level around it. -/
theorem descends {level : Parse α → Parse α}
    (hmono : ∀ {x y : Parse α}, Refines x y → Refines (level x) (level y))
    (hsettles : ∀ (n : Nat) (inner : Parse α), Settles n inner → Settles (n + 1) (level inner)) :
    Descends level where
  lasts _ _ := nestWithin_ne_exhausted hsettles
  reads p := by
    -- The refusal would show as exhaustion, which the settling of each level rules out.
    have hsettled := hsettles p.tokens.size _ (settles_below (settles_nest hsettles)) p
      (Nat.lt_succ_self _)
    rcases hmono (refines_below p.tokens.size (nest level)) p with h | h
    · rw [h] at hsettled
      exact hsettled.elim
    · rw [h, ← nest_eq hmono hsettles]

/-! ## Loops -/

/-- A round that gives something has read tokens, all of them before the end token, so a budget of
more than the tokens left is enough. -/
structure Advances (round : Parse (Option α)) : Prop where
  lasts : ∀ budget (p : Parser), p.tokens.size < budget → manyWithin round budget p ≠ .exhausted
  reads : ∀ (p q : Parser) (a : α), round p = .ok (some a) q →
    ∃ k, 0 < k ∧ k ≤ p.tokens.size ∧ q.tokens = TokenStream.advance^[k] p.tokens

/-- A round that settles, reads a token and does nothing but move advances. -/
theorem advances {round : Parse (Option α)} (hsteps : ∀ n, Steps n round) (ht : Travels round) :
    Advances round where
  lasts budget p hp h := by
    have hsettled := settles_manyWithin (hsteps budget) budget p hp hp
    rw [h] at hsettled
    exact hsettled
  reads p q a h := by
    have hmoves := ht p
    rw [h] at hmoves
    obtain ⟨k, hk, hq⟩ := Parser.Moves.exists_iterate_advance hmoves
    have hlt := (hsteps (p.tokens.size + 1)).reads p a q (Nat.lt_succ_self _) h
    rw [hq, TokenStream.size_iterate_advance] at hlt
    exact ⟨k, by omega, hk, hq⟩

theorem advances_nextItem? {separator : Kind} (hk : separator ≠ .eof) {item : Parse α}
    (hsettles : ∀ n, Settles n item) (ht : Travels item) :
    Advances (nextItem? separator item) := by
  refine advances (fun n => steps_accept hk (settles_bind (hsettles n) fun _ => settles_pure _))
    (travels_bind (related_accept congruence_travels separator) fun accepted => ?_)
  cases accepted with
  | false => exact travels_pure _
  | true => exact travels_bind ht fun _ => travels_pure _

theorem advances_operation? {op? : Kind → Option BinaryOp} (hop : op? .eof = none)
    {operand : Parse Expr} (hsettles : ∀ n, Settles n operand) (ht : Travels operand) :
    Advances (operation? op? operand) :=
  advances (fun n => steps_operation? hop (hsettles n))
    (related_operation? congruence_travels (y := operand) ht)

/-! ## The grammar -/

/-- All recursions and loops of the grammar read on. -/
structure GrammarReadsOn : Prop where
  factorNesting : Descends factorOf
  statementNesting : Descends statementOf
  subprogramNesting : Descends subprogramOf
  factorsOfProduct : Advances (operation? multiplicative? factor)
  productsOfSum : Advances (operation? additive? (product factor))
  argumentsOfCall : Advances (nextItem? (.punct .comma) expression)
  statementsOfCompound : Advances (nextStatement? statement)
  namesOfGroup : Advances (nextItem? (.punct .comma) (expect .identifier))
  groupsOfSection : Advances nextGroup?
  sectionsOfBlock : Advances variableSection?
  groupsOfParameters : Advances (nextItem? (.punct .semicolon) parameterGroup)
  subprogramsOfBlock : Advances (nextSubprogram? subprogram)

/-- The recursions and loops of the grammar all read on: each by its own lemma on progress. -/
theorem grammarReadsOn : GrammarReadsOn where
  factorNesting := descends refines_factorOf settles_factorOf
  statementNesting := descends refines_statementOf settles_statementOf
  subprogramNesting := descends refines_subprogramOf settles_subprogramOf
  factorsOfProduct :=
    advances_operation? rfl (fun _ => settles_factor) (related_factor congruence_travels)
  productsOfSum :=
    advances_operation? rfl (fun _ => settles_product settles_factor)
      (related_product congruence_travels (y := factor) (related_factor congruence_travels))
  argumentsOfCall := advances_nextItem? (by decide) (fun _ => settles_expression) travels_expression
  statementsOfCompound :=
    advances (fun _ => steps_nextStatement? settles_statement)
      (related_nextStatement? congruence_travels (y := statement)
        (related_statement congruence_travels))
  namesOfGroup :=
    advances_nextItem? (by decide) (fun _ => settles_expect _) (related_expect congruence_travels _)
  groupsOfSection := advances (fun _ => steps_nextGroup?) (related_nextGroup? congruence_travels)
  sectionsOfBlock :=
    advances (fun _ => steps_variableSection?) (related_variableSection? congruence_travels)
  groupsOfParameters :=
    advances_nextItem? (by decide) (fun _ => settles_parameterGroup)
      (related_parameterGroup congruence_travels)
  subprogramsOfBlock :=
    advances (fun _ => steps_nextSubprogram? settles_subprogram)
      (related_nextSubprogram? congruence_travels (y := subprogram)
        (related_subprogram congruence_travels))

/-- Parsing comes to an end on every list of tokens: it succeeds or fails at a position up to the
first end token, no position that it can reach lies outside the list, and all recursions and loops
of the grammar read on. -/
theorem program_ends (tokens : List Token) (symbols : SymbolTable) :
    (∀ k, ∃ c, (TokenCursor.ofTokens tokens).after k = some c ∧
      c.position = min k (TokenCursor.firstEnd tokens) ∧
      c.current? = some (TokenStream.advance^[k] (.ofTokens tokens)).current) ∧
    TokenCursor.firstEnd tokens < (TokenCursor.closed tokens).length ∧
    TokenCursor.firstEnd tokens = (TokenStream.ofTokens tokens).size ∧
    (∃ k ≤ TokenCursor.firstEnd tokens, ∃ rest : Parser,
      rest.tokens = TokenStream.advance^[k] (.ofTokens tokens) ∧
      ((∃ p, program ⟨.ofTokens tokens, symbols, []⟩ = .ok p rest) ∨
        ∃ e, program ⟨.ofTokens tokens, symbols, []⟩ = .error e rest)) ∧
    GrammarReadsOn := by
  refine ⟨fun k => ⟨_, TokenCursor.after_eq tokens k, rfl, TokenCursor.current?_min tokens k⟩,
    TokenCursor.firstEnd_lt tokens, TokenCursor.firstEnd_eq tokens, ?_, grammarReadsOn⟩
  rw [TokenCursor.firstEnd_eq]
  have hends := travels_program ⟨.ofTokens tokens, symbols, []⟩
  cases h : program ⟨.ofTokens tokens, symbols, []⟩ with
  | ok p rest =>
    rw [h] at hends
    obtain ⟨k, hk, hrest⟩ := Parser.Moves.exists_iterate_advance hends
    exact ⟨k, hk, rest, hrest, .inl ⟨p, rfl⟩⟩
  | error e rest =>
    rw [h] at hends
    obtain ⟨k, hk, hrest⟩ := Parser.Moves.exists_iterate_advance hends
    exact ⟨k, hk, rest, hrest, .inr ⟨e, rfl⟩⟩
  | exhausted => exact absurd h (program_ne_exhausted _)

end Parse

end PascalMips
