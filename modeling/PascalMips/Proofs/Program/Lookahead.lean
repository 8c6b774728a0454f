import PascalMips.Proofs.Parser.Alike
import PascalMips.Proofs.Program.Descent
import PascalMips.Proofs.Program.Language

/-!
# Faults are decided by the tokens read

Two runs of a parser, side by side, over tokens that start alike and then part. Of the tokens ahead
a parser sees the next one only. So as long as that one stands before the place where the tokens
part, both runs come to the same value or the same fault, with the same names known and the same
bodies open (`Parse.OneAhead`). This goes through the grammar (`congruence_oneAhead`): a run that
comes to the place where the tokens part says nothing about the other one, and does not come back.

Where the parsing of a list of tokens fails, the tokens up to the one that it stopped at therefore
decide the fault and what was declared, whatever follows them (`fault_of_shared`). Among the lists
that start with them is the one that ends there, so the fault is located at one of them
(`exists_location_of_fault`).
-/

namespace PascalMips

/-! ## Tokens that part -/

namespace TokenStream

variable {before after : List Token}

/-- The stream behind the tokens `ahead`. -/
def behind (s : TokenStream) (ahead : List Token) : TokenStream :=
  { s with pending := ahead ++ s.pending }

theorem iterate_advance_behind (s : TokenStream) (before after : List Token) :
    advance^[before.length] (s.behind (before ++ after)) = s.behind after := by
  rw [iterate_advance, behind, List.append_assoc, List.drop_left]
  rfl

/-- Tokens in front of others that hold an end are read before them. -/
theorem ofTokens_append (hbefore : ∀ token ∈ before, token.kind ≠ .eof)
    (hafter : ∃ token ∈ after, token.kind = .eof) :
    ofTokens (before ++ after) = (ofTokens after).behind before := by
  have hpending : (before ++ after).takeWhile (·.kind ≠ .eof) =
      before ++ after.takeWhile (·.kind ≠ .eof) :=
    List.takeWhile_append_of_pos (by simpa using hbefore)
  have hend : endOf (before ++ after) = endOf after := by
    have hnone : before.find? (·.kind = .eof) = none := by simpa using hbefore
    obtain ⟨stop, hstop⟩ : ∃ stop, after.find? (·.kind = .eof) = some stop :=
      Option.isSome_iff_exists.1 (by simpa using hafter)
    rw [endOf, endOf, List.find?_append, hnone, Option.none_or, hstop, Option.getD_some,
      Option.getD_some]
  rw [ofTokens, hpending, hend]
  rfl

theorem ofTokens_cons_end {stop : Token} (h : stop.kind = .eof) (rest : List Token) :
    ofTokens (stop :: rest) = ⟨[], stop.lexeme, stop.location⟩ := by
  simp [ofTokens, endOf, h]

/-- Where a closed list is cut before its first end token, its stream is that of the second part
behind the first. -/
theorem ofTokens_of_closed {tokens : List Token} (h : TokenCursor.closed tokens = before ++ after)
    (hbefore : ∀ token ∈ before, token.kind ≠ .eof) :
    ofTokens tokens = (ofTokens after).behind before := by
  obtain ⟨rest, hclosed⟩ := TokenCursor.closed_eq tokens
  have hpending : ∀ token ∈ (ofTokens tokens).pending, token.kind ≠ .eof :=
    fun _ => TokenCursor.kind_ne_of_mem_pending
  have hstop := kind_endOf tokens
  have hafter : ∃ token ∈ after, token.kind = .eof := by
    have hmem : endOf tokens ∈ before ++ after := by
      rw [← h, hclosed]
      exact List.mem_append_right _ List.mem_cons_self
    rcases List.mem_append.1 hmem with hmem | hmem
    · exact absurd hstop (hbefore _ hmem)
    · exact ⟨endOf tokens, hmem, hstop⟩
  calc ofTokens tokens
    _ = (ofTokens (endOf tokens :: rest)).behind (ofTokens tokens).pending := by
      rw [ofTokens_cons_end hstop, behind, List.append_nil]
      rfl
    _ = ofTokens (TokenCursor.closed tokens) := by
      rw [hclosed, ofTokens_append hpending ⟨_, List.mem_cons_self, hstop⟩]
    _ = (ofTokens after).behind before := by rw [h, ofTokens_append hbefore hafter]

end TokenStream

/-- A position up to that of the first end token: the tokens before it are no end tokens. -/
theorem TokenCursor.exists_take_closed {tokens : List Token} {k : Nat} (hk : k ≤ firstEnd tokens) :
    ∃ before token, (closed tokens).take (k + 1) = before ++ [token] ∧ before.length = k ∧
      ∀ t ∈ before, t.kind ≠ .eof := by
  have hlt := Nat.lt_of_le_of_lt hk (firstEnd_lt tokens)
  refine ⟨_, _, List.take_succ_eq_append_getElem hlt, List.length_take_of_le hlt.le, ?_⟩
  obtain ⟨rest, hclosed⟩ := closed_eq tokens
  rw [firstEnd_eq] at hk
  rw [hclosed, List.take_append_of_le_length hk]
  exact fun t ht => kind_ne_of_mem_pending (List.mem_of_mem_take ht)

/-- The outcomes of two runs, over tokens in front of `s` and over the same tokens in front of `t`.
They are the same, unless the first run came to `s` or the second one was exhausted. -/
inductive Outcome.SameUntil {α : Type} (s t : TokenStream) : Outcome α → Outcome α → Prop
  | ok {a : α} {left : List Token} {symbols : SymbolTable} {enclosing : List String} :
      SameUntil s t (.ok a ⟨s.behind left, symbols, enclosing⟩)
        (.ok a ⟨t.behind left, symbols, enclosing⟩)
  | error {e : ParseError} {left : List Token} {symbols : SymbolTable} {enclosing : List String} :
      SameUntil s t (.error e ⟨s.behind left, symbols, enclosing⟩)
        (.error e ⟨t.behind left, symbols, enclosing⟩)
  | past {o o' : Outcome α} (h : o.EndsIn (·.tokens.size ≤ s.size)) : SameUntil s t o o'
  | exhausted {o : Outcome α} : SameUntil s t o .exhausted

namespace Parse

variable {α β : Type}

/-- The parsers do the same as long as the tokens that they read and the next one are the same, and
`x` gives back none. -/
structure OneAhead (x y : Parse α) : Prop where
  travels : Travels x
  same : ∀ (s t : TokenStream) (ahead : List Token) (symbols : SymbolTable)
    (enclosing : List String),
    Outcome.SameUntil s t (x ⟨s.behind ahead, symbols, enclosing⟩)
      (y ⟨t.behind ahead, symbols, enclosing⟩)

/-- The basic parsers look at one token and read it, if anything. -/
theorem oneAhead_of_basic {x : Parse α} (h : Basic x) : OneAhead x x where
  travels := travels_of_basic h
  same s t ahead symbols enclosing := by
    cases h with
    | pure a => exact .ok
    | fail fault location => exact .error
    | current =>
      cases ahead with
      | nil => exact .past (Nat.le_refl _)
      | cons token rest => exact .ok
    | advance =>
      cases ahead with
      | nil => exact .past (TokenStream.size_advance_le s)
      | cons token rest => exact .ok
    | declare name binding =>
      unfold declare
      dsimp only
      cases symbols.declare? name.lexeme binding with
      | some declared => exact .ok
      | none => exact .error
    | resolve name =>
      unfold resolve
      dsimp only
      cases symbols.lookup? name.lexeme with
      | some symbol => exact .ok
      | none => exact .error
    | isEnclosing name => exact .ok
    | procedure? name =>
      unfold procedure?
      dsimp only
      split
      · exact .ok
      · exact .ok
    | openScope name => exact .ok
    | closeScope name => exact .ok

/-- One parser after the other: the second starts where the first stops, and if that is where the
tokens part, neither has gone beyond. -/
theorem oneAhead_bind {x y : Parse α} {f g : α → Parse β} (hxy : OneAhead x y)
    (hfg : ∀ a, OneAhead (f a) (g a)) : OneAhead (x >>= f) (y >>= g) where
  travels := travels_bind hxy.travels fun a => (hfg a).travels
  same s t ahead symbols enclosing := by
    have hfirst := hxy.same s t ahead symbols enclosing
    rw [bind_apply, bind_apply]
    generalize x ⟨s.behind ahead, symbols, enclosing⟩ = o at hfirst ⊢
    generalize y ⟨t.behind ahead, symbols, enclosing⟩ = o' at hfirst ⊢
    cases hfirst with
    | ok => exact (hfg _).same s t _ _ _
    | error => exact .error
    | exhausted => exact .exhausted
    | past hpast =>
      -- No token is given back, so what follows stays past the place where the tokens part.
      cases o with
      | ok a q =>
        exact .past (((hfg a).travels q).mono fun r hr =>
          (Parser.Moves.suffix hr).length_le.trans hpast)
      | error e q => exact .past hpast
      | exhausted => exact .past trivial

/-- The budgets of the two runs may differ, since they depend on all tokens ahead. -/
theorem oneAhead_manyWithin {x y : Parse (Option α)} (hxy : OneAhead x y) (budget budget' : Nat) :
    OneAhead (manyWithin x budget) (manyWithin y budget') := by
  induction budget generalizing budget' with
  | zero => exact ⟨fun _ => trivial, fun _ _ _ _ _ => .past trivial⟩
  | succ budget ih =>
    have hround (more : Nat) : OneAhead (manyWithin x (budget + 1)) (manyWithin y (more + 1)) := by
      refine oneAhead_bind hxy fun a? => ?_
      cases a? with
      | none => exact oneAhead_of_basic (.pure _)
      | some a => exact oneAhead_bind (ih more) fun _ => oneAhead_of_basic (.pure _)
    cases budget' with
    | zero => exact ⟨(hround 0).travels, fun _ _ _ _ _ => .exhausted⟩
    | succ more => exact hround more

/-- Nesting looks one token ahead if each level does. The budgets are those of two texts of
different lengths. -/
theorem oneAhead_nestWithin {level : Parse α → Parse α}
    (hlevel : ∀ x y, OneAhead x y → OneAhead (level x) (level y)) (budget budget' : Nat) :
    OneAhead (nestWithin level budget) (nestWithin level budget') := by
  induction budget generalizing budget' with
  | zero => exact ⟨fun _ => trivial, fun _ _ _ _ _ => .past trivial⟩
  | succ budget ih =>
    cases budget' with
    | zero => exact ⟨(hlevel _ _ (ih 0)).travels, fun _ _ _ _ _ => .exhausted⟩
    | succ more => exact hlevel _ _ (ih more)

/-- Looking one token ahead is a congruence, so the whole parser does no more than that. -/
theorem congruence_oneAhead : Congruence fun _ x y => OneAhead x y where
  basic := oneAhead_of_basic
  bind := oneAhead_bind
  many hxy := ⟨travels_many hxy.travels, fun s t ahead symbols enclosing =>
    (oneAhead_manyWithin hxy _ _).same s t ahead symbols enclosing⟩
  nest hlevel := ⟨fun p => (oneAhead_nestWithin hlevel _ 0).travels p,
    fun s t ahead symbols enclosing =>
      (oneAhead_nestWithin hlevel _ _).same s t ahead symbols enclosing⟩

/-! ## The first fault -/

/-- The parser has read `k` of the tokens: a cursor that is advanced as often stands at position
`k`. -/
structure StoppedAt (tokens : List Token) (k : Nat) (p : Parser) : Prop where
  stream : p.tokens = TokenStream.advance^[k] (.ofTokens tokens)
  cursor : (TokenCursor.ofTokens tokens).after k = some ⟨TokenCursor.closed tokens, k⟩

/-- A parser has stopped at a position if it has read the tokens before it. -/
theorem stoppedAt_iff {tokens : List Token} {k : Nat} {p : Parser} :
    StoppedAt tokens k p ↔
      k ≤ TokenCursor.firstEnd tokens ∧ p.tokens = TokenStream.advance^[k] (.ofTokens tokens) := by
  have hcursor : (TokenCursor.ofTokens tokens).after k = some ⟨TokenCursor.closed tokens, k⟩ ↔
      k ≤ TokenCursor.firstEnd tokens := by
    rw [TokenCursor.after_eq, Option.some.injEq, TokenCursor.mk.injEq, and_iff_right rfl]
    omega
  exact ⟨fun h => ⟨hcursor.1 h.cursor, h.stream⟩, fun h => ⟨h.2, hcursor.2 h.1⟩⟩

/-- There is one position at which a parser has stopped. -/
theorem StoppedAt.unique {tokens : List Token} {j k : Nat} {p : Parser}
    (hj : StoppedAt tokens j p) (hk : StoppedAt tokens k p) : j = k := by
  obtain ⟨hj, hstream⟩ := stoppedAt_iff.1 hj
  obtain ⟨hk, hstream'⟩ := stoppedAt_iff.1 hk
  have hsize := congrArg TokenStream.size (hstream.symm.trans hstream')
  rw [TokenStream.size_iterate_advance, TokenStream.size_iterate_advance,
    ← TokenCursor.firstEnd_eq] at hsize
  omega

theorem exists_stoppedAt {tokens : List Token} {symbols : SymbolTable} {e : ParseError}
    {rest : Parser} (h : program ⟨.ofTokens tokens, symbols, []⟩ = .error e rest) :
    ∃ k, StoppedAt tokens k rest := by
  have hmoves := travels_program ⟨.ofTokens tokens, symbols, []⟩
  rw [h] at hmoves
  obtain ⟨k, hk, hstream⟩ := Parser.Moves.exists_iterate_advance hmoves
  exact ⟨k, stoppedAt_iff.2 ⟨TokenCursor.firstEnd_eq tokens ▸ hk, hstream⟩⟩

/-- Lists with the same tokens up to a position of the first one give the same stream, if an end
token stands there, or streams behind these tokens. -/
theorem shared_of_take {tokens others : List Token} {k : Nat}
    (hk : k ≤ TokenCursor.firstEnd tokens)
    (hothers : (TokenCursor.closed others).take (k + 1) =
      (TokenCursor.closed tokens).take (k + 1)) :
    TokenStream.ofTokens others = .ofTokens tokens ∨
      ∃ (s t : TokenStream) (before : List Token) (token : Token), before.length = k ∧
        .ofTokens tokens = s.behind (before ++ [token]) ∧
        .ofTokens others = t.behind (before ++ [token]) := by
  obtain ⟨before, token, htake, hlength, hbefore⟩ := TokenCursor.exists_take_closed hk
  have hclosed {list : List Token} (hlist : (TokenCursor.closed list).take (k + 1) =
      before ++ [token]) : ∃ after, TokenCursor.closed list = before ++ token :: after :=
    ⟨_, by rw [List.append_cons, ← hlist, List.take_append_drop]⟩
  obtain ⟨after, hafter⟩ := hclosed htake
  obtain ⟨after', hafter'⟩ := hclosed (hothers.trans htake)
  by_cases hend : token.kind = .eof
  · left
    rw [TokenStream.ofTokens_of_closed hafter hbefore,
      TokenStream.ofTokens_of_closed hafter' hbefore, TokenStream.ofTokens_cons_end hend,
      TokenStream.ofTokens_cons_end hend]
  · right
    have hshared : ∀ t ∈ before ++ [token], t.kind ≠ .eof := by
      simpa [or_imp, forall_and] using ⟨hbefore, hend⟩
    rw [List.append_cons] at hafter hafter'
    exact ⟨_, _, before, token, hlength, TokenStream.ofTokens_of_closed hafter hshared,
      TokenStream.ofTokens_of_closed hafter' hshared⟩

/-- The tokens up to the one that the parser stopped at decide the fault and the table. -/
theorem fault_of_shared {tokens others : List Token} {symbols : SymbolTable} {e : ParseError}
    {rest : Parser} {k : Nat} (h : program ⟨.ofTokens tokens, symbols, []⟩ = .error e rest)
    (hrest : StoppedAt tokens k rest)
    (hothers : (TokenCursor.closed others).take (k + 1) =
      (TokenCursor.closed tokens).take (k + 1)) :
    ∃ rest', program ⟨.ofTokens others, symbols, []⟩ = .error e rest' ∧ StoppedAt others k rest' ∧
      rest'.symbols = rest.symbols := by
  obtain ⟨hk, hstream⟩ := stoppedAt_iff.1 hrest
  rcases shared_of_take hk hothers with heq | ⟨s, t, before, token, rfl, hs, ht⟩
  · have hstopped : StoppedAt others k rest :=
      stoppedAt_iff.2 ⟨by rwa [TokenCursor.firstEnd_eq, heq, ← TokenCursor.firstEnd_eq],
        by rwa [heq]⟩
    exact ⟨rest, by rwa [heq], hstopped, rfl⟩
  · rw [hs, TokenStream.iterate_advance_behind] at hstream
    have hsame := (related_program congruence_oneAhead).same s t (before ++ [token]) symbols []
    rw [← hs, ← ht, h] at hsame
    generalize hrun : program ⟨.ofTokens others, symbols, []⟩ = o at hsame
    cases hsame with
    | @error _ left symbols' enclosing =>
      obtain rfl : left = [token] :=
        List.append_cancel_right (congrArg TokenStream.pending hstream)
      refine ⟨_, rfl, stoppedAt_iff.2 ⟨?_, ?_⟩, rfl⟩
      · rw [TokenCursor.firstEnd_eq, ht]
        simp [TokenStream.behind, TokenStream.size]
      · rw [ht, TokenStream.iterate_advance_behind]
    | past hpast =>
      have hsize : rest.tokens.size ≤ s.size := hpast
      rw [hstream] at hsize
      exact absurd hsize (Nat.not_succ_le_self _)
    | exhausted => exact absurd hrun (program_ne_exhausted _)

end Parse

/-! ## Where faults are located -/

theorem TokenStream.exists_location_endOf {tokens : List Token} (h : tokens ≠ []) :
    ∃ token ∈ tokens, token.location = (endOf tokens).location := by
  unfold endOf
  cases hfind : tokens.find? (·.kind = .eof) with
  | some stop => exact ⟨stop, List.mem_of_find?_eq_some hfind, rfl⟩
  | none =>
    refine ⟨tokens.getLast h, List.getLast_mem h, ?_⟩
    rw [List.getLast?_eq_some_getLast h]
    rfl

theorem TokenCursor.take_closed (tokens : List Token) :
    (closed tokens).take tokens.length = tokens := by
  unfold closed
  split
  · exact List.take_length
  · exact List.take_left

namespace Parse

/-- Positions are only passed on, so a fault has that of a token. -/
theorem exists_location_of_fault {tokens : List Token} (hne : tokens ≠ []) {symbols : SymbolTable}
    {e : ParseError} {rest : Parser}
    (h : program ⟨.ofTokens tokens, symbols, []⟩ = .error e rest) :
    ∃ token ∈ tokens, token.location = e.location := by
  let P (l _ : Location) : Prop := ∃ token ∈ tokens, token.location = l
  have hnear : (TokenStream.ofTokens tokens).Near P (.ofTokens tokens) := by
    refine ⟨List.forall₂_same.2 fun token htoken => ?_, TokenStream.exists_location_endOf hne⟩
    exact ⟨⟨rfl, fun _ => rfl⟩, token, (List.takeWhile_sublist _).mem htoken, rfl⟩
  have hagree := agree_program (P := P) ⟨.ofTokens tokens, symbols, []⟩ _ ⟨hnear, rfl, rfl⟩
  rw [h] at hagree
  cases hagree with
  | error _ hlocation => exact hlocation

/-- Where the parsing of a list of tokens fails, it has stopped at one position. The fault is
located at a token up to that position, and every list with the same tokens up to there has the same
fault, found at the same position, and leaves the same table. -/
theorem fault_decided {tokens : List Token} {symbols : SymbolTable} {e : ParseError}
    {rest : Parser} (h : program ⟨.ofTokens tokens, symbols, []⟩ = .error e rest) :
    ∃ k, (∀ j, StoppedAt tokens j rest ↔ j = k) ∧
      (∃ token ∈ (TokenCursor.closed tokens).take (k + 1), token.location = e.location) ∧
      ∀ others : List Token,
        (TokenCursor.closed others).take (k + 1) = (TokenCursor.closed tokens).take (k + 1) →
        ∃ rest', program ⟨.ofTokens others, symbols, []⟩ = .error e rest' ∧
          StoppedAt others k rest' ∧ rest'.symbols = rest.symbols := by
  obtain ⟨k, hk⟩ := exists_stoppedAt h
  refine ⟨k, fun j => ⟨fun hj => hj.unique hk, fun hj => hj ▸ hk⟩, ?_,
    fun others => fault_of_shared h hk⟩
  -- The tokens up to the position make a list of their own, which has the same fault.
  have hlength : ((TokenCursor.closed tokens).take (k + 1)).length = k + 1 :=
    List.length_take_of_le
      (Nat.lt_of_le_of_lt (stoppedAt_iff.1 hk).1 (TokenCursor.firstEnd_lt tokens))
  have hshared := TokenCursor.take_closed ((TokenCursor.closed tokens).take (k + 1))
  rw [hlength] at hshared
  obtain ⟨rest', hfault, -⟩ := fault_of_shared h hk hshared
  exact exists_location_of_fault (List.ne_nil_of_length_eq_add_one hlength) hfault

/-- The fault of a failure and the state then. -/
def failure? {α : Type} : Outcome α → Option (ParseError × Parser)
  | .ok _ _ => none
  | .error cause rest => some (cause, rest)
  | .exhausted => none

theorem eq_error_of_failure? {α : Type} {o : Outcome α} {e : ParseError} {rest : Parser}
    (h : failure? o = some (e, rest)) : o = .error e rest := by
  cases o with
  | error cause q =>
    cases h
    rfl
  | ok a q => cases h
  | exhausted => cases h

/-- A call with too few arguments, up to the word behind it, and what follows. -/
def shortCall (rest : String) : List Token :=
  Program.tokensOf ["program p; procedure q(x: real); ", "begin end; begin q end", rest]

/-- The arguments are counted when the word behind the call is next, at position 16. -/
theorem shortCall_decided : ∃ rest rest',
    program ⟨.ofTokens (shortCall "."), .empty, []⟩ =
      .error ⟨.arity "q" 1 0, ⟨1, 51⟩⟩ rest ∧
    StoppedAt (shortCall ".") 16 rest ∧
    shortCall "; 7 begin" ≠ shortCall "." ∧
    program ⟨.ofTokens (shortCall "; 7 begin"), .empty, []⟩ =
      .error ⟨.arity "q" 1 0, ⟨1, 51⟩⟩ rest' ∧
    rest'.symbols = rest.symbols := by
  have hrun : (failure? (program ⟨.ofTokens (shortCall "."), .empty, []⟩)).map
      (fun failure => (failure.1, failure.2.tokens)) =
      some (⟨.arity "q" 1 0, ⟨1, 51⟩⟩, TokenStream.advance^[16] (.ofTokens (shortCall "."))) := by
    decide +kernel
  have htokens : 16 ≤ TokenCursor.firstEnd (shortCall ".") ∧
      shortCall "; 7 begin" ≠ shortCall "." ∧
      (TokenCursor.closed (shortCall "; 7 begin")).take 17 =
        (TokenCursor.closed (shortCall ".")).take 17 := by
    decide +kernel
  obtain ⟨⟨e, rest⟩, hfailure, hfacts⟩ := Option.map_eq_some_iff.1 hrun
  obtain ⟨rfl, hstream⟩ := Prod.mk.inj hfacts
  have h := eq_error_of_failure? hfailure
  have hstopped : StoppedAt (shortCall ".") 16 rest := stoppedAt_iff.2 ⟨htokens.1, hstream⟩
  obtain ⟨k, hk, -, hothers⟩ := fault_decided h
  obtain rfl := (hk 16).1 hstopped
  obtain ⟨rest', h', -, hsymbols⟩ := hothers _ htokens.2.2
  exact ⟨rest, rest', h, hstopped, htokens.2.1, h', hsymbols⟩

end Parse

end PascalMips
