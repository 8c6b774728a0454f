import PascalMips.Proofs.Token.Lexemes

/-!
# Tokens set apart are read back

The tokens of a text can be written out again with any gaps between them, as long as two lexemes
never touch: reading the new text succeeds with the same kinds and lexemes (`lex_respaced`). A
lexeme before a gap or the end of the text is read as the token it spells (`Lexer.piece_of_spells`),
and a gap only moves the position (`Lexer.tokens_gap`).
-/

namespace PascalMips

namespace Lexer

/-! ## What can follow a lexeme -/

/-- The text ends here, or goes on with a blank or a comment. -/
def Stops (rest : List Char) : Prop := ∀ c ∈ rest.head?, Text.isBlank c = true ∨ c = '\x7b'

/-- A gap stops a lexeme, and so does the end of the text. -/
theorem stops_append_of_gap {gap rest : List Char} (hgap : Gap gap) (h : gap ≠ [] ∨ rest = []) :
    Stops (gap ++ rest) := by
  intro c hc
  cases hgap with
  | nil =>
    obtain rfl := h.resolve_left fun hne => hne rfl
    cases hc
  | blank hblank _ =>
    obtain rfl := Option.some.inj hc
    exact .inl hblank
  | comment _ _ =>
    obtain rfl := Option.some.inj hc
    exact .inr rfl

theorem isAlphanum_eq_false_of_isBlank {c : Char} (h : Text.isBlank c = true) :
    c.isAlphanum = false := by
  rw [Bool.eq_false_iff]
  intro hletter
  have hranges := Bool.or_eq_true_iff.1 hletter
  rw [isAlpha_iff, isUpper_iff, isLower_iff, isDigit_iff] at hranges
  simp only [Text.isBlank, Text.blankRanges, List.any_cons, List.any_nil, Bool.or_eq_true,
    Bool.and_eq_true, decide_eq_true_eq, Bool.or_false] at h
  omega

theorem Stops.isAlphanum {rest : List Char} (h : Stops rest) :
    ∀ c ∈ rest.head?, c.isAlphanum = false := by
  intro c hc
  rcases h c hc with hblank | rfl
  · exact isAlphanum_eq_false_of_isBlank hblank
  · rfl

theorem Stops.isDigit {rest : List Char} (h : Stops rest) : ∀ c ∈ rest.head?, c.isDigit = false :=
  fun c hc => (Bool.or_eq_false_iff.1 (h.isAlphanum c hc)).2

theorem Stops.ne {rest : List Char} (h : Stops rest) {d : Char}
    (hd : Text.isBlank d = false ∧ d ≠ '\x7b') : ∀ c ∈ rest.head?, c ≠ d := by
  rintro c hc rfl
  rcases h c hc with hblank | hbrace
  · rw [hd.1] at hblank
    cases hblank
  · exact hd.2 hbrace

/-! ## Lexemes before a stop -/

/-- A letter or digit starts a word or a number. -/
theorem piece_of_isAlphanum {c : Char} (h : c.isAlphanum = true) (rest : List Char) :
    piece c rest = if c.isDigit then number c rest else .ok (word c rest) := by
  have hblank : ¬ Text.isBlank c = true := by
    intro hblank
    rw [isAlphanum_eq_false_of_isBlank hblank] at h
    cases h
  have hbrace : c ≠ '\x7b' := by
    rintro rfl
    cases h
  unfold piece
  rw [if_neg hblank, if_neg hbrace]
  by_cases hdigit : c.isDigit = true
  · rw [if_pos hdigit, if_pos hdigit]
  · have halpha : c.isAlpha = true := (Bool.or_eq_true_iff.1 h).resolve_right hdigit
    rw [if_neg hdigit, if_neg hdigit, if_pos halpha]

/-- A word before a stop is read as the kind that it spells. -/
theorem word_of_spells {k : Kind} {c : Char} {cs rest : List Char} (hc : c.isAlpha = true)
    (hname : Lexeme.IsName (c :: cs)) (h : k.Spells (c :: cs)) (hrest : Stops rest) :
    word c (cs ++ rest) = ⟨some k, c :: cs, rest⟩ := by
  obtain ⟨htake, hdrop⟩ :=
    span_of_stop (List.forall_mem_cons.1 hname.alphanum).2 hrest.isAlphanum
  -- The word is the whole lexeme, so its kind is the only one that the lexeme spells.
  have hspells := (longest_word (cs ++ rest) hc rfl).spells
  simp only [word, htake, hdrop] at hspells ⊢
  rw [Kind.spells_unique hspells h]

/-- An exponent before a stop is read to its end. -/
theorem exponent?_of_isExponent {exponent rest : List Char} (h : Lexeme.IsExponent exponent)
    (hrest : Stops rest) : exponent? (exponent ++ rest) = some (exponent, rest) := by
  cases h with
  | absent =>
    cases rest with
    | nil => rfl
    | cons c cs =>
      have he : ¬ (c = 'e' ∨ c = 'E') :=
        not_or.2 ⟨hrest.ne (by decide) c rfl, hrest.ne (by decide) c rfl⟩
      simp only [List.nil_append, exponent?, if_neg he]
  | @power e mark digits he hmark hdigits =>
    obtain ⟨htake, hdrop⟩ := span_of_stop hdigits.digits hrest.isDigit
    obtain ⟨d, ds, rfl⟩ := List.exists_cons_of_ne_nil hdigits.ne_nil
    simp only [exponent?, List.cons_append, List.append_assoc, if_pos he]
    rw [← List.cons_append, sign_append_digits hmark hdigits rest]
    simp only [htake, hdrop]

/-- What an exponent and a stop start with is neither a digit nor a point. -/
theorem head_exponent_of_stops {exponent rest : List Char} (h : Lexeme.IsExponent exponent)
    (hrest : Stops rest) : ∀ c ∈ (exponent ++ rest).head?, c.isDigit = false ∧ c ≠ '.' := by
  by_cases hne : exponent = []
  · subst hne
    exact fun c hc => ⟨hrest.isDigit c hc, hrest.ne (by decide) c hc⟩
  · exact head_exponent h hne rest

theorem fraction_of_isFraction {part exponent rest : List Char} (hpart : Lexeme.IsFraction part)
    (hexponent : Lexeme.IsExponent exponent) (hrest : Stops rest) :
    fraction (part ++ (exponent ++ rest)) = (part, exponent ++ rest) := by
  have hhead := head_exponent_of_stops hexponent hrest
  cases hpart with
  | absent => exact fraction_of_head fun c hc => (hhead c hc).2
  | point hdigits =>
    obtain ⟨htake, hdrop⟩ := span_of_stop hdigits.digits fun c hc => (hhead c hc).1
    obtain ⟨d, ds, rfl⟩ := List.exists_cons_of_ne_nil hdigits.ne_nil
    simp only [fraction, List.cons_append] at htake hdrop ⊢
    simp only [htake, hdrop]

/-- A number before a stop is read to its end, part by part. -/
theorem number_of_isNumber {c : Char} {cs rest : List Char} (h : Lexeme.IsNumber (c :: cs))
    (hrest : Stops rest) : number c (cs ++ rest) = .ok ⟨some .number, c :: cs, rest⟩ := by
  have hc := h.first
  generalize htext : c :: cs = text at h
  obtain @⟨whole, part, exponent, hwhole, hpart, hexponent⟩ := h
  have hstop : ∀ d ∈ (part ++ (exponent ++ rest)).head?, d.isDigit = false := by
    cases hpart with
    | absent => exact fun d hd => (head_exponent_of_stops hexponent hrest d hd).1
    | point _ =>
      intro d hd
      obtain rfl := Option.some.inj hd
      rfl
  obtain ⟨htake, hdrop⟩ := span_of_stop hwhole.digits hstop
  have hcs : whole ++ (part ++ (exponent ++ rest)) = c :: (cs ++ rest) := by
    rw [← List.cons_append, htext]
    simp only [List.append_assoc]
  rw [hcs, List.takeWhile_cons_of_pos hc] at htake
  rw [hcs, List.dropWhile_cons_of_pos hc] at hdrop
  simp only [number, htake, hdrop, fraction_of_isFraction hpart hexponent hrest,
    exponent?_of_isExponent hexponent hrest, List.append_assoc]

/-- A sign that begins a longer one is cut off by what follows it. -/
theorem punct?_of_text {sign : Punct} {c : Char} {cs rest : List Char}
    (h : c :: cs = sign.text.toList) (hrest : Stops rest) :
    punct? c (cs ++ rest) = some ⟨some (.punct sign), c :: cs, rest⟩ := by
  cases rest with
  | nil => cases sign <;> cases h <;> rfl
  | cons d ds =>
    have hequal : d ≠ '=' := hrest.ne (by decide) d rfl
    have hgreater : d ≠ '>' := hrest.ne (by decide) d rfl
    cases sign
    case colon =>
      have h : c :: cs = [':'] := h
      cases h
      simp [punct?, hequal]
    case less =>
      have h : c :: cs = ['<'] := h
      cases h
      simp [punct?, hequal, hgreater]
    case greater =>
      have h : c :: cs = ['>'] := h
      cases h
      simp [punct?, hequal]
    all_goals
      cases h
      rfl

/-- A lexeme before a stop is read as the token it spells. -/
theorem piece_of_spells {k : Kind} {c : Char} {cs rest : List Char} (h : k.Spells (c :: cs))
    (hrest : Stops rest) : piece c (cs ++ rest) = .ok ⟨some k, c :: cs, rest⟩ := by
  rcases h.cons_cases with ⟨halpha, hname, -⟩ | ⟨hdigit, rfl⟩ | ⟨halpha, hdigit, sign, rfl⟩
  · rw [piece_of_isAlphanum (isAlphanum_of_isAlpha halpha), isDigit_eq_false_of_isAlpha halpha,
      if_neg Bool.false_ne_true, word_of_spells halpha hname h hrest]
  · have halphanum : c.isAlphanum = true := Bool.or_eq_true_iff.2 (.inr hdigit)
    rw [piece_of_isAlphanum halphanum, if_pos hdigit, number_of_isNumber h hrest]
  · have hsigns : ∀ p ∈ Punct.all,
        p.text.toList.all (fun d => !Text.isBlank d && d != '\x7b') = true := by decide
    have hc := List.all_eq_true.1 (hsigns sign sign.mem_all) c (h ▸ List.mem_cons_self)
    simp only [Bool.and_eq_true, Bool.not_eq_true', bne_iff_ne] at hc
    unfold piece
    rw [if_neg (Bool.eq_false_iff.1 hc.1), if_neg hc.2, if_neg (Bool.eq_false_iff.1 hdigit),
      if_neg (Bool.eq_false_iff.1 halpha), punct?_of_text h hrest]

/-! ## Gaps -/

/-- Text that is skipped only moves the position. -/
theorem tokens_of_skipped {c : Char} {cs text rest : List Char}
    (h : piece c cs = .ok ⟨none, text, rest⟩) (loc : Location) :
    tokens loc (c :: cs) = tokens (loc.advance text) rest := by
  rw [tokens]
  split
  · next hfault =>
    rw [h] at hfault
    cases hfault
  · next p hp =>
    obtain rfl := Except.ok.inj (h.symm.trans hp)
    cases tokens (loc.advance text) rest <;> rfl

theorem tokens_of_lexeme {c : Char} {cs text rest : List Char} {k : Kind} {loc : Location}
    {ts : List Token} (h : piece c cs = .ok ⟨some k, text, rest⟩)
    (hrest : tokens (loc.advance text) rest = .ok ts) :
    tokens loc (c :: cs) = .ok (⟨k, String.ofList text, loc⟩ :: ts) := by
  rw [tokens]
  split
  · next hfault =>
    rw [h] at hfault
    cases hfault
  · next p hp =>
    obtain rfl := Except.ok.inj (h.symm.trans hp)
    simp only [hrest]

theorem piece_of_isBlank {c : Char} (h : Text.isBlank c = true) (cs : List Char) :
    piece c cs = .ok ⟨none, c :: cs.takeWhile Text.isBlank, cs.dropWhile Text.isBlank⟩ :=
  if_pos h

theorem tokens_dropWhile (loc : Location) (cs : List Char) :
    tokens (loc.advance (cs.takeWhile Text.isBlank)) (cs.dropWhile Text.isBlank) =
      tokens loc cs := by
  cases cs with
  | nil => rfl
  | cons c cs =>
    by_cases h : Text.isBlank c = true
    · rw [tokens_of_skipped (piece_of_isBlank h cs), List.takeWhile_cons_of_pos h,
        List.dropWhile_cons_of_pos h]
    · rw [List.takeWhile_cons_of_neg h, List.dropWhile_cons_of_neg h, Location.advance_nil]

theorem tokens_blank {c : Char} (h : Text.isBlank c = true) (loc : Location) (cs : List Char) :
    tokens loc (c :: cs) = tokens (loc.next c) cs := by
  -- The blanks after `c` are skipped with it, or as a piece of their own.
  rw [tokens_of_skipped (piece_of_isBlank h cs), Location.advance_cons, tokens_dropWhile]

/-- A comment is skipped. -/
theorem tokens_comment {body : List Char} (h : '\x7d' ∉ body) (loc : Location) (cs : List Char) :
    tokens loc ('\x7b' :: (body ++ '\x7d' :: cs)) =
      tokens (loc.advance ('\x7b' :: (body ++ ['\x7d']))) cs := by
  have hbody : ∀ d ∈ body, decide (d ≠ '\x7d') = true :=
    fun d hd => decide_eq_true fun heq => h (heq ▸ hd)
  have hclose : ∀ d ∈ ('\x7d' :: cs).head?, decide (d ≠ '\x7d') = false :=
    fun d hd => decide_eq_false fun hne => hne (Option.some.inj hd).symm
  obtain ⟨htake, hdrop⟩ := span_of_stop hbody hclose
  have hpiece : piece '\x7b' (body ++ '\x7d' :: cs) =
      .ok ⟨none, '\x7b' :: (body ++ ['\x7d']), cs⟩ := by
    show comment '\x7b' (body ++ '\x7d' :: cs) = _
    simp only [comment, htake, hdrop]
  exact tokens_of_skipped hpiece loc

/-- A gap only moves the position. -/
theorem tokens_gap {gap : List Char} (h : Gap gap) (loc : Location) (cs : List Char) :
    tokens loc (gap ++ cs) = tokens (loc.advance gap) cs := by
  induction h generalizing loc with
  | nil => rfl
  | blank hblank _ ih => rw [List.cons_append, tokens_blank hblank, ih, Location.advance_cons]
  | @comment body gap hbody _ ih =>
    rw [List.cons_append, List.append_assoc, List.cons_append, tokens_comment hbody, ih,
      ← Location.advance_append]
    simp only [List.cons_append, List.append_assoc, List.nil_append]

/-! ## Reading what was written -/

/-- Lexemes in gaps, no two of them touching, are read back; `last` stands for the end. -/
theorem tokens_spell {front : List Spaced} {last : Spaced}
    (hfront : ∀ p ∈ front, Gap p.gap ∧ p.token.kind.Spells p.token.lexeme.toList ∧
      p.token.kind ≠ .eof)
    (hgap : Gap last.gap) (heof : last.token.kind = .eof ∧ last.token.lexeme = "")
    (hapart : ∀ p ∈ front.tail, p.gap ≠ []) (loc : Location) :
    ∃ ts, tokens loc (Spaced.spell (front ++ [last])) = .ok ts ∧
      ts.map (fun t => (t.kind, t.lexeme)) =
        (front ++ [last]).map fun p => (p.token.kind, p.token.lexeme) := by
  have hend : Spaced.spell [last] = last.gap ++ [] := by
    simp [Spaced.spell, Spaced.text, heof.2]
  induction front generalizing loc with
  | nil =>
    refine ⟨[⟨.eof, "", loc.advance last.gap⟩], ?_, by simp [heof.1, heof.2]⟩
    rw [List.nil_append, hend, tokens_gap hgap, tokens]
  | cons p front ih =>
    obtain ⟨⟨hpgap, hspells, hkind⟩, hlater⟩ := List.forall_mem_cons.1 hfront
    have hstops : Stops (Spaced.spell (front ++ [last])) := by
      cases front with
      | nil =>
        rw [List.nil_append, hend]
        exact stops_append_of_gap hgap (.inr rfl)
      | cons q front =>
        simp only [Spaced.spell, Spaced.text, List.cons_append, List.flatMap_cons,
          List.append_assoc]
        exact stops_append_of_gap (hlater q List.mem_cons_self).1
          (.inl (hapart q List.mem_cons_self))
    cases hlexeme : p.token.lexeme.toList with
    | nil =>
      rw [hlexeme] at hspells
      exact absurd hspells.eq_eof hkind
    | cons c cs =>
      rw [hlexeme] at hspells
      obtain ⟨ts, hts, hmap⟩ := ih hlater (fun q hq => hapart q (List.mem_of_mem_tail hq))
        ((loc.advance p.gap).advance (c :: cs))
      have hread := tokens_of_lexeme (piece_of_spells hspells hstops) hts
      have hspell : Spaced.spell (p :: front ++ [last]) =
          p.gap ++ (c :: (cs ++ Spaced.spell (front ++ [last]))) := by
        simp [Spaced.spell, Spaced.text, hlexeme]
      rw [hspell, tokens_gap hpgap]
      refine ⟨_, hread, ?_⟩
      rw [← hlexeme, String.ofList_toList, List.map_cons, hmap]
      rfl

end Lexer

/-- The tokens of a source text, written out with a gap before each and after the last, are read
back, if no gap between two of them is empty. The end token, of an empty lexeme, carries the last
gap. -/
theorem lex_respaced {source : String} {ts : List Token} (h : lex source = .ok ts)
    {ps : List Spaced} (htokens : ps.map Spaced.token = ts) (hgap : ∀ p ∈ ps, Gap p.gap)
    (hapart : ∀ p ∈ ps.dropLast.tail, p.gap ≠ []) :
    ∃ ts', lex (String.ofList (Spaced.spell ps)) = .ok ts' ∧
      ts'.map (fun t => (t.kind, t.lexeme)) = ts.map fun t => (t.kind, t.lexeme) := by
  obtain ⟨qs, hqs, -, hlaid⟩ := Lexer.laid_of_tokens (Location.advance_nil _).symm h
  obtain ⟨tokens, eof, hts, heof, hempty, hne⟩ := Lexer.eof_last_of_tokens h
  have hspells : ∀ t ∈ ts, t.kind.Spells t.lexeme.toList := by
    intro t ht
    rw [← hqs] at ht
    obtain ⟨q, hq, rfl⟩ := List.mem_map.1 ht
    obtain ⟨front, back, hsplit⟩ := List.append_of_mem hq
    exact ((hlaid front q back hsplit).kind _).2 rfl
  obtain ⟨front, back, rfl, hfront, hback⟩ := List.map_eq_append_iff.1 (htokens.trans hts)
  obtain ⟨last, rfl, rfl⟩ := List.map_eq_singleton_iff.1 hback
  rw [List.dropLast_concat] at hapart
  have hlexemes : ∀ p ∈ front, Gap p.gap ∧ p.token.kind.Spells p.token.lexeme.toList ∧
      p.token.kind ≠ .eof := by
    intro p hp
    have hmem : p.token ∈ tokens := hfront ▸ List.mem_map_of_mem hp
    refine ⟨hgap p (List.mem_append_left _ hp), hspells _ ?_, hne _ hmem⟩
    rw [hts]
    exact List.mem_append_left _ hmem
  obtain ⟨ts', hlex, hmap⟩ := Lexer.tokens_spell hlexemes (hgap last (by simp)) ⟨heof, hempty⟩
    hapart Location.start
  refine ⟨ts', ?_, ?_⟩
  · rw [lex, String.toList_ofList]
    exact hlex
  · rw [hmap, ← htokens, List.map_map]
    rfl

/-- The lexemes of `spacedSource`, set apart by a blank of two bytes, a line feed, an empty comment
and comments that hold the start of another, and more. -/
def respaced : List Spaced :=
  List.zipWith Spaced.mk
    [[], ['\u00a0'], ['\n', '\t'], ['\x7b', '\x7b', '\x7d'], ['\x7b', '\x7d'], [' '],
      ['\x7b', '.', '\x7d', ' ']]
    spacedTokens

theorem lex_respaced_spacedSource : lex spacedSource = .ok spacedTokens ∧
    ∃ ts, lex "x1\u00a0:=\n\t2.5e-1\x7b\x7b\x7d<>\x7b\x7dEnd .\x7b.\x7d " = .ok ts ∧
      ts.map (fun t => (t.kind, t.lexeme)) = spacedTokens.map fun t => (t.kind, t.lexeme) := by
  have hgap : ∀ p ∈ respaced, Gap p.gap := by
    have hnested : Gap ['\x7b', '\x7b', '\x7d'] := @Gap.comment ['\x7b'] [] (by decide) .nil
    have hempty : Gap ['\x7b', '\x7d'] := @Gap.comment [] [] (by decide) .nil
    have hpoint : Gap ['\x7b', '.', '\x7d', ' '] :=
      @Gap.comment ['.'] [' '] (by decide) (.blank rfl .nil)
    simp only [respaced, spacedTokens, List.zipWith_cons_cons, List.zipWith_nil_left,
      List.forall_mem_cons]
    exact ⟨.nil, .blank rfl .nil, .blank rfl (.blank rfl .nil), hnested, hempty, .blank rfl .nil,
      hpoint, fun p hp => absurd hp List.not_mem_nil⟩
  have hapart : ∀ p ∈ respaced.dropLast.tail, p.gap ≠ [] := by decide
  have hspell : String.ofList (Spaced.spell respaced) =
      "x1\u00a0:=\n\t2.5e-1\x7b\x7b\x7d<>\x7b\x7dEnd .\x7b.\x7d " := by decide +kernel
  exact ⟨lex_spacedSource, hspell ▸ lex_respaced lex_spacedSource rfl hgap hapart⟩

end PascalMips
