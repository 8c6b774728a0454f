import PascalMips.Proofs.Token.Respacing

/-!
# Where reading tokens fails

A text can be cut off anywhere behind a piece without a change to the piece: what a lexeme is not
extended by, the end of the text does not extend it by either (`Lexer.piece_of_begins`). So where
`lex` fails, the text in front of the fault can be read on its own, and the fault lies in what
stands there: a character that starts nothing, a comment without an end, or a number whose exponent
has no digits (`offends_of_lex`).
-/

namespace PascalMips

namespace Lexer

/-! ## Cutting the text behind a piece -/

theorem mem_head?_of_begins {cs ds : List Char} (h : cs <+: ds) {c : Char} (hc : c ∈ cs.head?) :
    c ∈ ds.head? := by
  obtain ⟨tail, rfl⟩ := h
  cases cs with
  | nil => cases hc
  | cons d cs => exact hc

/-- The character after a run is not one of the run. -/
theorem eq_false_of_mem_head?_dropWhile {f : Char → Bool} {cs : List Char} {c : Char}
    (hc : c ∈ (cs.dropWhile f).head?) : f c = false := by
  have hnot := List.head?_dropWhile_not f cs
  rw [Option.mem_def.1 hc] at hnot
  exact hnot

/-- A run stays the same if the text is cut behind it. -/
theorem span_of_begins {f : Char → Bool} {cs front : List Char} (h : front <+: cs.dropWhile f) :
    (cs.takeWhile f ++ front).takeWhile f = cs.takeWhile f ∧
      (cs.takeWhile f ++ front).dropWhile f = front :=
  span_of_stop (fun c hc => List.all_eq_true.1 List.all_takeWhile c hc) fun _ hc =>
    eq_false_of_mem_head?_dropWhile (mem_head?_of_begins h hc)

/-- The same fraction is taken if the text behind it is cut off somewhere. -/
theorem fraction_of_begins {cs front : List Char} (h : front <+: (fraction cs).2) :
    fraction ((fraction cs).1 ++ front) = ((fraction cs).1, front) := by
  unfold fraction at h
  split at h
  · next rest =>
    split at h
    · next hnone =>
      -- A point without digits: what is left of it has no digits either.
      have hempty : (fraction ('.' :: rest)).1 = [] := by simp only [fraction, hnone]
      rw [hempty, List.nil_append]
      cases front with
      | nil => rfl
      | cons c front =>
        obtain ⟨rfl, hfront⟩ := List.cons_prefix_cons.1 h
        have hdigits : front.takeWhile Char.isDigit = [] := by
          cases front with
          | nil => rfl
          | cons d front =>
            obtain ⟨tail, rfl⟩ := hfront
            rw [List.cons_append, List.takeWhile_cons] at hnone
            split at hnone
            · cases hnone
            · next hd => rw [List.takeWhile_cons, if_neg hd]
        simp only [fraction, hdigits]
    · next hsome =>
      obtain ⟨htake, hdrop⟩ := span_of_begins h
      obtain ⟨d, ds, hdigits⟩ := List.exists_cons_of_ne_nil hsome
      have hpart : (fraction ('.' :: rest)).1 = '.' :: d :: ds := by simp only [fraction, hdigits]
      rw [hdigits] at htake hdrop
      simp only [hpart, List.cons_append] at htake hdrop ⊢
      simp only [fraction, htake, hdrop]
  · next hpoint =>
    have hempty : fraction cs = ([], cs) :=
      fraction_of_head fun c hc => by
        rintro rfl
        obtain ⟨tail, rfl⟩ := List.head?_eq_some_iff.1 hc
        exact hpoint tail rfl
    rw [hempty, List.nil_append]
    refine fraction_of_head fun c hc => ?_
    rintro rfl
    obtain ⟨tail, rfl⟩ := List.head?_eq_some_iff.1 (mem_head?_of_begins h hc)
    exact hpoint tail rfl

/-- So is an exponent. -/
theorem exponent?_of_begins {cs text rest front : List Char} (h : exponent? cs = some (text, rest))
    (hfront : front <+: rest) : exponent? (text ++ front) = some (text, front) := by
  unfold exponent? at h
  split at h
  · cases h
    rw [List.prefix_nil.1 hfront]
    rfl
  · next e tail =>
    split at h
    · next he =>
      split at h
      · cases h
      · next hne =>
        cases h
        obtain ⟨htake, hdrop⟩ := span_of_begins hfront
        have hdigits := isDigits_takeWhile hne
        simp only [exponent?, List.cons_append, List.append_assoc, if_pos he,
          sign_append_digits (sign_cases tail) hdigits, htake, hdrop]
    · next he =>
      cases h
      cases front with
      | nil => rfl
      | cons c front =>
        obtain rfl := (List.cons_prefix_cons.1 hfront).1
        simp only [List.nil_append, exponent?, if_neg he]

/-- The reader gives the piece also where the text is cut off after `front`. -/
def GivesCut (read : Char → List Char → Except LexFault Piece) (c : Char) (p : Piece)
    (front : List Char) : Prop :=
  ∃ cs, p.text = c :: cs ∧ read c (cs ++ front) = .ok ⟨p.kind, p.text, front⟩

/-- So is a number. -/
theorem number_of_begins {c : Char} {rest front : List Char} {p : Piece}
    (h : number c rest = .ok p) (hfront : front <+: p.rest) : GivesCut number c p front := by
  simp only [number] at h
  split at h
  · cases h
  · next expo after hexpo =>
    cases h
    have hcut := exponent?_of_begins hexpo hfront
    have hpart : expo ++ front <+: (fraction (rest.dropWhile Char.isDigit)).2 := by
      rw [← exponent?_append hexpo]
      exact (List.prefix_append_right_inj _).2 hfront
    have hwhole : (fraction (rest.dropWhile Char.isDigit)).1 ++ (expo ++ front) <+:
        rest.dropWhile Char.isDigit := by
      obtain ⟨tail, htail⟩ := hpart
      exact ⟨tail, by rw [List.append_assoc, htail, fraction_append]⟩
    obtain ⟨htake, hdrop⟩ := span_of_begins hwhole
    refine ⟨_, by simp only [List.cons_append, List.append_assoc]; rfl, ?_⟩
    simp only [number, List.append_assoc, htake, hdrop, fraction_of_begins hpart, hcut,
      List.cons_append]

theorem word_of_begins {c : Char} {rest front : List Char} (hfront : front <+: (word c rest).rest) :
    GivesCut (fun c rest => .ok (word c rest)) c (word c rest) front := by
  obtain ⟨htake, hdrop⟩ := span_of_begins hfront
  refine ⟨rest.takeWhile Char.isAlphanum, rfl, ?_⟩
  simp only [word, htake, hdrop]

/-- So is a sign: what follows decides only whether a longer sign is there, and less of it makes
none. -/
theorem punct?_of_begins {c : Char} {rest front : List Char} {p : Piece}
    (h : punct? c rest = some p) (hfront : front <+: p.rest) :
    ∃ cs, p.text = c :: cs ∧ punct? c (cs ++ front) = some ⟨p.kind, p.text, front⟩ := by
  unfold punct? at h
  split at h
  case h_2 hequal | h_7 hequal =>
    cases h
    refine ⟨[], rfl, ?_⟩
    cases front with
    | nil => rfl
    | cons d front =>
      obtain ⟨tail, rfl⟩ := hfront
      have hd : d ≠ '=' := by
        rintro rfl
        exact hequal _ rfl
      simp [punct?, hd]
  case h_5 hequal hgreater =>
    cases h
    refine ⟨[], rfl, ?_⟩
    cases front with
    | nil => rfl
    | cons d front =>
      obtain ⟨tail, rfl⟩ := hfront
      have hd : d ≠ '=' := by
        rintro rfl
        exact hequal _ rfl
      have hd' : d ≠ '>' := by
        rintro rfl
        exact hgreater _ rfl
      simp [punct?, hd, hd']
  case h_20 => cases h
  all_goals
    cases h
    exact ⟨_, rfl, rfl⟩

/-- So is a comment, which ends at its brace. -/
theorem comment_of_begins {c : Char} {rest front : List Char} {p : Piece}
    (h : comment c rest = .ok p) (hfront : front <+: p.rest) : GivesCut comment c p front := by
  unfold comment at h
  split at h
  · cases h
  · next close after hdrop =>
    cases h
    have hclose : close :: front <+: rest.dropWhile (· ≠ '\x7d') := by
      rw [hdrop]
      exact List.cons_prefix_cons.2 ⟨rfl, hfront⟩
    obtain ⟨htake, hdrop⟩ := span_of_begins hclose
    refine ⟨_, rfl, ?_⟩
    simp only [comment, List.append_assoc, List.cons_append, List.nil_append, htake, hdrop]

/-- A piece stays the same if the text is cut behind it. -/
theorem piece_of_begins {c : Char} {rest front : List Char} {p : Piece}
    (h : piece c rest = .ok p) (hfront : front <+: p.rest) : GivesCut piece c p front := by
  unfold GivesCut
  unfold piece at h ⊢
  split at h
  · next hblank =>
    cases h
    obtain ⟨htake, hdrop⟩ := span_of_begins hfront
    refine ⟨_, rfl, ?_⟩
    simp only [if_pos hblank, htake, hdrop]
  · next hblank =>
    simp only [if_neg hblank]
    split at h
    · next hbrace =>
      simp only [if_pos hbrace]
      exact comment_of_begins h hfront
    · next hbrace =>
      simp only [if_neg hbrace]
      split at h
      · next hdigit =>
        simp only [if_pos hdigit]
        exact number_of_begins h hfront
      · next hdigit =>
        simp only [if_neg hdigit]
        split at h
        · next halpha =>
          cases h
          simp only [if_pos halpha]
          exact word_of_begins hfront
        · next halpha =>
          simp only [if_neg halpha]
          split at h
          · next q hq =>
            cases h
            obtain ⟨cs, htext, hcut⟩ := punct?_of_begins hq hfront
            exact ⟨cs, htext, by rw [hcut]⟩
          · cases h

end Lexer

/-! ## What a digit goes on with -/

namespace Lexeme

theorem IsDigits.snoc {cs : List Char} {d : Char} (h : ∀ c ∈ cs, c.isDigit = true)
    (hd : d.isDigit = true) : IsDigits (cs ++ [d]) := by
  refine ⟨List.append_ne_nil_of_right_ne_nil _ (List.cons_ne_nil _ _), fun c hc => ?_⟩
  rcases List.mem_append.1 hc with hold | hnew
  · exact h c hold
  · exact List.mem_singleton.1 hnew ▸ hd

/-- A number goes on with a digit. -/
theorem IsNumber.snoc {cs : List Char} {d : Char} (h : IsNumber cs) (hd : d.isDigit = true) :
    IsNumber (cs ++ [d]) := by
  obtain @⟨whole, part, exponent, hwhole, hpart, hexponent⟩ := h
  cases hexponent with
  | @power e mark digits he hmark hdigits =>
    have hlonger : IsExponent (e :: (mark ++ (digits ++ [d]))) :=
      .power he hmark (.snoc hdigits.digits hd)
    simpa only [List.append_assoc, List.cons_append] using IsNumber.intro hwhole hpart hlonger
  | absent =>
    cases hpart with
    | @point digits hdigits =>
      have hlonger : IsFraction ('.' :: (digits ++ [d])) := .point (.snoc hdigits.digits hd)
      simpa only [List.append_nil, List.append_assoc, List.cons_append] using
        IsNumber.intro hwhole hlonger .absent
    | absent =>
      have hlonger : IsDigits (whole ++ [d]) := .snoc hwhole.digits hd
      simpa only [List.append_nil] using IsNumber.intro hlonger .absent .absent

theorem IsName.snoc {cs : List Char} {d : Char} (h : IsName cs) (hd : d.isDigit = true) :
    IsName (cs ++ [d]) := by
  obtain @⟨c, cs, hfirst, hlater⟩ := h
  refine .intro hfirst fun b hb => ?_
  rcases List.mem_append.1 hb with hold | hnew
  · exact hlater b hold
  · rw [List.mem_singleton.1 hnew]
    exact Bool.or_eq_true_iff.2 (.inr hd)

/-- A name is a reserved word or an identifier. -/
theorem IsName.exists_spells {cs : List Char} (h : IsName cs) : ∃ k : Kind, k.Spells cs := by
  by_cases hword : ∃ word : Keyword, cs.map Char.toLower = word.text.toList
  · obtain ⟨word, hword⟩ := hword
    exact ⟨.keyword word, hword⟩
  · exact ⟨.identifier, h, not_exists.1 hword⟩

end Lexeme

/-- A lexeme that ends in a letter or digit goes on with a digit. -/
theorem Kind.Spells.snoc {k : Kind} {cs : List Char} {c d : Char} (h : k.Spells cs)
    (hc : c ∈ cs.getLast?) (halphanum : c.isAlphanum = true) (hd : d.isDigit = true) :
    ∃ k' : Kind, k'.Spells (cs ++ [d]) := by
  cases k with
  | keyword word => exact ((Lexeme.isName_of_keyword h).snoc hd).exists_spells
  | identifier => exact (h.1.snoc hd).exists_spells
  | number => exact ⟨.number, Lexeme.IsNumber.snoc h hd⟩
  | punct sign =>
    have hsigns : ∀ p ∈ Punct.all, p.text.toList.all (fun d => !d.isAlphanum) = true := by decide
    have hmem : c ∈ sign.text.toList := h ▸ List.mem_of_getLast? hc
    have hnot := List.all_eq_true.1 (hsigns sign sign.mem_all) c hmem
    rw [halphanum] at hnot
    cases hnot
  | eof =>
    cases h
    cases hc

/-- A gap ends in a blank or a brace. -/
theorem Gap.isAlphanum_getLast? {cs : List Char} (h : Gap cs) :
    ∀ c ∈ cs.getLast?, c.isAlphanum = false := by
  induction h with
  | nil => exact fun c hc => nomatch hc
  | @blank b cs hblank _ ih =>
    intro c hc
    cases cs with
    | nil =>
      obtain rfl := Option.some.inj hc
      exact Lexer.isAlphanum_eq_false_of_isBlank hblank
    | cons d cs => exact ih c (by rwa [List.getLast?_cons_cons] at hc)
  | @comment body cs _ _ ih =>
    intro c hc
    rw [← List.cons_append, List.getLast?_append] at hc
    cases cs with
    | nil =>
      obtain rfl := Option.some.inj hc
      rfl
    | cons d cs =>
      rw [List.getLast?_cons_cons, Option.or_of_isSome (by simp)] at hc
      exact ih c hc

namespace Lexer

/-- A digit that starts a piece does not go on with the piece before it. -/
theorem isAlphanum_getLast?_of_piece {c d : Char} {rest after : List Char} {p : Piece}
    (h : piece c rest = .ok p) (hafter : p.rest = d :: after) (hd : d.isDigit = true) :
    ∀ b ∈ p.text.getLast?, b.isAlphanum = false := by
  intro b hb
  cases hkind : p.kind with
  | none => exact (gap_of_piece h hkind).isAlphanum_getLast? b hb
  | some k =>
    have hlongest := longest_of_piece h hkind
    rw [Bool.eq_false_iff]
    intro halphanum
    obtain ⟨k', hspells⟩ := hlongest.spells.snoc hb halphanum hd
    have hle := hlongest.longest k' _ hspells (by
      rw [hafter]
      exact ⟨after, by simp⟩)
    rw [List.length_append, List.length_singleton] at hle
    omega

end Lexer

/-! ## What stands at a fault -/

/-- Digits, and a point with digits after it or nothing. -/
inductive Lexeme.IsDecimal : List Char → Prop
  | intro {whole fraction : List Char} (hwhole : IsDigits whole) (hfraction : IsFraction fraction) :
      IsDecimal (whole ++ fraction)

/-- After the text `before`, nothing can be read from the text `rest`, for the reason that the
message tells: its first character starts neither a token nor a comment, it opens a comment that is
not closed, or it is the first digit of a number that breaks off in its exponent. -/
inductive Offends (before : List Char) : List Char → String → Prop
  | character {c : Char} {rest : List Char} (hblank : Text.isBlank c = false)
      (hcomment : c ≠ '\x7b') (htoken : ∀ (k : Kind) (cs : List Char), ¬ k.Spells (c :: cs)) :
      Offends before (c :: rest) s!"Unexpected character: '{c}'"
  | comment {rest : List Char} (hclose : '\x7d' ∉ rest) :
      Offends before ('\x7b' :: rest) "Unterminated comment"
  | exponent {decimal : String} {e : Char} {rest : List Char}
      (hfirst : ∀ c ∈ before.getLast?, c.isAlphanum = false)
      (hdecimal : Lexeme.IsDecimal decimal.toList)
      (hlongest : ∀ cs, Lexeme.IsDecimal cs → cs <+: decimal.toList ++ e :: rest →
        cs.length ≤ decimal.toList.length)
      (he : e = 'e' ∨ e = 'E')
      (hdigit : ∀ sign digit more, sign = [] ∨ sign = ['+'] ∨ sign = ['-'] →
        digit.isDigit = true → rest ≠ sign ++ digit :: more) :
      Offends before (decimal.toList ++ e :: rest) s!"Malformed exponent in number '{decimal}'"

namespace Lexer

/-- Where no sign is found, and neither a letter nor a digit stands, no token is spelled. -/
theorem not_spells_of_punct? {c : Char} {rest : List Char} (hdigit : c.isDigit = false)
    (halpha : c.isAlpha = false) (h : punct? c rest = none) (k : Kind) (cs : List Char) :
    ¬ k.Spells (c :: cs) := by
  intro hspells
  rcases hspells.cons_cases with ⟨hletter, -⟩ | ⟨hnumber, -⟩ | ⟨-, -, sign, rfl⟩
  · rw [halpha] at hletter
    cases hletter
  · rw [hdigit] at hnumber
    cases hnumber
  · unfold punct? at h
    split at h
    case h_20 => cases sign <;> simp_all [Kind.Spells, Punct.text]
    all_goals cases h

/-- The fraction that is taken is as long as any at the start of the text. -/
theorem length_le_fraction_append {part tail : List Char} (h : Lexeme.IsFraction part) :
    part.length ≤ (fraction (part ++ tail)).1.length := by
  cases h with
  | absent => exact Nat.zero_le _
  | @point digits hdigits =>
    have hle := length_le_takeWhile hdigits.digits (List.prefix_append digits tail)
    have hpos := List.length_pos_iff.2 hdigits.ne_nil
    simp only [fraction, List.cons_append]
    split
    · next hnil =>
      rw [hnil, List.length_nil] at hle
      omega
    · simp only [List.length_cons]
      omega

/-- The digits and the fraction that a number starts with are the longest there. -/
theorem length_le_decimal {c : Char} {rest cs : List Char} (hc : c.isDigit = true)
    (h : Lexeme.IsDecimal cs) (hbegins : cs <+: c :: rest) :
    cs.length ≤ (c :: rest.takeWhile Char.isDigit ++
      (fraction (rest.dropWhile Char.isDigit)).1).length := by
  have htake : c :: rest.takeWhile Char.isDigit = (c :: rest).takeWhile Char.isDigit := by simp [hc]
  have hdrop : rest.dropWhile Char.isDigit = (c :: rest).dropWhile Char.isDigit := by simp [hc]
  rw [htake, hdrop]
  obtain ⟨tail, htail⟩ := hbegins
  rw [← htail]
  obtain @⟨whole, part, hwhole, hpart⟩ := h
  rw [List.append_assoc, List.length_append, List.length_append]
  by_cases hnone : part = []
  · have hle := length_le_takeWhile hwhole.digits (List.prefix_append whole (part ++ tail))
    rw [hnone, List.length_nil]
    rw [hnone] at hle
    omega
  · have hstop := head_part hpart .absent (by rwa [List.append_nil]) tail
    rw [List.append_nil] at hstop
    obtain ⟨hrun, hrest⟩ := span_of_stop hwhole.digits hstop
    rw [hrun, hrest]
    exact Nat.add_le_add_left (length_le_fraction_append hpart) _

/-- An exponent is refused where its letter stands and no digits follow. -/
theorem of_exponent?_eq_none {cs : List Char} (h : exponent? cs = none) :
    ∃ e rest, cs = e :: rest ∧ (e = 'e' ∨ e = 'E') ∧
      (sign rest).2.takeWhile Char.isDigit = [] := by
  unfold exponent? at h
  split at h
  · cases h
  · next e rest =>
    split at h
    · next he =>
      split at h
      · next hnone => exact ⟨e, rest, rfl, he, hnone⟩
      · cases h
    · cases h

/-- A number that is refused has an exponent without digits, and that is what offends. -/
theorem offends_of_number {before : List Char} {c : Char} {rest : List Char} {fault : LexFault}
    (hc : c.isDigit = true) (hfirst : ∀ b ∈ before.getLast?, b.isAlphanum = false)
    (h : number c rest = .error fault) : Offends before (c :: rest) fault.message := by
  simp only [number] at h
  split at h
  · next hexpo =>
    cases h
    obtain ⟨e, after, hafter, he, hnone⟩ := of_exponent?_eq_none hexpo
    let decimal := c :: rest.takeWhile Char.isDigit ++ (fraction (rest.dropWhile Char.isDigit)).1
    have htext : c :: rest = decimal ++ e :: after := by
      rw [← hafter, List.append_assoc, fraction_append, List.cons_append,
        List.takeWhile_append_dropWhile]
    have hdecimal : Lexeme.IsDecimal decimal :=
      .intro ⟨List.cons_ne_nil _ _,
          List.forall_mem_cons.2 ⟨hc, fun d hd => List.all_eq_true.1 List.all_takeWhile d hd⟩⟩
        (isFraction_fraction _)
    have hlist : (String.ofList decimal).toList = decimal := String.toList_ofList
    rw [htext, ← hlist]
    refine .exponent hfirst (hlist.symm ▸ hdecimal) (fun cs hcs hbegins => ?_) he ?_
    · rw [hlist] at hbegins ⊢
      exact length_le_decimal hc hcs (htext ▸ hbegins)
    · rintro mark digit more hmark hdigit rfl
      have hdigits : Lexeme.IsDigits [digit] :=
        ⟨List.cons_ne_nil _ _, fun d hd => List.mem_singleton.1 hd ▸ hdigit⟩
      have hsign : sign (mark ++ digit :: more) = (mark, digit :: more) :=
        sign_append_digits hmark hdigits more
      rw [hsign, List.takeWhile_cons_of_pos hdigit] at hnone
      cases hnone
  · cases h

/-- What stands where a piece cannot be read. -/
theorem offends_of_piece {before : List Char} {c : Char} {rest : List Char} {fault : LexFault}
    (hfirst : c.isDigit = true → ∀ b ∈ before.getLast?, b.isAlphanum = false)
    (h : piece c rest = .error fault) : Offends before (c :: rest) fault.message := by
  unfold piece at h
  split at h
  · cases h
  next hblank =>
  split at h
  · next hbrace =>
    subst hbrace
    unfold comment at h
    split at h
    · next hdrop =>
      cases h
      refine .comment fun hclose => ?_
      have hwhole : rest.takeWhile (· ≠ '\x7d') = rest := by
        rw [← List.append_nil (rest.takeWhile _), ← hdrop, List.takeWhile_append_dropWhile]
      have hother := List.all_eq_true.1 List.all_takeWhile _ (hwhole.symm ▸ hclose)
      exact of_decide_eq_true hother rfl
    · cases h
  next hbrace =>
  split at h
  · next hdigit => exact offends_of_number hdigit (hfirst hdigit) h
  next hdigit =>
  split at h
  · cases h
  next halpha =>
  split at h
  · cases h
  · next hpunct =>
    cases h
    exact .character (Bool.eq_false_iff.2 hblank) hbrace
      (not_spells_of_punct? (Bool.eq_false_iff.2 hdigit) (Bool.eq_false_iff.2 halpha) hpunct)

/-! ## Reading up to a fault -/

/-- The text `before` can be read from `loc` on, and the fault lies in the piece at the front of
`c :: rest`, which a digit starts only where the text before does not go on with it. -/
structure FailsAfter (loc : Location) (before : List Char) (c : Char) (rest : List Char)
    (e : LexError) : Prop where
  reads : ∃ ts, tokens loc before = .ok ts
  location : e.location = loc.advance before
  apart : c.isDigit = true → ∀ b ∈ before.getLast?, b.isAlphanum = false
  fault : piece c rest = .error e.fault

/-- If there is a fault, it stands after pieces that were read, by induction over the pieces. -/
theorem failsAfter_of_tokens {loc : Location} {cs : List Char} {e : LexError}
    (h : tokens loc cs = .error e) :
    ∃ before c rest, cs = before ++ c :: rest ∧ FailsAfter loc before c rest e := by
  fun_induction tokens loc cs with
  | case1 => cases h
  | case2 loc c rest fault hpiece =>
    cases h
    exact ⟨[], c, rest, rfl, ⟨_, by rw [tokens]⟩, rfl, fun _ _ hb => (by cases hb), hpiece⟩
  | case3 loc c rest p hpiece e' hlater ih =>
    cases h
    obtain ⟨before, d, after, hrest, hfails⟩ := ih hlater
    obtain ⟨cs, htext, hcut⟩ :=
      piece_of_begins hpiece (hrest ▸ List.prefix_append before (d :: after))
    obtain ⟨ts, hts⟩ := hfails.reads
    refine ⟨p.text ++ before, d, after, ?_, ?_, ?_, fun hd b hb => ?_, hfails.fault⟩
    · rw [← piece_append hpiece, hrest, List.append_assoc]
    · rw [htext, List.cons_append]
      cases hkind : p.kind with
      | none =>
        rw [hkind] at hcut
        exact ⟨ts, by rw [tokens_of_skipped hcut, hts]⟩
      | some k =>
        rw [hkind] at hcut
        exact ⟨_, tokens_of_lexeme hcut hts⟩
    · rw [Location.advance_append]
      exact hfails.location
    · -- The last character before the fault is that of this piece if nothing lies between them.
      cases before with
      | nil =>
        rw [List.append_nil] at hb
        exact isAlphanum_getLast?_of_piece hpiece hrest hd b hb
      | cons b' before =>
        rw [List.getLast?_append, Option.or_of_isSome (by simp)] at hb
        exact hfails.apart hd b hb
  | case4 => cases h
  | case5 => cases h

end Lexer

/-- Where a text cannot be read, the fault is located at a point up to which it can, and what stands
there is what the message says. -/
theorem offends_of_lex {source : String} {e : LexError} (h : lex source = .error e) :
    ∃ before rest : List Char, source.toList = before ++ rest ∧
      e.location.line = 1 + before.count '\n' ∧
      e.location.column = 1 + (before.reverse.takeWhile (· ≠ '\n')).length ∧
      (∃ ts, lex (String.ofList before) = .ok ts) ∧ Offends before rest e.fault.message := by
  obtain ⟨before, c, rest, hsource, hfails⟩ := Lexer.failsAfter_of_tokens h
  refine ⟨before, c :: rest, hsource, ?_, ?_, ?_, Lexer.offends_of_piece hfails.apart hfails.fault⟩
  · rw [hfails.location, Location.line_advance, Location.start]
  · rw [hfails.location, Location.column_advance]
  · rw [lex, String.toList_ofList]
    exact hfails.reads

/-- A number that breaks off in its exponent, after a number before a point, a comment and a line
feed. -/
def brokenSource : String := "x<3.\x7be\x7d\n12.5e+y"

theorem offends_brokenSource : lex brokenSource = .error ⟨.malformedExponent "12.5", ⟨2, 1⟩⟩ ∧
    ∃ before rest : List Char, brokenSource.toList = before ++ rest ∧
      2 = 1 + before.count '\n' ∧ 1 = 1 + (before.reverse.takeWhile (· ≠ '\n')).length ∧
      (∃ ts, lex (String.ofList before) = .ok ts) ∧
      Offends before rest "Malformed exponent in number '12.5'" := by
  have hlex : lex brokenSource = .error ⟨.malformedExponent "12.5", ⟨2, 1⟩⟩ := by
    have hfault : Except.rec (motive := fun _ => Option LexError) some (fun _ => none)
        (lex brokenSource) = some ⟨.malformedExponent "12.5", ⟨2, 1⟩⟩ := by decide +kernel
    cases h : lex brokenSource with
    | error e =>
      rw [h] at hfault
      rw [Option.some.inj hfault]
    | ok ts =>
      rw [h] at hfault
      cases hfault
  exact ⟨hlex, offends_of_lex hlex⟩

end PascalMips
