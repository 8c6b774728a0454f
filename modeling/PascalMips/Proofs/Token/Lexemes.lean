import PascalMips.Token.Lexer

/-!
# A text is its lexemes and the gaps between them

What spells a token is said here without the lexer: `Kind.Spells` gives the texts of each kind, and
no text spells two of them (`Kind.spells_unique`). A gap is made of blanks and closed comments. When
`lex` succeeds, the source is the gaps and lexemes of its tokens in turn, each token has the kind
that its lexeme spells and the position where the lexeme stands, and each lexeme is the longest
front part of the text from there on that spells any token (`spaced_of_lex`).
-/

namespace PascalMips

/-! ## Texts that spell a token -/

namespace Lexeme

/-- A run of digits. -/
structure IsDigits (cs : List Char) : Prop where
  ne_nil : cs ≠ []
  digits : ∀ c ∈ cs, c.isDigit = true

/-- An ASCII letter, and ASCII letters and digits after it. -/
inductive IsName : List Char → Prop
  | intro {c : Char} {cs : List Char} (first : c.isAlpha = true)
      (later : ∀ d ∈ cs, d.isAlphanum = true) : IsName (c :: cs)

/-- A point and digits, or nothing. -/
inductive IsFraction : List Char → Prop
  | absent : IsFraction []
  | point {digits : List Char} (h : IsDigits digits) : IsFraction ('.' :: digits)

/-- An `e` of either case, a sign if there is one, and digits; or nothing. -/
inductive IsExponent : List Char → Prop
  | absent : IsExponent []
  | power {e : Char} {sign digits : List Char} (he : e = 'e' ∨ e = 'E')
      (hsign : sign = [] ∨ sign = ['+'] ∨ sign = ['-']) (h : IsDigits digits) :
      IsExponent (e :: (sign ++ digits))

/-- Digits, a fraction and an exponent. -/
inductive IsNumber : List Char → Prop
  | intro {whole fraction exponent : List Char} (hwhole : IsDigits whole)
      (hfraction : IsFraction fraction) (hexponent : IsExponent exponent) :
      IsNumber (whole ++ (fraction ++ exponent))

end Lexeme

/-- The text spells a token of this kind: reserved words in letters of any case, and names only where
they are no reserved words. -/
def Kind.Spells : Kind → List Char → Prop
  | keyword word, cs => cs.map Char.toLower = word.text.toList
  | punct sign, cs => cs = sign.text.toList
  | identifier, cs =>
    Lexeme.IsName cs ∧ ∀ word : Keyword, cs.map Char.toLower ≠ word.text.toList
  | number, cs => Lexeme.IsNumber cs
  | eof, cs => cs = []

/-- What lies between two lexemes: blanks, and comments up to the first closing brace. -/
inductive Gap : List Char → Prop
  | nil : Gap []
  | blank {c : Char} {cs : List Char} (h : Text.isBlank c = true) (later : Gap cs) : Gap (c :: cs)
  | comment {body cs : List Char} (h : '\x7d' ∉ body) (later : Gap cs) :
      Gap ('\x7b' :: (body ++ '\x7d' :: cs))

/-- Two gaps side by side are one. -/
theorem Gap.append {cs ds : List Char} (h : Gap cs) (h' : Gap ds) : Gap (cs ++ ds) := by
  induction h with
  | nil => exact h'
  | blank hc _ ih => exact .blank hc ih
  | comment hbody _ ih =>
    rw [List.cons_append, List.append_assoc, List.cons_append]
    exact .comment hbody ih

/-! ### The first character tells words, numbers and signs apart -/

theorem isUpper_iff {c : Char} : c.isUpper = true ↔ 65 ≤ c.toNat ∧ c.toNat ≤ 90 := by
  show decide (c.val ≥ 'A'.val ∧ c.val ≤ 'Z'.val) = true ↔ _
  simp [UInt32.le_iff_toNat_le]

theorem isLower_iff {c : Char} : c.isLower = true ↔ 97 ≤ c.toNat ∧ c.toNat ≤ 122 := by
  show (decide (c.val ≥ 'a'.val) && decide (c.val ≤ 'z'.val)) = true ↔ _
  simp [UInt32.le_iff_toNat_le]

theorem isDigit_iff {c : Char} : c.isDigit = true ↔ 48 ≤ c.toNat ∧ c.toNat ≤ 57 := by
  show (decide (c.val ≥ '0'.val) && decide (c.val ≤ '9'.val)) = true ↔ _
  simp [UInt32.le_iff_toNat_le]

theorem isAlpha_iff {c : Char} : c.isAlpha = true ↔ c.isUpper = true ∨ c.isLower = true :=
  Bool.or_eq_true_iff

/-- Only letters become letters in small print. -/
theorem isAlpha_of_isAlpha_toLower {c : Char} (h : c.toLower.isAlpha = true) : c.isAlpha = true := by
  unfold Char.toLower at h
  split at h
  · next hupper =>
    refine isAlpha_iff.2 (.inl (isUpper_iff.2 ?_))
    simpa [UInt32.le_iff_toNat_le] using hupper
  · exact h

theorem isDigit_eq_false_of_isAlpha {c : Char} (h : c.isAlpha = true) : c.isDigit = false := by
  rw [Bool.eq_false_iff]
  intro hdigit
  rw [isAlpha_iff, isUpper_iff, isLower_iff] at h
  rw [isDigit_iff] at hdigit
  omega

theorem isAlphanum_of_isAlpha {c : Char} (h : c.isAlpha = true) : c.isAlphanum = true := by
  simp [Char.isAlphanum, h]

namespace Lexeme

theorem IsName.alphanum {cs : List Char} (h : IsName cs) : ∀ c ∈ cs, c.isAlphanum = true := by
  obtain ⟨hfirst, hlater⟩ := h
  exact List.forall_mem_cons.2 ⟨isAlphanum_of_isAlpha hfirst, hlater⟩

/-- A reserved word is a name, whatever the case of its letters. -/
theorem isName_of_keyword {word : Keyword} {cs : List Char}
    (h : cs.map Char.toLower = word.text.toList) : IsName cs := by
  have halpha : ∀ c ∈ cs, c.isAlpha = true := by
    intro c hc
    have hmem : c.toLower ∈ word.text.toList := h ▸ List.mem_map_of_mem hc
    have hletters : ∀ k ∈ Keyword.all, k.text.toList.all Char.isAlpha = true := by decide
    exact isAlpha_of_isAlpha_toLower (List.all_eq_true.1 (hletters word word.mem_all) _ hmem)
  cases cs with
  | nil =>
    have hne : ∀ k ∈ Keyword.all, k.text.toList ≠ [] := by decide
    exact absurd h.symm (hne word word.mem_all)
  | cons c cs =>
    obtain ⟨hfirst, hlater⟩ := List.forall_mem_cons.1 halpha
    exact ⟨hfirst, fun d hd => isAlphanum_of_isAlpha (hlater d hd)⟩

/-- A number starts with a digit. -/
theorem IsNumber.first {c : Char} {cs : List Char} (h : IsNumber (c :: cs)) :
    c.isDigit = true := by
  generalize htext : c :: cs = text at h
  obtain @⟨whole, fraction, exponent, hwhole, -, -⟩ := h
  cases whole with
  | nil => exact absurd rfl hwhole.ne_nil
  | cons d ds =>
    cases htext
    exact hwhole.digits _ List.mem_cons_self

end Lexeme

namespace Kind

/-- A lexeme starts with a letter if it is a word, with a digit if it is a number, and with neither
if it is a sign. -/
theorem Spells.cons_cases {k : Kind} {c : Char} {cs : List Char} (h : k.Spells (c :: cs)) :
    (c.isAlpha = true ∧ Lexeme.IsName (c :: cs) ∧ (k = identifier ∨ ∃ word, k = keyword word)) ∨
    (c.isDigit = true ∧ k = number) ∨
    (c.isAlpha = false ∧ c.isDigit = false ∧ ∃ sign, k = punct sign) := by
  cases k with
  | keyword word =>
    have hname := Lexeme.isName_of_keyword h
    cases hname with
    | intro hfirst hlater => exact .inl ⟨hfirst, .intro hfirst hlater, .inr ⟨word, rfl⟩⟩
  | identifier =>
    obtain ⟨hname, -⟩ := h
    cases hname with
    | intro hfirst hlater => exact .inl ⟨hfirst, .intro hfirst hlater, .inl rfl⟩
  | number => exact .inr (.inl ⟨Lexeme.IsNumber.first h, rfl⟩)
  | punct sign =>
    have hsigns : ∀ p ∈ Punct.all, p.text.toList.all (fun d => !d.isAlpha && !d.isDigit) = true := by
      decide
    have hc := List.all_eq_true.1 (hsigns sign sign.mem_all) c (h ▸ List.mem_cons_self)
    simp only [Bool.and_eq_true, Bool.not_eq_true'] at hc
    exact .inr (.inr ⟨hc.1, hc.2, sign, rfl⟩)
  | eof => cases h

/-- Nothing but the end is spelled by the empty text. -/
theorem Spells.eq_eof {k : Kind} (h : k.Spells []) : k = eof := by
  cases k with
  | keyword word => cases Lexeme.isName_of_keyword h
  | identifier => cases h.1
  | number =>
    generalize htext : ([] : List Char) = text at h
    cases h with
    | intro hwhole => exact absurd (List.append_eq_nil_iff.1 htext.symm).1 hwhole.ne_nil
  | punct sign =>
    have hne : ∀ p ∈ Punct.all, [] ≠ p.text.toList := by decide
    exact absurd h (hne sign sign.mem_all)
  | eof => rfl

theorem eq_of_keyword_text {v w : Keyword} (h : v.text.toList = w.text.toList) : v = w := by
  have hall : ∀ v ∈ Keyword.all, ∀ w ∈ Keyword.all, v.text.toList = w.text.toList → v = w := by
    decide
  exact hall v v.mem_all w w.mem_all h

theorem eq_of_punct_text {p q : Punct} (h : p.text.toList = q.text.toList) : p = q := by
  have hall : ∀ p ∈ Punct.all, ∀ q ∈ Punct.all, p.text.toList = q.text.toList → p = q := by
    decide
  exact hall p p.mem_all q q.mem_all h

/-- No text spells two kinds. -/
theorem spells_unique {k k' : Kind} {cs : List Char} (h : k.Spells cs) (h' : k'.Spells cs) :
    k = k' := by
  cases cs with
  | nil => rw [h.eq_eof, h'.eq_eof]
  | cons c cs =>
    rcases h.cons_cases with ⟨halpha, -, hk⟩ | ⟨hdigit, rfl⟩ | ⟨halpha, hdigit, p, rfl⟩ <;>
      rcases h'.cons_cases with ⟨halpha', -, hk'⟩ | ⟨hdigit', rfl⟩ | ⟨halpha', hdigit', q, rfl⟩
    · rcases hk with rfl | ⟨v, rfl⟩ <;> rcases hk' with rfl | ⟨w, rfl⟩
      · rfl
      · exact absurd h' (h.2 w)
      · exact absurd h (h'.2 v)
      · rw [eq_of_keyword_text (h.symm.trans h')]
    · rw [isDigit_eq_false_of_isAlpha halpha] at hdigit'
      cases hdigit'
    · rw [halpha'] at halpha
      cases halpha
    · rw [isDigit_eq_false_of_isAlpha halpha'] at hdigit
      cases hdigit
    · rfl
    · rw [hdigit'] at hdigit
      cases hdigit
    · rw [halpha'] at halpha
      cases halpha
    · rw [hdigit'] at hdigit
      cases hdigit
    · rw [eq_of_punct_text (h.symm.trans h')]

end Kind

/-! ## Lexemes are as long as they can be -/

namespace Lexer

/-- The text spells a token of this kind, and no longer front part of the text and what follows it
spells a token of any. -/
structure Longest (kind : Kind) (text rest : List Char) : Prop where
  spells : kind.Spells text
  longest : ∀ k cs, Kind.Spells k cs → cs <+: text ++ rest → cs.length ≤ text.length

/-- A front part whose characters all satisfy `f` is no longer than the longest such. -/
theorem length_le_takeWhile {f : Char → Bool} {cs ds : List Char} (hall : ∀ c ∈ cs, f c = true)
    (h : cs <+: ds) : cs.length ≤ (ds.takeWhile f).length := by
  obtain ⟨tail, rfl⟩ := h
  rw [List.takeWhile_append_of_pos hall, List.length_append]
  omega

theorem isDigits_takeWhile {cs : List Char} (h : cs.takeWhile Char.isDigit ≠ []) :
    Lexeme.IsDigits (cs.takeWhile Char.isDigit) :=
  ⟨h, fun c hc => List.all_eq_true.1 List.all_takeWhile c hc⟩

/-- A word is as long as it can be: letters and digits up to the first other character. Whatever
starts with a letter is a word, so no other kind can be longer. -/
theorem longest_word {c : Char} (rest : List Char) (hc : c.isAlpha = true) {kind : Kind}
    (hkind : (word c rest).kind = some kind) :
    Longest kind (word c rest).text (word c rest).rest := by
  have hname : Lexeme.IsName (word c rest).text :=
    .intro hc fun d hd => List.all_eq_true.1 List.all_takeWhile d hd
  constructor
  · simp only [word, Option.some.injEq] at hkind
    cases hword : Keyword.ofWord? (c :: rest.takeWhile Char.isAlphanum) with
    | some w =>
      rw [hword] at hkind
      subst hkind
      have hfound := List.find?_some hword
      exact (of_decide_eq_true hfound).symm
    | none =>
      rw [hword] at hkind
      subst hkind
      refine ⟨hname, fun w heq => ?_⟩
      have hnone := List.find?_eq_none.1 hword w w.mem_all
      exact hnone (decide_eq_true heq.symm)
  · intro k cs hspells hbegins
    rw [word_append] at hbegins
    cases cs with
    | nil => exact Nat.zero_le _
    | cons d ds =>
      obtain rfl : d = c := (List.cons_prefix_cons.1 hbegins).1
      rcases hspells.cons_cases with ⟨-, hds, -⟩ | ⟨hdigit, -⟩ | ⟨halpha, -, -⟩
      · have hle := length_le_takeWhile hds.alphanum hbegins
        rwa [List.takeWhile_cons_of_pos (isAlphanum_of_isAlpha hc)] at hle
      · rw [isDigit_eq_false_of_isAlpha hc] at hdigit
        cases hdigit
      · rw [hc] at halpha
        cases halpha

/-- A sign is as long as it can be: of two signs that start alike, the longer one is taken. -/
theorem longest_punct {c : Char} {rest : List Char} {p : Piece} {kind : Kind}
    (halpha : c.isAlpha = false) (hdigit : c.isDigit = false) (h : punct? c rest = some p)
    (hkind : p.kind = some kind) : Longest kind p.text p.rest := by
  have hlen : 1 ≤ p.text.length := by
    unfold punct? at h
    split at h <;> cases h <;> simp
  constructor
  · unfold punct? at h
    split at h <;> cases h <;> cases hkind <;> rfl
  · intro k cs hspells hbegins
    rw [punct?_append h] at hbegins
    cases cs with
    | nil => exact Nat.zero_le _
    | cons d ds =>
      obtain ⟨rfl, hds⟩ := List.cons_prefix_cons.1 hbegins
      rcases hspells.cons_cases with ⟨hletter, -⟩ | ⟨hnumber, -⟩ | ⟨-, -, sign, rfl⟩
      · rw [halpha] at hletter
        cases hletter
      · rw [hdigit] at hnumber
        cases hnumber
      · obtain ⟨tail, rfl⟩ := hds
        -- A sign of one character is short enough; one of two is what `punct?` tries first.
        cases sign <;> cases hspells <;> first | exact hlen | (cases h; exact Nat.le_refl 2)

/-! ### Numbers -/

/-- A run that ends where the text does or before a character outside it. -/
theorem span_of_stop {f : Char → Bool} {cs rest : List Char} (hall : ∀ c ∈ cs, f c = true)
    (hstop : ∀ c ∈ rest.head?, f c = false) :
    (cs ++ rest).takeWhile f = cs ∧ (cs ++ rest).dropWhile f = rest := by
  rw [List.takeWhile_append_of_pos hall, List.dropWhile_append_of_pos hall]
  cases rest with
  | nil => simp
  | cons d ds =>
    have hd : f d = false := hstop d rfl
    simp [hd]

/-- What is taken as a fraction is one, or nothing. -/
theorem isFraction_fraction (cs : List Char) : Lexeme.IsFraction (fraction cs).1 := by
  unfold fraction
  split
  · split
    · exact .absent
    · next hne => exact .point (isDigits_takeWhile hne)
  · exact .absent

theorem sign_cases (cs : List Char) :
    (sign cs).1 = [] ∨ (sign cs).1 = ['+'] ∨ (sign cs).1 = ['-'] := by
  unfold sign
  split <;> simp

/-- What is taken as an exponent is one, or nothing. -/
theorem isExponent_exponent? {cs text rest : List Char} (h : exponent? cs = some (text, rest)) :
    Lexeme.IsExponent text := by
  unfold exponent? at h
  split at h
  · cases h
    exact .absent
  · next e tail =>
    split at h
    · next he =>
      split at h
      · cases h
      · next hne =>
        cases h
        exact .power he (sign_cases tail) (isDigits_takeWhile hne)
    · cases h
      exact .absent

/-- A sign before digits is taken, and the digits are left. -/
theorem sign_append_digits {mark digits : List Char}
    (hmark : mark = [] ∨ mark = ['+'] ∨ mark = ['-']) (hdigits : Lexeme.IsDigits digits)
    (tail : List Char) : sign (mark ++ (digits ++ tail)) = (mark, digits ++ tail) := by
  rcases hmark with rfl | rfl | rfl
  · cases digits with
    | nil => exact absurd rfl hdigits.ne_nil
    | cons d ds =>
      have hd : d.isDigit = true := hdigits.digits d List.mem_cons_self
      simp only [List.nil_append, List.cons_append]
      unfold sign
      split
      · next heq =>
        cases heq
        cases hd
      · next heq =>
        cases heq
        cases hd
      · rfl
  · rfl
  · rfl

/-- No exponent at the start of a text is longer than the one taken. -/
theorem length_le_exponent? {cs text rest exponent : List Char}
    (h : exponent? cs = some (text, rest)) (hexponent : Lexeme.IsExponent exponent)
    (hbegins : exponent <+: cs) : exponent.length ≤ text.length := by
  cases hexponent with
  | absent => exact Nat.zero_le _
  | @power e mark digits he hmark hdigits =>
    obtain ⟨tail, rfl⟩ := hbegins
    have hle := length_le_takeWhile hdigits.digits (List.prefix_append digits tail)
    simp only [exponent?, List.cons_append, List.append_assoc, if_pos he,
      sign_append_digits hmark hdigits tail] at h
    split at h
    · cases h
    · cases h
      simp only [List.length_cons, List.length_append]
      omega

/-- An exponent does not start with a digit or a point. -/
theorem head_exponent {exponent : List Char} (h : Lexeme.IsExponent exponent)
    (hne : exponent ≠ []) (tail : List Char) :
    ∀ c ∈ (exponent ++ tail).head?, c.isDigit = false ∧ c ≠ '.' := by
  cases h with
  | absent => exact absurd rfl hne
  | power he =>
    intro c hc
    obtain rfl := Option.some.inj hc
    rcases he with rfl | rfl <;> decide

theorem fraction_of_head {cs : List Char} (h : ∀ c ∈ cs.head?, c ≠ '.') : fraction cs = ([], cs) := by
  unfold fraction
  split
  · exact absurd rfl (h '.' rfl)
  · rfl

/-- No fraction with an exponent at the start of a text is longer than what is taken. -/
theorem length_le_fraction {cs text rest part exponent : List Char}
    (h : exponent? (fraction cs).2 = some (text, rest)) (hpart : Lexeme.IsFraction part)
    (hexponent : Lexeme.IsExponent exponent) (hbegins : part ++ exponent <+: cs) :
    (part ++ exponent).length ≤ ((fraction cs).1 ++ text).length := by
  obtain ⟨tail, rfl⟩ := hbegins
  rw [List.length_append, List.length_append]
  -- What follows the fraction decides whether its digits are all taken.
  by_cases hne : exponent = []
  · subst hne
    cases hpart with
    | absent => exact Nat.zero_le _
    | @point digits hdigits =>
      have hle := length_le_takeWhile hdigits.digits (List.prefix_append digits tail)
      have hpos := List.length_pos_iff.2 hdigits.ne_nil
      simp only [fraction, List.append_nil, List.cons_append]
      split
      · next hnil =>
        rw [hnil] at hle
        exact absurd hle (by simpa using hdigits.ne_nil)
      · simp only [List.length_cons, List.length_nil]
        omega
  · have hhead := head_exponent hexponent hne tail
    cases hpart with
    | absent =>
      rw [List.nil_append] at h ⊢
      rw [fraction_of_head fun c hc => (hhead c hc).2] at h ⊢
      have hle := length_le_exponent? h hexponent (List.prefix_append _ _)
      simpa using hle
    | @point digits hdigits =>
      obtain ⟨htake, hdrop⟩ := span_of_stop hdigits.digits fun c hc => (hhead c hc).1
      have hfraction : fraction ('.' :: (digits ++ (exponent ++ tail))) =
          ('.' :: digits, exponent ++ tail) := by
        obtain ⟨d, ds, rfl⟩ := List.exists_cons_of_ne_nil hdigits.ne_nil
        simp only [fraction, htake, hdrop]
      rw [List.cons_append, List.cons_append, List.append_assoc, hfraction] at h ⊢
      exact Nat.add_le_add_left (length_le_exponent? h hexponent (List.prefix_append _ _)) _

/-- A fraction or an exponent does not start with a digit. -/
theorem head_part {part exponent : List Char} (hpart : Lexeme.IsFraction part)
    (hexponent : Lexeme.IsExponent exponent) (hne : part ++ exponent ≠ []) (tail : List Char) :
    ∀ c ∈ (part ++ exponent ++ tail).head?, c.isDigit = false := by
  cases hpart with
  | absent => exact fun c hc => (head_exponent hexponent hne tail c hc).1
  | point _ =>
    intro c hc
    obtain rfl := Option.some.inj hc
    rfl

/-- No number at the start of a text is longer than the one taken. -/
theorem length_le_number {c : Char} {rest : List Char} {p : Piece} (hc : c.isDigit = true)
    (h : number c rest = .ok p) {cs : List Char} (hnumber : Lexeme.IsNumber cs)
    (hbegins : cs <+: c :: rest) : cs.length ≤ p.text.length := by
  have htake : c :: rest.takeWhile Char.isDigit = (c :: rest).takeWhile Char.isDigit := by simp [hc]
  have hdrop : rest.dropWhile Char.isDigit = (c :: rest).dropWhile Char.isDigit := by simp [hc]
  simp only [number, htake, hdrop] at h
  obtain @⟨whole, part, exponent, hwhole, hpart, hexponent⟩ := hnumber
  obtain ⟨tail, htext⟩ := hbegins
  rw [← htext, List.append_assoc] at h
  split at h
  · cases h
  · next text after htail =>
    cases h
    by_cases hne : part ++ exponent = []
    · have hle := length_le_takeWhile hwhole.digits (List.prefix_append whole tail)
      simp only [hne, List.nil_append, List.append_nil, List.length_append]
      omega
    · obtain ⟨hrun, hrest⟩ := span_of_stop hwhole.digits (head_part hpart hexponent hne tail)
      rw [hrest] at htail
      have hle := length_le_fraction htail hpart hexponent (List.prefix_append _ _)
      simp only [hrun, hrest, List.length_append] at hle ⊢
      omega

/-- A number is as long as it can be, since whatever starts with a digit is a number. -/
theorem longest_number {c : Char} {rest : List Char} {p : Piece} {kind : Kind}
    (hc : c.isDigit = true) (h : number c rest = .ok p) (hkind : p.kind = some kind) :
    Longest kind p.text p.rest := by
  constructor
  · simp only [number] at h
    split at h
    · cases h
    · next expo after hexpo =>
      cases h
      cases hkind
      have hwhole : Lexeme.IsDigits (c :: rest.takeWhile Char.isDigit) :=
        ⟨List.cons_ne_nil _ _,
          List.forall_mem_cons.2 ⟨hc, fun d hd => List.all_eq_true.1 List.all_takeWhile d hd⟩⟩
      rw [List.append_assoc]
      exact .intro hwhole (isFraction_fraction _) (isExponent_exponent? hexpo)
  · intro k cs hspells hbegins
    rw [number_append h] at hbegins
    cases cs with
    | nil => exact Nat.zero_le _
    | cons d ds =>
      obtain rfl : d = c := (List.cons_prefix_cons.1 hbegins).1
      rcases hspells.cons_cases with ⟨halpha, -⟩ | ⟨-, rfl⟩ | ⟨-, hdigit, -⟩
      · rw [isDigit_eq_false_of_isAlpha halpha] at hc
        cases hc
      · exact length_le_number hc h hspells hbegins
      · rw [hdigit] at hc
        cases hc

/-! ## Every piece is a lexeme or part of a gap -/

/-- Blanks make a gap. -/
theorem gap_of_blanks {cs : List Char} (h : ∀ c ∈ cs, Text.isBlank c = true) : Gap cs := by
  induction cs with
  | nil => exact .nil
  | cons c cs ih =>
    obtain ⟨hc, hcs⟩ := List.forall_mem_cons.1 h
    exact .blank hc (ih hcs)

/-- A comment that is closed makes a gap. -/
theorem gap_comment {rest : List Char} {p : Piece} (h : comment '\x7b' rest = .ok p) :
    Gap p.text := by
  unfold comment at h
  split at h
  · cases h
  · next close after hdrop =>
    cases h
    obtain rfl : close = '\x7d' := by
      have hnot := List.head?_dropWhile_not (· ≠ '\x7d') rest
      rw [hdrop] at hnot
      simpa using hnot
    refine .comment (fun hmem => ?_) .nil
    simpa using List.all_eq_true.1 List.all_takeWhile _ hmem

/-- What is skipped is part of a gap. -/
theorem gap_of_piece {c : Char} {rest : List Char} {p : Piece} (h : piece c rest = .ok p)
    (hkind : p.kind = none) : Gap p.text := by
  unfold piece at h
  split at h
  · next hblank =>
    cases h
    exact .blank hblank (gap_of_blanks fun d hd => List.all_eq_true.1 List.all_takeWhile d hd)
  split at h
  · next hbrace =>
    subst hbrace
    exact gap_comment h
  split at h
  · simp only [number] at h
    split at h <;> cases h
    cases hkind
  split at h
  · cases h
    cases hkind
  split at h
  · next q hq =>
    cases h
    unfold punct? at hq
    split at hq <;> cases hq <;> cases hkind
  · cases h

/-- What is not skipped is the longest lexeme at the front of the text. -/
theorem longest_of_piece {c : Char} {rest : List Char} {p : Piece} {kind : Kind}
    (h : piece c rest = .ok p) (hkind : p.kind = some kind) : Longest kind p.text p.rest := by
  unfold piece at h
  split at h
  · cases h
    cases hkind
  split at h
  · unfold comment at h
    split at h <;> cases h
    cases hkind
  split at h
  · next hdigit => exact longest_number hdigit h hkind
  split at h
  · next halpha =>
    cases h
    exact longest_word rest halpha hkind
  split at h
  · next hdigit halpha _ q hq =>
    cases h
    exact longest_punct (Bool.eq_false_iff.2 halpha) (Bool.eq_false_iff.2 hdigit) hq hkind
  · cases h

end Lexer

/-! ## Positions -/

namespace Location

/-- The line number counts the ends of lines that were passed. -/
theorem line_advance (loc : Location) (cs : List Char) :
    (loc.advance cs).line = loc.line + cs.count '\n' := by
  induction cs generalizing loc with
  | nil => rfl
  | cons c cs ih =>
    rw [advance_cons, ih, next, List.count_cons]
    by_cases hc : c = '\n'
    · simp only [hc, if_true, beq_self_eq_true]
      omega
    · simp [hc]

/-- The column counts the characters since the last line feed. -/
theorem column_advance (cs : List Char) :
    (start.advance cs).column = 1 + (cs.reverse.takeWhile (· ≠ '\n')).length := by
  induction h : cs.reverse generalizing cs with
  | nil =>
    rw [List.reverse_eq_nil_iff.1 h]
    rfl
  | cons c ds ih =>
    obtain rfl : cs = ds.reverse ++ [c] := by rw [← List.reverse_reverse cs, h, List.reverse_cons]
    rw [advance_append, advance_cons, advance_nil, next]
    by_cases hc : c = '\n'
    · simp [hc]
    · rw [if_neg hc, List.takeWhile_cons_of_pos (by simpa using hc), List.length_cons,
        ih ds.reverse (List.reverse_reverse ds), Nat.add_assoc]

end Location

/-! ## Tokens and the gaps before them -/

/-- A token and the text between it and the token before. -/
structure Spaced where
  gap : List Char
  token : Token

namespace Spaced

def text (p : Spaced) : List Char := p.gap ++ p.token.lexeme.toList

/-- The text that tokens and gaps were read from. -/
def spell (ps : List Spaced) : List Char := ps.flatMap text

/-- Between the texts `before` and `after`, the gap is one, and the token is what the longest lexeme
there spells, at its position. -/
structure Stands (before after : List Char) (p : Spaced) : Prop where
  gap : Gap p.gap
  line : p.token.location.line = 1 + (before ++ p.gap).count '\n'
  column : p.token.location.column =
    1 + ((before ++ p.gap).reverse.takeWhile (· ≠ '\n')).length
  kind : ∀ k : Kind, k.Spells p.token.lexeme.toList ↔ k = p.token.kind
  longest : ∀ (k : Kind) (cs : List Char), k.Spells cs → cs <+: p.token.lexeme.toList ++ after →
    cs.length ≤ p.token.lexeme.toList.length

/-- Every token stands where the tokens and gaps before it end. -/
def Laid (before : List Char) (ps : List Spaced) : Prop :=
  ∀ front p back, ps = front ++ p :: back → p.Stands (before ++ spell front) (spell back)

theorem laid_nil (before : List Char) : Laid before [] := by
  intro front p back heq
  cases front <;> cases heq

/-- A token that stands before tokens that are laid is laid with them. -/
theorem laid_cons {before : List Char} {p : Spaced} {ps : List Spaced}
    (hp : p.Stands before (spell ps)) (hps : Laid (before ++ p.text) ps) :
    Laid before (p :: ps) := by
  intro front q back heq
  cases front with
  | nil =>
    cases heq
    simpa [spell] using hp
  | cons r front =>
    cases heq
    have hq := hps front q back rfl
    rw [List.append_assoc] at hq
    exact hq

theorem Laid.head {before : List Char} {p : Spaced} {ps : List Spaced}
    (h : Laid before (p :: ps)) : p.Stands before (spell ps) := by
  have hp := h [] p ps rfl
  simpa [spell] using hp

theorem Laid.tail {before : List Char} {p : Spaced} {ps : List Spaced}
    (h : Laid before (p :: ps)) : Laid (before ++ p.text) ps := by
  intro front q back heq
  have hq := h (p :: front) q back (by rw [heq, List.cons_append])
  rw [List.append_assoc]
  exact hq

/-- Skipped text joins the gap of the next token. -/
theorem Laid.widen {before more : List Char} {p : Spaced} {ps : List Spaced} (hmore : Gap more)
    (h : Laid (before ++ more) (p :: ps)) : Laid before (⟨more ++ p.gap, p.token⟩ :: ps) := by
  have hp := h.head
  refine laid_cons ⟨hmore.append hp.gap, ?_, ?_, hp.kind, hp.longest⟩ ?_
  · rw [← List.append_assoc]
    exact hp.line
  · rw [← List.append_assoc]
    exact hp.column
  · have htail := h.tail
    simpa [text] using htail

end Spaced

namespace Lexer

/-- The tokens of a text end in one end mark, and there is no other. -/
theorem eof_last_of_tokens {loc : Location} {cs : List Char} {ts : List Token}
    (h : tokens loc cs = .ok ts) : ∃ front last, ts = front ++ [last] ∧ last.kind = .eof ∧
      last.lexeme = "" ∧ ∀ t ∈ front, t.kind ≠ .eof := by
  fun_induction tokens loc cs generalizing ts with
  | case1 loc =>
    cases h
    exact ⟨[], _, rfl, rfl, rfl, fun t ht => absurd ht List.not_mem_nil⟩
  | case2 => cases h
  | case3 => cases h
  | case4 loc c rest p hpiece later hlater hkind ih =>
    cases h
    exact ih hlater
  | case5 loc c rest p hpiece later hlater kind hkind ih =>
    cases h
    obtain ⟨front, last, rfl, heof, hempty, hfront⟩ := ih hlater
    refine ⟨_ :: front, last, rfl, heof, hempty, List.forall_mem_cons.2 ⟨?_, hfront⟩⟩
    rintro rfl
    exact piece_text_ne_nil hpiece (longest_of_piece hpiece hkind).spells

theorem longest_eof : Longest .eof [] [] :=
  ⟨rfl, fun _ _ _ hbegins => hbegins.length_le⟩

/-- A longest lexeme without a gap stands where the text before it ends. -/
theorem Longest.stands {kind : Kind} {text rest : List Char} (h : Longest kind text rest)
    (before : List Char) :
    Spaced.Stands before rest ⟨[], kind, String.ofList text, Location.start.advance before⟩ := by
  constructor
  case gap => exact .nil
  case line => rw [List.append_nil, Location.line_advance, Location.start]
  case column => rw [List.append_nil, Location.column_advance]
  case kind =>
    intro k
    rw [String.toList_ofList]
    exact ⟨fun hk => Kind.spells_unique hk h.spells, fun hk => hk ▸ h.spells⟩
  case longest =>
    rw [String.toList_ofList]
    exact h.longest

/-- The tokens of the text after `before`, with their gaps. -/
theorem laid_of_tokens {before cs : List Char} {loc : Location} {ts : List Token}
    (hloc : loc = Location.start.advance before) (h : tokens loc cs = .ok ts) :
    ∃ ps : List Spaced, ps.map Spaced.token = ts ∧ Spaced.spell ps = cs ∧ Spaced.Laid before ps := by
  fun_induction tokens loc cs generalizing ts before with
  | case1 loc =>
    cases h
    subst hloc
    exact ⟨[⟨[], _⟩], rfl, rfl, Spaced.laid_cons (longest_eof.stands before) (Spaced.laid_nil _)⟩
  | case2 => cases h
  | case3 => cases h
  | case4 loc c rest p hpiece later hlater hkind ih =>
    cases h
    rw [hloc, ← Location.advance_append] at hlater ih
    obtain ⟨ps, htokens, hspell, hlaid⟩ := ih rfl hlater
    cases ps with
    | nil =>
      obtain ⟨front, last, rfl, -⟩ := eof_last_of_tokens hlater
      cases front <;> cases htokens
    | cons q ps =>
      refine ⟨⟨p.text ++ q.gap, q.token⟩ :: ps, htokens, ?_, hlaid.widen (gap_of_piece hpiece hkind)⟩
      rw [← piece_append hpiece, ← hspell]
      simp [Spaced.spell, Spaced.text]
  | case5 loc c rest p hpiece later hlater kind hkind ih =>
    cases h
    subst hloc
    rw [← Location.advance_append] at hlater ih
    obtain ⟨ps, rfl, hspell, hlaid⟩ := ih rfl hlater
    have hstands := (longest_of_piece hpiece hkind).stands before
    rw [← hspell] at hstands
    refine ⟨⟨[], _⟩ :: ps, rfl, ?_, Spaced.laid_cons hstands ?_⟩
    · rw [← piece_append hpiece, ← hspell]
      simp [Spaced.spell, Spaced.text]
    · simpa [Spaced.text] using hlaid

end Lexer

/-- The tokens of a source text, with the gaps before them, spell the text; every token is what the
longest lexeme at its position spells; and the last token, and no other, is the end. -/
theorem spaced_of_lex {source : String} {ts : List Token} (h : lex source = .ok ts) :
    ∃ ps : List Spaced, ps.map Spaced.token = ts ∧ Spaced.spell ps = source.toList ∧
      (∀ front p back, ps = front ++ p :: back →
        p.Stands (Spaced.spell front) (Spaced.spell back)) ∧
      ∃ front last, ts = front ++ [last] ∧ last.kind = .eof ∧ last.lexeme = "" ∧
        ∀ t ∈ front, t.kind ≠ .eof := by
  obtain ⟨ps, htokens, hspell, hlaid⟩ := Lexer.laid_of_tokens (Location.advance_nil _).symm h
  refine ⟨ps, htokens, hspell, fun front p back heq => ?_, Lexer.eof_last_of_tokens h⟩
  have hp := hlaid front p back heq
  rwa [List.nil_append] at hp

/-- A text with a comment, a sign of two characters after a number, and a reserved word in mixed
case. -/
def spacedSource : String := "x1:=\x7ba\x7d2.5e-1<>\nEnd."

def spacedTokens : List Token :=
  [⟨.identifier, "x1", ⟨1, 1⟩⟩, ⟨.punct .assign, ":=", ⟨1, 3⟩⟩, ⟨.number, "2.5e-1", ⟨1, 8⟩⟩,
    ⟨.punct .notEqual, "<>", ⟨1, 14⟩⟩, ⟨.keyword .end_, "End", ⟨2, 1⟩⟩,
    ⟨.punct .period, ".", ⟨2, 4⟩⟩, ⟨.eof, "", ⟨2, 5⟩⟩]

theorem lex_spacedSource : lex spacedSource = .ok spacedTokens := by
  have htokens : (lex spacedSource).toOption = some spacedTokens := by decide +kernel
  cases h : lex spacedSource with
  | error e =>
    rw [h] at htokens
    cases htokens
  | ok ts =>
    rw [h] at htokens
    rw [Option.some.inj htokens]

theorem spaced_spacedSource : lex spacedSource = .ok spacedTokens ∧
    ∃ ps : List Spaced, ps.map Spaced.token = spacedTokens ∧
      Spaced.spell ps = spacedSource.toList ∧
      (∀ front p back, ps = front ++ p :: back →
        p.Stands (Spaced.spell front) (Spaced.spell back)) ∧
      ∃ front last, spacedTokens = front ++ [last] ∧ last.kind = .eof ∧ last.lexeme = "" ∧
        ∀ t ∈ front, t.kind ≠ .eof := by
  exact ⟨lex_spacedSource, spaced_of_lex lex_spacedSource⟩

end PascalMips
