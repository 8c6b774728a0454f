import PascalMips.Program.Source
import PascalMips.Proofs.Parser.Complete
import PascalMips.Proofs.Parser.Moves
import PascalMips.Proofs.Parser.Sound
import PascalMips.Proofs.Program.Reading

/-!
# The language of programs

The tokens that are read as a program are exactly those that the grammar derives, and the tree is
the one that the derivation stands for (`ofTokens_eq_ok_iff`). Both directions go through the
subprograms of a program first. The block of a subprogram has a scope of its own, which is closed
behind it: the setting is then the one in front of the block again, since all that is declared
inside went to the innermost scope (`Setting.Extends`).
-/

namespace PascalMips

open Grammar

/-! ## Reading subprograms -/

namespace Parse

/-- Parameters that are read are those of the grammar, in groups with semicolons between them or
none at all. -/
theorem yields_parameters :
    Yields parameters (Fixed fun _ ts params rest => IsParameters ts params rest) := by
  have hgroup : Yields parameterGroup (Fixed fun _ ts group rest => ∃ names colon us type,
      IsNames ts names (colon :: us) ∧ colon.kind = .punct .colon ∧ IsStandardType us type rest ∧
        group = names.map fun name => (name, type)) := by
    refine yields_bind yields_names fun names =>
      yields_bind (yields_expect (by decide)) fun colon =>
        yields_bind yields_standardType fun type => yields_pure ?_
    rintro Γ rest _ us ⟨rfl, htype⟩ _ _ ⟨rfl, hcolon, rfl⟩ _ ts ⟨rfl, hnames⟩
    exact ⟨rfl, names, colon, us, type, hnames, hcolon, htype, rfl⟩
  have hgroups : Yields (sepBy (.punct .semicolon) parameterGroup)
      (Fixed fun _ ts groups rest => IsParameterGroups ts groups.flatten rest) := by
    refine yields_sepBy (by decide) hgroup ?_ ?_
    · rintro Γ ts rest _ ⟨names, colon, us, type, hnames, hcolon, htype, rfl⟩
      rw [List.flatten_singleton]
      exact .one hnames hcolon htype
    · rintro Γ ts vs rest semicolon _ groups ⟨names, colon, us, type, hnames, hcolon, htype, rfl⟩
        hsemicolon hmore
      exact .more hnames hcolon htype hsemicolon hmore
  refine yields_accept_ite (by decide) ?_ (yields_pure fun Γ ts => ⟨rfl, .none⟩)
  refine yields_bind hgroups fun groups => yields_bind (yields_expect (by decide)) fun closing =>
    yields_pure ?_
  rintro Γ rest _ _ ⟨rfl, hclosing, rfl⟩ _ ts ⟨rfl, hparams⟩ opening hopening
  exact ⟨rfl, .some hopening hparams hclosing⟩

/-- Parameters that are declared one after the other are declared in the setting in that order. -/
theorem yields_declareParameters (params : List (Token × ValueType)) :
    Yields (declareParameters params) fun Γ ts _ Γ' rest =>
      Γ.declareAll? (params.map fun (name, type) => (name.lexeme, .scalar type)) = some Γ' ∧
        rest = ts := by
  induction params with
  | nil => exact yields_pure fun Γ ts => ⟨rfl, rfl⟩
  | cons param params ih =>
    refine yields_bind (yields_declare param.1 (.scalar param.2)) fun _ => ih.mono ?_
    rintro Γ₁ _ _ Γ' _ ⟨hrest, rfl⟩ Γ ts ⟨hfirst, rfl⟩
    exact ⟨Option.bind_eq_some_iff.2 ⟨Γ₁, hfirst, hrest⟩, rfl⟩

theorem yields_routineKind : Yields routineKind
    (Fixed fun _ ts kind rest => ∃ word, word.kind = kind.word ∧ ts = word :: rest) := by
  refine yields_accept_ite (by decide) (yields_pure ?_) ?_
  · exact fun Γ rest word hword => ⟨rfl, word, hword, rfl⟩
  · refine yields_bind (yields_expect (by decide)) fun word => yields_pure ?_
    rintro Γ rest _ _ ⟨rfl, hword, rfl⟩
    exact ⟨rfl, word, hword, rfl⟩

/-- The declaration of a subprogram, and the rest of its head. -/
theorem yields_declareRoutine (kind : RoutineKind) (name : Token)
    (params : List (Token × ValueType)) : Yields (declareRoutine kind name (params.map Prod.snd))
      fun Γ ts returns Γ' rest => ∃ binding, Γ.declare? name.lexeme binding = some Γ' ∧
        ∀ word us semicolon vs, word.kind = kind.word → name.kind = .identifier →
          IsParameters us params ts → semicolon.kind = .punct .semicolon →
          rest = semicolon :: vs →
          IsHead (word :: name :: us) ⟨kind, name, params, returns, binding⟩ vs := by
  cases kind with
  | function =>
    refine yields_bind (yields_expect (by decide)) fun colon =>
      yields_bind yields_standardType fun type =>
        yields_bind (yields_declare name _) fun _ => yields_pure ?_
    rintro Γ' _ _ rest ⟨hdeclared, rfl⟩ _ ts ⟨rfl, htype⟩ Γ _ ⟨rfl, hcolon, rfl⟩
    refine ⟨_, hdeclared, ?_⟩
    rintro word us semicolon vs hword hname hparams hsemicolon rfl
    exact .function hword hname hparams hcolon htype hsemicolon
  | procedure =>
    refine yields_bind (yields_declare name _) fun _ => yields_pure ?_
    rintro Γ' _ Γ ts ⟨hdeclared, rfl⟩
    refine ⟨_, hdeclared, ?_⟩
    rintro word us semicolon vs hword hname hparams hsemicolon rfl
    exact .procedure hword hname hparams hsemicolon

theorem yields_openScope (name : String) : Yields (openScope name)
    fun Γ ts _ Γ' rest => Γ' = Γ.enter name ∧ rest = ts := by
  intro p a q h
  cases h
  exact ⟨p.setting_enter name, rfl⟩

/-- Closing a scope brings back the setting in front of it, whatever was declared inside. -/
theorem yields_closeScope (name : String) : Yields (closeScope name) fun Γ ts _ Γ' rest =>
    ∀ Γ₁ : Setting, (Γ₁.enter name).Extends Γ → Γ₁.scopes ≠ [] → Γ' = Γ₁ ∧ rest = ts := by
  intro p a q h Γ₁ hinside hΓ₁
  obtain ⟨hsetting, htokens⟩ := setting_closeScope h hinside hΓ₁
  exact ⟨hsetting, by rw [htokens]⟩

/-- Subprograms one after the other are those of the grammar, each with its semicolon. -/
theorem yields_moreSubprograms {subprogram : Parse Subprogram}
    (h : Yields subprogram IsSubprogram) :
    Yields (many (nextSubprogram? subprogram)) IsSubprograms := by
  have hnext : Yields (nextSubprogram? subprogram) (Optionally fun Γ ts s Γ' rest =>
      ∃ semicolon, IsSubprogram Γ ts s Γ' (semicolon :: rest) ∧
        semicolon.kind = .punct .semicolon) := by
    refine yields_current_bind fun token => yields_ite (fun _ => ?_) (fun _ => yields_pure ?_)
    · refine yields_bind h fun s => yields_bind (yields_expect (by decide)) fun semicolon =>
        yields_pure ?_
      rintro Γ' rest _ _ ⟨rfl, hsemicolon, rfl⟩ Γ ts hs -
      exact ⟨semicolon, hs, hsemicolon⟩
    · exact fun Γ ts _ => ⟨rfl, rfl⟩
  refine yields_many hnext ?_ ?_
  · rintro Γ _ ts _ ⟨rfl, rfl⟩
    exact .nil
  · rintro Γ Γ₁ Γ' ts us rest s ss ⟨semicolon, hs, hsemicolon⟩ hmore
    exact .cons hs hsemicolon hmore

/-- One level of subprograms. The setting behind it is the one behind its own declaration, since the
block was opened and closed after that. -/
theorem yields_subprogramOf (inner : Parse Subprogram) (h : Yields inner IsSubprogram) :
    Yields (subprogramOf inner) IsSubprogram := by
  refine yields_bind yields_routineKind fun kind =>
    yields_bind (yields_expect (by decide)) fun name => yields_bind yields_parameters fun params =>
    yields_bind (yields_declareRoutine kind name params) fun returns =>
    yields_bind (yields_expect (by decide)) fun semicolon =>
    yields_bind (yields_openScope _) fun _ => yields_bind (yields_declareParameters params) fun _ =>
    yields_bind yields_varSections fun vars => yields_bind (yields_moreSubprograms h) fun subs =>
    yields_bind yields_compound fun body => yields_bind (yields_closeScope _) fun _ =>
    yields_pure ?_
  rintro Γ' rest Γ₃ _ hclosed _ ws ⟨rfl, hbody⟩ Γ₂ vs hsubs Γ₁ us hvars _ _ ⟨hparams, rfl⟩
    Γ₀ _ ⟨rfl, rfl⟩ _ _ ⟨rfl, hsemicolon, rfl⟩ Γ ts ⟨binding, hdeclared, hhead⟩
    _ _ ⟨rfl, hlist⟩ _ _ ⟨rfl, hname, rfl⟩ _ _ ⟨rfl, word, hword, rfl⟩
  -- all that the block declares went to the scope that is closed now
  have hinside : (Γ₀.enter name.lexeme).Extends Γ₃ :=
    (Setting.extends_of_declareAll? hparams).trans (hvars.extends.trans hsubs.extends)
  obtain ⟨rfl, rfl⟩ := hclosed Γ₀ hinside (Setting.extends_of_declare? hdeclared).2
  exact .mk (hhead word _ semicolon us hword hname hlist hsemicolon rfl) hdeclared hparams hvars
    hsubs hbody

theorem yields_subprograms : Yields subprograms IsSubprograms :=
  yields_moreSubprograms (yields_nest yields_subprogramOf)

end Parse

/-! ## Deriving subprograms -/

namespace Parse

variable {α : Type} {Γ Γ₁ Γ' : Setting} {ts us rest : List Token}

theorem accepts_openScope (name : String) :
    Accepts (openScope name) Γ ts () (Γ.enter name) ts := by
  rintro p rfl hts
  exact ⟨_, rfl, p.setting_enter name, hts⟩

/-- A scope that was opened can be closed, which leaves the setting in front of it. -/
theorem accepts_closeScope {name : String} (hinside : (Γ'.enter name).Extends Γ)
    (hΓ' : Γ'.scopes ≠ []) : Accepts (closeScope name) Γ ts () Γ' ts := by
  rintro p rfl hts
  obtain ⟨hsetting, htokens⟩ :=
    setting_closeScope (rfl : closeScope name p = .ok () _) hinside hΓ'
  exact ⟨_, rfl, hsetting, by rw [htokens, hts]⟩

/-- A group of parameters is accepted, with its type for each name. -/
theorem accepts_parameterGroup {names : List Token} {colon : Token} {type : ValueType}
    (hnames : IsNames ts names (colon :: us)) (hcolon : colon.kind = .punct .colon)
    (htype : IsStandardType us type rest) :
    Accepts parameterGroup Γ ts (names.map fun name => (name, type)) Γ rest := by
  refine accepts_bind (hnames.accepts (nextKind_ne hcolon (by decide))) ?_
  exact accepts_bind (accepts_expect hcolon) (accepts_bind htype.accepts (accepts_pure _))

theorem accepts_routineKind (kind : RoutineKind) {word : Token} (h : word.kind = kind.word) :
    Accepts routineKind Γ (word :: ts) kind Γ ts := by
  cases kind with
  | function => exact accepts_bind (accepts_accept h) (accepts_pure _)
  | procedure =>
    refine accepts_bind (accepts_accept_of_ne (nextKind_ne h (by decide))) ?_
    exact accepts_bind (accepts_expect h) (accepts_pure _)

/-- A function is declared with the type behind the colon. -/
theorem accepts_declareRoutine_function {name colon : Token} {returns : ValueType}
    {params : List ValueType} (hcolon : colon.kind = .punct .colon)
    (htype : IsStandardType ts returns rest)
    (h : Γ.declare? name.lexeme (.function returns params) = some Γ') :
    Accepts (declareRoutine .function name params) Γ (colon :: ts) (some returns) Γ' rest := by
  refine accepts_bind (accepts_expect hcolon) (accepts_bind htype.accepts ?_)
  exact accepts_bind (accepts_declare h) (accepts_pure _)

theorem accepts_declareRoutine_procedure {name : Token} {params : List ValueType}
    (h : Γ.declare? name.lexeme (.procedure params) = some Γ') :
    Accepts (declareRoutine .procedure name params) Γ ts none Γ' ts :=
  accepts_bind (accepts_declare h) (accepts_pure none)

/-- A further subprogram is accepted where its first word is next. -/
theorem accepts_nextSubprogram? {s : Subprogram} {semicolon : Token}
    (hstarts : nextKind ts = .keyword .function ∨ nextKind ts = .keyword .procedure)
    (h : Accepts subprogram Γ ts s Γ' (semicolon :: rest))
    (hsemicolon : semicolon.kind = .punct .semicolon) :
    Accepts (nextSubprogram? subprogram) Γ ts (some s) Γ' rest := by
  cases ts with
  | nil => simp [nextKind] at hstarts
  | cons word ts =>
    have hword : word.kind = .keyword .function ∨ word.kind = .keyword .procedure := hstarts
    refine accepts_current_bind ?_
    rw [if_pos hword]
    exact accepts_bind h (accepts_bind (accepts_expect hsemicolon) (accepts_pure _))

end Parse

namespace Grammar

open Parse

/-- Groups of parameters are accepted where no semicolon follows. -/
theorem IsParameterGroups.accepts {Γ : Setting} {ts rest : List Token}
    {params : List (Token × ValueType)} (h : IsParameterGroups ts params rest)
    (hrest : nextKind rest ≠ .punct .semicolon) : ∃ groups, groups.flatten = params ∧
      Accepts (sepBy (.punct .semicolon) parameterGroup) Γ ts groups Γ rest := by
  induction h with
  | one hnames hcolon htype =>
    refine ⟨[_], List.flatten_singleton, ?_⟩
    exact accepts_sepBy_one (accepts_parameterGroup hnames hcolon htype) hrest
  | more hnames hcolon htype hsemicolon _ ih =>
    obtain ⟨groups, rfl, hmore⟩ := ih hrest
    refine ⟨_ :: groups, rfl, ?_⟩
    exact accepts_sepBy_more (by decide) (fun _ => settles_parameterGroup)
      (accepts_parameterGroup hnames hcolon htype) hsemicolon hmore

/-- Parameters are accepted, also where there are none and no parentheses. -/
theorem IsParameters.accepts {Γ : Setting} {ts rest : List Token}
    {params : List (Token × ValueType)} (h : IsParameters ts params rest)
    (hrest : nextKind rest ≠ .punct .lparen) : Accepts parameters Γ ts params Γ rest := by
  cases h with
  | none => exact accepts_bind (accepts_accept_of_ne hrest) (accepts_pure [])
  | some hopening h hclosing =>
    obtain ⟨groups, rfl, hgroups⟩ := h.accepts (nextKind_ne hclosing (by decide))
    refine accepts_bind (accepts_accept hopening) (accepts_bind hgroups ?_)
    exact accepts_bind (accepts_expect hclosing) (accepts_pure _)

/-- A subprogram goes on behind its head in the setting with its name declared. -/
theorem IsHead.accepts_then {α : Type} {Γ Γ₁ Γ' : Setting} {ts us rest : List Token} {head : Head}
    {f : RoutineKind → Token → List (Token × ValueType) → Option ValueType → Parse α} {a : α}
    (h : IsHead ts head us) (hdeclared : Γ.declare? head.name.lexeme head.binding = some Γ₁)
    (hf : Accepts (f head.kind head.name head.params head.returns) Γ₁ us a Γ' rest) :
    Accepts (do
      let kind ← routineKind
      let name ← expect .identifier
      let params ← parameters
      let returns ← declareRoutine kind name (params.map Prod.snd)
      let _ ← expect (.punct .semicolon)
      f kind name params returns) Γ ts a Γ' rest := by
  cases h with
  | function hword hname hparams hcolon htype hsemicolon =>
    refine accepts_bind (accepts_routineKind .function hword) ?_
    refine accepts_bind (accepts_expect hname) ?_
    refine accepts_bind (hparams.accepts (nextKind_ne hcolon (by decide))) ?_
    refine accepts_bind (accepts_declareRoutine_function hcolon htype hdeclared) ?_
    exact accepts_bind (accepts_expect hsemicolon) hf
  | procedure hword hname hparams hsemicolon =>
    refine accepts_bind (accepts_routineKind .procedure hword) ?_
    refine accepts_bind (accepts_expect hname) ?_
    refine accepts_bind (hparams.accepts (nextKind_ne hsemicolon (by decide))) ?_
    refine accepts_bind (accepts_declareRoutine_procedure hdeclared) ?_
    exact accepts_bind (accepts_expect hsemicolon) hf

/-- A subprogram starts with the word of its kind. -/
theorem IsSubprogram.starts {Γ Γ' : Setting} {ts rest : List Token} {s : Subprogram}
    (h : IsSubprogram Γ ts s Γ' rest) :
    nextKind ts = .keyword .function ∨ nextKind ts = .keyword .procedure := by
  obtain ⟨hhead, -, -, -, -, -⟩ := h
  cases hhead with
  | function hword => exact .inl hword
  | procedure hword => exact .inr hword

/-- The sections of a block end where its subprograms and its body start. -/
theorem IsSubprograms.starts {Γ Γ' : Setting} {ts rest : List Token} {ss : List Subprogram}
    (h : IsSubprograms Γ ts ss Γ' rest) (hrest : nextKind rest = .keyword .begin_) :
    nextKind ts ≠ .identifier ∧ nextKind ts ≠ .keyword .var := by
  cases h with
  | nil =>
    rw [hrest]
    decide
  | cons h =>
    rcases h.starts with hkind | hkind <;> rw [hkind] <;> decide

mutual

/-- Every subprogram of the grammar is accepted, with those inside by the same induction. -/
theorem IsSubprogram.accepts : ∀ {Γ Γ' : Setting} {ts rest : List Token} {s : Subprogram},
    IsSubprogram Γ ts s Γ' rest → Accepts subprogram Γ ts s Γ' rest
  | _, _, _, _, _, .mk hhead hdeclared hparams hvars hsubs hbody => by
    obtain ⟨hname, hvar⟩ := hsubs.starts hbody.starts
    have hinside := (Setting.extends_of_declareAll? hparams).trans
      (hvars.extends.trans hsubs.extends)
    have hopened := (Setting.extends_of_declare? hdeclared).2
    rw [subprogram_eq]
    refine hhead.accepts_then hdeclared ?_
    refine accepts_bind (accepts_openScope _) (accepts_bind (accepts_declareParameters hparams) ?_)
    refine accepts_bind (hvars.accepts hname hvar) ?_
    refine accepts_bind (hsubs.accepts hbody.starts) (accepts_bind hbody.accepts ?_)
    exact accepts_bind (accepts_closeScope hinside hopened) (accepts_pure _)

/-- Subprograms of the grammar are accepted up to the `begin` of the block. -/
theorem IsSubprograms.accepts : ∀ {Γ Γ' : Setting} {ts rest : List Token} {ss : List Subprogram},
    IsSubprograms Γ ts ss Γ' rest → nextKind rest = .keyword .begin_ →
      Accepts subprograms Γ ts ss Γ' rest
  | _, _, _, _, _, .nil, hrest => by
    obtain ⟨token, us, rfl, htoken⟩ := exists_cons_of_nextKind hrest (by decide)
    refine accepts_many_nil (accepts_current_bind ?_)
    simp only [htoken]
    exact accepts_pure none
  | _, _, _, _, _, .cons h hsemicolon hmore, hrest => by
    refine accepts_many_cons (fun _ => steps_nextSubprogram? settles_subprogram) ?_
      (hmore.accepts hrest)
    exact accepts_nextSubprogram? h.starts h.accepts hsemicolon

end

end Grammar

/-! ## Programs -/

namespace Parse

theorem yields_suffix {α : Type} {x : Parse α} (h : Travels x) :
    Yields x fun _ ts _ _ rest => rest <:+ ts := by
  intro p a q hp
  have hmoves := h p
  rw [hp] at hmoves
  exact Parser.Moves.suffix hmoves

/-- The end is expected where no token is left. -/
theorem yields_end : Yields (expect .eof) fun _ ts _ _ _ => nextKind ts = .eof := by
  intro p a q h
  rw [expect_apply] at h
  split at h
  · next hkind => exact (kind_current _).symm.trans hkind
  · cases h

theorem eq_nil_of_nextKind {ts : List Token} (h : ∀ token ∈ ts, token.kind ≠ .eof)
    (hnext : nextKind ts = .eof) : ts = [] := by
  cases ts with
  | nil => rfl
  | cons token rest => exact absurd hnext (h token List.mem_cons_self)

/-- A success of the parser on tokens without an end token has read them all. -/
theorem yields_program : Yields program fun Γ ts program _ _ =>
    Γ = .start → (∀ token ∈ ts, token.kind ≠ .eof) → IsProgram ts program := by
  refine yields_bind (yields_expect (by decide)) fun word =>
    yields_bind (yields_expect (by decide)) fun name =>
    yields_bind (yields_expect (by decide)) fun semicolon =>
    yields_bind (yields_declare name .program) fun _ =>
    yields_bind (yields_varSections.and
      (yields_suffix (related_varSections congruence_travels))) fun vars =>
    yields_bind (yields_subprograms.and
      (yields_suffix (related_subprograms congruence_travels))) fun subs =>
    yields_bind (yields_compound.and
      (yields_suffix (related_compound congruence_travels))) fun body =>
    yields_bind (yields_expect (by decide)) fun period =>
    yields_bind yields_end fun _ => yields_pure ?_
  rintro _ _ Γ rest hend _ _ ⟨rfl, hperiod, rfl⟩ _ vs ⟨⟨rfl, hbody⟩, hleft₃⟩ Γ₁ us ⟨hsubs, hleft₂⟩
    Γ₀ ts ⟨hvars, hleft₁⟩ _ _ ⟨hdeclared, rfl⟩ _ _ ⟨rfl, hsemicolon, rfl⟩ _ _ ⟨rfl, hname, rfl⟩
    _ _ ⟨rfl, hword, rfl⟩ rfl hclosed
  have hleft : rest <:+ word :: name :: semicolon :: ts :=
    calc rest
      _ <:+ period :: rest := List.suffix_cons ..
      _ <:+ ts := (hleft₃.trans hleft₂).trans hleft₁
      _ <:+ word :: name :: semicolon :: ts := List.suffix_append [word, name, semicolon] ts
  obtain rfl := eq_nil_of_nextKind (fun token h => hclosed token (hleft.mem h)) hend
  exact .mk hword hname hsemicolon hdeclared hvars hsubs hbody hperiod

end Parse

/-- Where no token is left, the end is found and nothing is read. -/
theorem Parse.accepts_end_bind {α : Type} {x : Parse α} {Γ Γ' : Setting} {a : α}
    {rest : List Token} (h : Accepts x Γ [] a Γ' rest) :
    Accepts (expect .eof >>= fun _ => x) Γ [] a Γ' rest := by
  intro p hΓ hts
  have hkind : p.tokens.current.kind = .eof := by
    rw [kind_current, hts]
    rfl
  have hadvance : p.tokens.advance.pending = [] := by simp [TokenStream.advance, hts]
  obtain ⟨q, hq, hsetting⟩ := h { p with tokens := p.tokens.advance } hΓ hadvance
  refine ⟨q, bind_eq_ok.2 ⟨p.tokens.current, _, ?_, hq⟩, hsetting⟩
  rw [expect_apply, if_pos hkind]

open Parse in
/-- Every program of the grammar is accepted up to the last token. -/
theorem Grammar.IsProgram.accepts {ts : List Token} {program : Program}
    (h : IsProgram ts program) : ∃ Γ, Accepts Parse.program .start ts program Γ [] := by
  cases h with
  | @mk _ _ Γ _ _ _ _ _ _ _ _ _ _ hword hname hsemicolon hdeclared hvars hsubs hbody hperiod =>
    obtain ⟨hnames, hvar⟩ := hsubs.starts hbody.starts
    refine ⟨Γ, ?_⟩
    refine accepts_bind (accepts_expect hword) (accepts_bind (accepts_expect hname) ?_)
    refine accepts_bind (accepts_expect hsemicolon) (accepts_bind (accepts_declare hdeclared) ?_)
    refine accepts_bind (hvars.accepts hnames hvar) (accepts_bind (hsubs.accepts hbody.starts) ?_)
    refine accepts_bind hbody.accepts (accepts_bind (accepts_expect hperiod) ?_)
    exact accepts_end_bind (accepts_pure _)

namespace Program

/-- Reading a program from tokens is a success of the parser of programs. -/
theorem fst_ofTokens_eq_ok {tokens : TokenStream} {t : SymbolTable} {program : Program} :
    (ofTokens tokens t).1 = .ok program ↔
      ∃ q, Parse.program ⟨tokens, t, []⟩ = .ok program q := by
  unfold ofTokens
  split
  · next hok => simp [hok]
  · next herror => simp [herror]
  · next hexhausted => exact absurd hexhausted (Parse.program_ne_exhausted _)

/-- The tokens before the end token are read as a program exactly if the grammar derives them, and
then as the program that they stand for. -/
theorem ofTokens_eq_ok_iff {tokens : List Token} {stop : Token} (hstop : stop.kind = .eof)
    (htokens : ∀ token ∈ tokens, token.kind ≠ .eof) (program : Program) :
    (ofTokens (.ofTokens (tokens ++ [stop])) .empty).1 = .ok program ↔
      IsProgram tokens program := by
  have hpending : (TokenStream.ofTokens (tokens ++ [stop])).pending = tokens := by
    have hkept : ∀ token ∈ tokens, decide (token.kind ≠ .eof) = true := by simpa using htokens
    rw [TokenStream.ofTokens, List.takeWhile_append_of_pos hkept]
    simp [hstop]
  rw [fst_ofTokens_eq_ok]
  constructor
  · rintro ⟨q, hq⟩
    have hprogram := Parse.yields_program _ _ _ hq rfl
    rw [hpending] at hprogram
    exact hprogram htokens
  · intro hprogram
    obtain ⟨Γ, haccepts⟩ := hprogram.accepts
    obtain ⟨q, hq, -⟩ := haccepts ⟨.ofTokens (tokens ++ [stop]), .empty, []⟩ rfl hpending
    exact ⟨q, hq⟩

/-- The tokens of a text, given by its lines, before its end token. -/
def tokensOf (lines : List String) : List Token :=
  ((Lexer.tokens .start (lines.flatMap String.toList)).toOption.getD []).dropLast

/-- Sections, a subprogram in a subprogram, calls with and without arguments, signs, and semicolons
before closing words. -/
def varietyLines : List String :=
  ["program p; var i, j: integer; x: real; ", "var a: array [-2:2] of real; ",
    "function f(n: integer; y: real): integer; ", "procedure h; begin f := n; end; ",
    "begin if n <= 0 then h ", "else f := n * f(n - 1, y); end; ",
    "begin begin end; while not (i <> j) do ", "a[-i] := +x * 2.5 - a[f(i, x) mod 2]; end."]

/-- The name of the program is no target. -/
def misusedLines : List String := ["program p; var i: integer; ", "begin p := i end."]

theorem varietyLines_isProgram :
    (∀ token ∈ tokensOf varietyLines, token.kind ≠ .eof) ∧
      (∃ program, program.subprograms.map Subprogram.name = ["f"] ∧
        IsProgram (tokensOf varietyLines) program) ∧
      (tokensOf misusedLines).length = 14 ∧ (∀ token ∈ tokensOf misusedLines, token.kind ≠ .eof) ∧
      ∀ program, ¬IsProgram (tokensOf misusedLines) program := by
  let stop : Token := ⟨.eof, "", .start⟩
  have hvariety : (∀ token ∈ tokensOf varietyLines, token.kind ≠ .eof) ∧
      ((ofTokens (.ofTokens (tokensOf varietyLines ++ [stop])) .empty).1.toOption.map
        fun program => program.subprograms.map Subprogram.name) = some ["f"] := by
    decide +kernel
  have hmisused : (tokensOf misusedLines).length = 14 ∧
      (∀ token ∈ tokensOf misusedLines, token.kind ≠ .eof) ∧
      (ofTokens (.ofTokens (tokensOf misusedLines ++ [stop])) .empty).1.toOption = none := by
    decide +kernel
  obtain ⟨htokens, hnames⟩ := hvariety
  obtain ⟨hlength, htokens', hnone⟩ := hmisused
  refine ⟨htokens, ?_, hlength, htokens', fun program hprogram => ?_⟩
  · cases hread : (ofTokens (.ofTokens (tokensOf varietyLines ++ [stop])) .empty).1 with
    | error cause =>
      rw [hread] at hnames
      cases hnames
    | ok program =>
      rw [hread] at hnames
      exact ⟨program, Option.some.inj hnames, (ofTokens_eq_ok_iff rfl htokens program).1 hread⟩
  · rw [(ofTokens_eq_ok_iff (rfl : stop.kind = .eof) htokens' program).2 hprogram] at hnone
    cases hnone

end Program

end PascalMips
