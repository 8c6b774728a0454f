import PascalMips.Program.Parser
import PascalMips.Proofs.Parser.Rules

/-!
# Names in programs are words

The lexer accepts no low line, so no lexeme holds one (`words_of_lex`), and neither does a name in a
program that the parser builds from such tokens (`words_program`). Each production keeps the tokens
to come free of low lines and gives names that are; the nested productions follow by `words_nest`.
-/

namespace PascalMips

/-- The text holds no low line, the sign that joins names in labels. -/
def IsWord (text : String) : Prop := '_' ∉ text.toList

instance : DecidablePred IsWord := fun text => inferInstanceAs (Decidable ('_' ∉ text.toList))

/-! ## Lexemes -/

namespace Lexer

/-- What is taken of a text by a test that refuses the low line holds none. -/
theorem notMem_takeWhile {f : Char → Bool} (hf : f '_' = false) (cs : List Char) :
    '_' ∉ cs.takeWhile f := by
  intro hmem
  have hall := List.all_eq_true.1 List.all_takeWhile '_' hmem
  rw [hf] at hall
  cases hall

theorem notMem_fraction (cs : List Char) : '_' ∉ (fraction cs).1 := by
  unfold fraction
  split
  · next rest =>
    split
    · exact List.not_mem_nil
    · exact List.not_mem_cons_of_ne_of_not_mem (by decide) (notMem_takeWhile (by decide) rest)
  · exact List.not_mem_nil

theorem notMem_sign (cs : List Char) : '_' ∉ (sign cs).1 := by
  unfold sign
  split <;> simp

/-- An exponent is a letter, a sign and digits. -/
theorem notMem_exponent? {cs text rest : List Char} (h : exponent? cs = some (text, rest)) :
    '_' ∉ text := by
  unfold exponent? at h
  split at h
  · cases h
    exact List.not_mem_nil
  · next e tail =>
    split at h
    · next he =>
      split at h
      · cases h
      · cases h
        have hsign : '_' ∉ (sign tail).1 ++ (sign tail).2.takeWhile Char.isDigit := fun hmem =>
          (List.mem_append.1 hmem).elim (notMem_sign tail) (notMem_takeWhile (by decide) _)
        refine List.not_mem_cons_of_ne_of_not_mem ?_ hsign
        rcases he with rfl | rfl <;> decide
    · cases h
      exact List.not_mem_nil

/-- A number is digits, a fraction and an exponent, so it holds no low line. -/
theorem notMem_number {c : Char} {rest : List Char} {p : Piece} (hc : c ≠ '_')
    (h : number c rest = .ok p) : '_' ∉ p.text := by
  simp only [number] at h
  split at h
  · cases h
  · next expo after hexpo =>
    cases h
    intro hmem
    rcases List.mem_append.1 hmem with hmem | hmem
    · rcases List.mem_append.1 hmem with hmem | hmem
      · exact List.not_mem_cons_of_ne_of_not_mem hc.symm (notMem_takeWhile (by decide) rest) hmem
      · exact notMem_fraction _ hmem
    · exact notMem_exponent? hexpo hmem

theorem notMem_punct? {c : Char} {rest : List Char} {p : Piece} (h : punct? c rest = some p) :
    '_' ∉ p.text := by
  unfold punct? at h
  split at h <;> cases h <;> simp

/-- A piece that is a lexeme holds no low line. -/
theorem notMem_piece {c : Char} {rest : List Char} {p : Piece} {kind : Kind}
    (h : piece c rest = .ok p) (hkind : p.kind = some kind) : '_' ∉ p.text := by
  unfold piece at h
  split at h
  · cases h
    cases hkind
  split at h
  · unfold comment at h
    split at h <;> cases h
    cases hkind
  split at h
  · next hdigit =>
    exact notMem_number (by rintro rfl; cases hdigit) h
  split at h
  · next halpha =>
    cases h
    refine List.not_mem_cons_of_ne_of_not_mem ?_ (notMem_takeWhile (by decide) rest)
    rintro rfl
    cases halpha
  split at h
  · next q hq =>
    cases h
    exact notMem_punct? hq
  · cases h

/-- Every token of a text is a word, by induction over the pieces of the text. -/
theorem words_of_tokens {loc : Location} {cs : List Char} {ts : List Token}
    (h : tokens loc cs = .ok ts) : ∀ t ∈ ts, IsWord t.lexeme := by
  fun_induction tokens loc cs generalizing ts with
  | case1 loc =>
    cases h
    intro t ht
    rw [List.mem_singleton.1 ht]
    exact List.not_mem_nil
  | case2 => cases h
  | case3 => cases h
  | case4 loc c rest p hpiece later hlater hkind ih =>
    cases h
    exact ih hlater
  | case5 loc c rest p hpiece later hlater kind hkind ih =>
    cases h
    refine List.forall_mem_cons.2 ⟨?_, ih hlater⟩
    rw [IsWord, String.toList_ofList]
    exact notMem_piece hpiece hkind

end Lexer

theorem words_of_lex {source : String} {ts : List Token} (h : lex source = .ok ts) :
    ∀ t ∈ ts, IsWord t.lexeme :=
  Lexer.words_of_tokens h

/-- All tokens of a stream are words. -/
structure TokenStream.Words (s : TokenStream) : Prop where
  pending : ∀ t ∈ s.pending, IsWord t.lexeme
  endLexeme : IsWord s.endLexeme

namespace TokenStream

/-- The stream keeps the tokens up to the end and the text of the end, all of them words. -/
theorem words_ofSource {source : String} {s : TokenStream} (h : ofSource source = .ok s) :
    s.Words := by
  unfold ofSource at h
  cases hlex : lex source with
  | error e =>
    rw [hlex] at h
    cases h
  | ok ts =>
    rw [hlex] at h
    cases h
    have hwords := words_of_lex hlex
    refine ⟨fun t ht => hwords t ((List.takeWhile_sublist _).mem ht), ?_⟩
    show IsWord (endOf ts).lexeme
    unfold endOf
    cases hfind : ts.find? (·.kind = .eof) with
    | none => exact List.not_mem_nil
    | some t => exact hwords t (List.mem_of_find?_eq_some hfind)

theorem Words.current {s : TokenStream} (h : s.Words) : IsWord s.current.lexeme := by
  unfold TokenStream.current
  cases hpending : s.pending with
  | nil => exact h.endLexeme
  | cons t ts => exact h.pending t (hpending ▸ List.mem_cons_self)

theorem Words.advance {s : TokenStream} (h : s.Words) : s.advance.Words :=
  ⟨fun t ht => h.pending t (List.mem_of_mem_tail ht), h.endLexeme⟩

end TokenStream

namespace Parse

variable {α β : Type}

/-! ## Parsers over words -/

/-- Over tokens that are words, a success of `x` leaves such tokens and gives something that
satisfies `Q`. -/
def OverWords (x : Parse α) (Q : α → Prop) : Prop :=
  ∀ p a q, p.tokens.Words → x p = .ok a q → q.tokens.Words ∧ Q a

theorem OverWords.mono {x : Parse α} {Q R : α → Prop} (h : OverWords x Q) (hQR : ∀ a, Q a → R a) :
    OverWords x R := by
  intro p a q hp hx
  obtain ⟨hq, ha⟩ := h p a q hp hx
  exact ⟨hq, hQR a ha⟩

theorem words_pure {a : α} {Q : α → Prop} (h : Q a) : OverWords (pure a) Q := by
  intro p b q hp hx
  obtain ⟨rfl, rfl⟩ := pure_eq_ok.1 hx
  exact ⟨hp, h⟩

/-- One parser after the other: the second is over words again, and knows what the first gave. -/
theorem words_bind {x : Parse α} {f : α → Parse β} {Q : α → Prop} {R : β → Prop}
    (hx : OverWords x Q) (hf : ∀ a, Q a → OverWords (f a) R) : OverWords (x >>= f) R := by
  intro p b r hp h
  obtain ⟨a, q, hxa, hfb⟩ := bind_eq_ok.1 h
  obtain ⟨hq, ha⟩ := hx p a q hp hxa
  exact hf a ha q b r hq hfb

theorem words_fail {fault : ParseFault} {location : Location} {Q : α → Prop} :
    OverWords (fail fault location) Q :=
  fun _ _ _ _ h => nomatch h

theorem words_ite {c : Prop} [Decidable c] {x y : Parse α} {Q : α → Prop} (hx : OverWords x Q)
    (hy : OverWords y Q) : OverWords (if c then x else y) Q := by
  by_cases hc : c
  · rw [if_pos hc]
    exact hx
  · rw [if_neg hc]
    exact hy

theorem words_current : OverWords current fun t => IsWord t.lexeme := by
  intro p a q hp h
  cases h
  exact ⟨hp, hp.current⟩

theorem words_advance : OverWords advance fun t => IsWord t.lexeme := by
  intro p a q hp h
  cases h
  exact ⟨hp.advance, hp.current⟩

/-- A parser that leaves the tokens alone. -/
theorem words_of_tokens_eq {x : Parse α} (h : ∀ p a q, x p = .ok a q → q.tokens = p.tokens) :
    OverWords x fun _ => True := by
  intro p a q hp hx
  rw [h p a q hx]
  exact ⟨hp, trivial⟩

theorem words_unexpected {expected : Expected} {Q : α → Prop} :
    OverWords (unexpected expected) Q :=
  words_bind words_current fun _ _ => words_fail

theorem words_check (kind : Kind) : OverWords (check kind) fun _ => True :=
  words_bind words_current fun _ _ => words_pure trivial

theorem words_accept (kind : Kind) : OverWords (accept kind) fun _ => True :=
  words_bind (words_check kind) fun _ _ =>
    words_ite (words_bind words_advance fun _ _ => words_pure trivial) (words_pure trivial)

theorem words_expect (kind : Kind) : OverWords (expect kind) fun t => IsWord t.lexeme :=
  words_bind (words_check kind) fun _ _ => words_ite words_advance words_unexpected

/-- A declaration reads nothing. -/
theorem words_declare (name : Token) (binding : Binding) :
    OverWords (declare name binding) fun _ => True := by
  refine words_of_tokens_eq fun p a q h => ?_
  unfold declare at h
  split at h
  · cases h
    rfl
  · cases h

theorem words_resolve (name : Token) : OverWords (resolve name) fun _ => True := by
  refine words_of_tokens_eq fun p a q h => ?_
  unfold resolve at h
  split at h
  · cases h
    rfl
  · cases h

theorem words_isEnclosing (name : String) : OverWords (isEnclosing name) fun _ => True := by
  refine words_of_tokens_eq fun p a q h => ?_
  cases h
  rfl

/-- What a repetition gives are the things that its rounds give, by induction over the rounds. -/
theorem words_many {step : Parse (Option α)} {Q : α → Prop}
    (h : OverWords step fun a? => ∀ a, a? = some a → Q a) :
    OverWords (many step) fun as => ∀ a ∈ as, Q a := by
  intro p as q hp hmany
  obtain ⟨r, hrounds, hend⟩ := rounds_of_many hmany
  have hall : r.tokens.Words ∧ ∀ a ∈ as, Q a := by
    clear hmany hend
    induction hrounds with
    | nil => exact ⟨hp, nofun⟩
    | cons hstep _ ih =>
      obtain ⟨hq, ha⟩ := h _ _ _ hp hstep
      obtain ⟨hr, has⟩ := ih hq
      exact ⟨hr, List.forall_mem_cons.2 ⟨ha _ rfl, has⟩⟩
  exact ⟨(h r none q hall.1 hend).1, hall.2⟩

/-- A list with separators is an item and a repetition of items. -/
theorem words_sepBy {separator : Kind} {item : Parse α} {Q : α → Prop} (h : OverWords item Q) :
    OverWords (sepBy separator item) fun as => ∀ a ∈ as, Q a := by
  refine words_bind h fun first hfirst => ?_
  refine words_bind (words_many ?_) fun others hothers =>
    words_pure (List.forall_mem_cons.2 ⟨hfirst, hothers⟩)
  refine words_bind (words_accept separator) fun _ _ => words_ite ?_ ?_
  · exact words_bind h fun a ha => words_pure fun _ h => Option.some.inj h ▸ ha
  · exact words_pure nofun

/-- A property that one level of nesting keeps is one of all levels. -/
theorem words_nest {level : Parse α → Parse α} {Q : α → Prop}
    (h : ∀ inner, OverWords inner Q → OverWords (level inner) Q) : OverWords (nest level) Q := by
  refine fun p a q hp hx => nest_induct (Q := fun p a q => p.tokens.Words →
    q.tokens.Words ∧ Q a) ?_ p a q hx hp
  intro inner hinner p a q hx hp
  exact h inner (fun p a q hp hx => hinner p a q hx hp) p a q hp hx

/-! ## Expressions and statements -/

/-- Over words, a success of `x` leaves words. -/
abbrev LeavesWords (x : Parse α) : Prop := OverWords x fun _ => True

theorem words_operation? {op? : Kind → Option BinaryOp} {operand : Parse Expr}
    (h : LeavesWords operand) : LeavesWords (operation? op? operand) := by
  refine words_bind words_current fun token _ => ?_
  split
  · exact words_pure trivial
  · exact words_bind words_advance fun _ _ => words_bind h fun _ _ => words_pure trivial

theorem words_leftAssoc {op? : Kind → Option BinaryOp} {operand : Parse Expr}
    (h : LeavesWords operand) (first : Expr) : LeavesWords (leftAssoc op? operand first) :=
  words_bind (words_many ((words_operation? h).mono fun _ _ _ _ => trivial)) fun _ _ =>
    words_pure trivial

theorem words_product {factor : Parse Expr} (h : LeavesWords factor) :
    LeavesWords (product factor) :=
  words_bind h fun _ _ => words_leftAssoc h _

theorem words_sum {product : Parse Expr} (h : LeavesWords product) : LeavesWords (sum product) :=
  words_bind (words_accept _) fun _ _ => words_ite
    (words_bind h fun _ _ => words_leftAssoc h _)
    (words_bind (words_accept _) fun _ _ => words_bind h fun _ _ => words_leftAssoc h _)

theorem words_comparison {sum : Parse Expr} (h : LeavesWords sum) :
    LeavesWords (comparison sum) := by
  refine words_bind h fun left _ => words_bind (words_operation? h) fun found _ => ?_
  split <;> exact words_pure trivial

theorem words_expressionOf {factor : Parse Expr} (h : LeavesWords factor) :
    LeavesWords (expressionOf factor) :=
  words_comparison (words_sum (words_product h))

theorem words_index {expression : Parse Expr} (h : LeavesWords expression) :
    LeavesWords (index expression) :=
  words_bind (words_expect _) fun _ _ => words_bind h fun _ _ =>
    words_bind (words_expect _) fun _ _ => words_pure trivial

theorem words_group {expression : Parse Expr} (h : LeavesWords expression) :
    LeavesWords (group expression) :=
  words_bind (words_expect _) fun _ _ => words_bind h fun _ _ =>
    words_bind (words_expect _) fun _ _ => words_pure trivial

theorem words_arguments {expression : Parse Expr} (h : LeavesWords expression) (name : Token)
    (params : List ValueType) : LeavesWords (arguments expression name params) := by
  have hlist : LeavesWords (argumentList expression) :=
    words_bind (words_accept _) fun _ _ => words_ite
      (words_bind (words_sepBy h) fun _ _ => words_bind (words_expect _) fun _ _ =>
        words_pure trivial)
      (words_pure trivial)
  exact words_bind hlist fun _ _ => words_ite (words_pure trivial) words_fail

theorem words_named {expression : Parse Expr} (h : LeavesWords expression) (name : Token) :
    LeavesWords (named expression name) := by
  refine words_bind (words_resolve name) fun binding _ => ?_
  split
  · exact words_pure trivial
  · exact words_bind (words_index h) fun _ _ => words_pure trivial
  · exact words_bind (words_arguments h _ _) fun _ _ => words_pure trivial
  · exact words_fail

/-- One level of factors, case by case of the first token. -/
theorem words_factorOf (inner : Parse Expr) (h : LeavesWords inner) :
    LeavesWords (factorOf inner) := by
  refine words_bind words_current fun token _ => ?_
  split
  · exact words_bind words_advance fun _ _ => words_ite (words_pure trivial) words_fail
  · exact words_group (words_expressionOf h)
  · exact words_bind words_advance fun _ _ => words_bind h fun _ _ => words_pure trivial
  · exact words_bind words_advance fun _ _ => words_named (words_expressionOf h) _
  · exact words_unexpected

theorem words_expression : LeavesWords expression :=
  words_expressionOf (words_nest words_factorOf)

theorem words_target (name : Token) : LeavesWords (target name) := by
  refine words_bind (words_resolve name) fun binding _ => ?_
  split
  · exact words_pure trivial
  · exact words_bind (words_index words_expression) fun _ _ => words_pure trivial
  · exact words_bind (words_isEnclosing _) fun _ _ => words_ite (words_pure trivial) words_fail
  · exact words_fail

/-- Calls and assignments: the meaning of the first name decides, which reads nothing. -/
theorem words_callOrAssign : LeavesWords callOrAssign := by
  have hprocedure (name : String) : LeavesWords (procedure? name) := by
    refine words_of_tokens_eq fun p a q h => ?_
    unfold procedure? at h
    split at h <;> cases h <;> rfl
  refine words_bind (words_expect _) fun name _ => words_bind (hprocedure _) fun found _ => ?_
  split
  · exact words_bind (words_arguments words_expression _ _) fun _ _ => words_pure trivial
  · exact words_bind (words_target _) fun _ _ => words_bind (words_expect _) fun _ _ =>
      words_bind words_expression fun _ _ => words_pure trivial

theorem words_compoundOf {statement : Parse Statement} (h : LeavesWords statement) :
    LeavesWords (compoundOf statement) := by
  have hnext : OverWords (nextStatement? statement) fun s? => ∀ s, s? = some s → True := by
    refine words_bind (words_accept _) fun _ _ => words_ite ?_ (words_pure fun _ _ => trivial)
    exact words_bind (words_check _) fun _ _ => words_ite (words_pure fun _ _ => trivial)
      (words_bind h fun _ _ => words_pure fun _ _ => trivial)
  have hlist : LeavesWords (statementList statement) :=
    words_bind (words_check _) fun _ _ => words_ite (words_pure trivial)
      (words_bind h fun _ _ => words_bind (words_many hnext) fun _ _ => words_pure trivial)
  exact words_bind (words_expect _) fun _ _ => words_bind hlist fun _ _ =>
    words_bind (words_expect _) fun _ _ => words_pure trivial

theorem words_branchOf {statement : Parse Statement} (h : LeavesWords statement) :
    LeavesWords (branchOf statement) :=
  words_bind (words_expect _) fun _ _ => words_bind words_expression fun _ _ =>
    words_bind (words_expect _) fun _ _ => words_bind h fun _ _ =>
      words_bind (words_expect _) fun _ _ => words_bind h fun _ _ => words_pure trivial

theorem words_loopOf {statement : Parse Statement} (h : LeavesWords statement) :
    LeavesWords (loopOf statement) :=
  words_bind (words_expect _) fun _ _ => words_bind words_expression fun _ _ =>
    words_bind (words_expect _) fun _ _ => words_bind h fun _ _ => words_pure trivial

/-- One level of statements, case by case of the first token. -/
theorem words_statementOf (inner : Parse Statement) (h : LeavesWords inner) :
    LeavesWords (statementOf inner) := by
  refine words_bind words_current fun token _ => ?_
  split
  · exact words_callOrAssign
  · exact words_bind (words_compoundOf h) fun _ _ => words_pure trivial
  · exact words_branchOf h
  · exact words_loopOf h
  · exact words_bind (words_expect _) fun _ _ => words_bind (words_expect _) fun _ _ =>
      words_bind (words_expect _) fun _ _ => words_bind (words_target _) fun _ _ =>
        words_bind (words_expect _) fun _ _ => words_pure trivial
  · exact words_bind (words_expect _) fun _ _ => words_bind (words_group words_expression)
      fun _ _ => words_pure trivial
  · exact words_unexpected

theorem words_compound : LeavesWords compound :=
  words_compoundOf (words_nest words_statementOf)

end Parse

/-! ## Programs -/

/-- The names of a subprogram and of those nested in it are words. -/
inductive Subprogram.Words : Subprogram → Prop
  | intro {s : Subprogram} (name : IsWord s.name) (subprograms : ∀ t ∈ s.subprograms, Words t) :
      Words s

/-- The names of the variables and of all subprograms of a program are words. -/
structure Program.Words (p : Program) : Prop where
  vars : ∀ v ∈ p.vars, IsWord v.name
  subprograms : ∀ s ∈ p.subprograms, s.Words

namespace Parse

theorem words_names : OverWords names fun ts => ∀ t ∈ ts, IsWord t.lexeme :=
  words_sepBy (words_expect _)

theorem words_standardType : LeavesWords standardType :=
  words_bind (words_accept _) fun _ _ => words_ite (words_pure trivial)
    (words_bind (words_accept _) fun _ _ => words_ite (words_pure trivial) words_unexpected)

theorem words_bound : LeavesWords bound := by
  refine words_bind (words_accept _) fun negative _ =>
    words_bind (words_expect _) fun number _ => ?_
  dsimp only
  split
  · exact words_pure trivial
  · exact words_fail

theorem words_declaredType : LeavesWords declaredType :=
  words_bind (words_accept _) fun _ _ => words_ite
    (words_bind (words_expect _) fun _ _ => words_bind words_bound fun _ _ =>
      words_bind (words_expect _) fun _ _ => words_bind words_bound fun _ _ =>
        words_bind (words_expect _) fun _ _ => words_bind (words_expect _) fun _ _ =>
          words_bind words_standardType fun _ _ => words_ite (words_pure trivial) words_fail)
    (words_bind words_standardType fun _ _ => words_pure trivial)

theorem words_declareAll (binding : Binding) (ts : List Token) :
    LeavesWords (declareAll binding ts) := by
  induction ts with
  | nil => exact words_pure trivial
  | cons t ts ih => exact words_bind (words_declare t binding) fun _ _ => ih

/-- The variables of a group have the names that were read. -/
theorem words_variableGroup : OverWords variableGroup fun vs => ∀ v ∈ vs, IsWord v.name := by
  refine words_bind words_names fun ts hts => words_bind (words_expect _) fun _ _ =>
    words_bind words_declaredType fun declared _ => words_bind (words_expect _) fun _ _ =>
      words_bind (words_declareAll _ _) fun _ _ => words_pure fun v hv => ?_
  obtain ⟨t, ht, rfl⟩ := List.mem_map.1 hv
  exact hts t ht

theorem words_flatten {α : Type} {Q : α → Prop} {groups : List (List α)}
    (h : ∀ group ∈ groups, ∀ a ∈ group, Q a) : ∀ a ∈ groups.flatten, Q a := by
  intro a ha
  obtain ⟨group, hgroup, ha⟩ := List.mem_flatten.1 ha
  exact h group hgroup a ha

/-- The variables of a block are those of its sections and groups, whose names are words. -/
theorem words_varSections : OverWords varSections fun vs => ∀ v ∈ vs, IsWord v.name := by
  have hnext : OverWords nextGroup? fun group? =>
      ∀ group, group? = some group → ∀ v ∈ group, IsWord v.name := by
    refine words_bind (words_check _) fun _ _ => words_ite ?_ (words_pure nofun)
    exact words_bind words_variableGroup fun group hgroup =>
      words_pure fun _ heq => Option.some.inj heq ▸ hgroup
  have hsection : OverWords variableSection? fun group? =>
      ∀ group, group? = some group → ∀ v ∈ group, IsWord v.name := by
    refine words_bind (words_accept _) fun _ _ => words_ite ?_ (words_pure nofun)
    refine words_bind words_variableGroup fun first hfirst => words_bind (words_many hnext)
      fun others hothers => words_pure fun _ heq => Option.some.inj heq ▸ ?_
    exact List.forall_mem_append.2 ⟨hfirst, words_flatten hothers⟩
  exact words_bind (words_many hsection) fun _ hgroups => words_pure (words_flatten hgroups)

theorem words_parameters : LeavesWords parameters := by
  have hgroup : LeavesWords parameterGroup :=
    words_bind words_names fun _ _ => words_bind (words_expect _) fun _ _ =>
      words_bind words_standardType fun _ _ => words_pure trivial
  exact words_bind (words_accept _) fun _ _ => words_ite
    (words_bind (words_sepBy hgroup) fun _ _ => words_bind (words_expect _) fun _ _ =>
      words_pure trivial)
    (words_pure trivial)

theorem words_declareParameters (params : List (Token × ValueType)) :
    LeavesWords (declareParameters params) := by
  induction params with
  | nil => exact words_pure trivial
  | cons param params ih =>
    exact words_bind (words_declare param.1 (.scalar param.2)) fun _ _ => ih

theorem words_routineKind : LeavesWords routineKind :=
  words_bind (words_accept _) fun _ _ => words_ite (words_pure trivial)
    (words_bind (words_expect _) fun _ _ => words_pure trivial)

theorem words_declareRoutine (kind : RoutineKind) (name : Token) (params : List ValueType) :
    LeavesWords (declareRoutine kind name params) := by
  cases kind with
  | function =>
    exact words_bind (words_expect _) fun _ _ => words_bind words_standardType fun _ _ =>
      words_bind (words_declare _ _) fun _ _ => words_pure trivial
  | procedure => exact words_bind (words_declare _ _) fun _ _ => words_pure trivial

/-- A further subprogram, if there is one, has words for names. -/
theorem words_nextSubprogram? {inner : Parse Subprogram} (h : OverWords inner Subprogram.Words) :
    OverWords (nextSubprogram? inner) fun s? => ∀ s, s? = some s → s.Words := by
  refine words_bind words_current fun _ _ => words_ite ?_ (words_pure nofun)
  exact words_bind h fun s hs => words_bind (words_expect _) fun _ _ =>
    words_pure fun _ heq => Option.some.inj heq ▸ hs

/-- One level of subprograms: the name is a token that was read, and the subprograms inside are
given by the level below. -/
theorem words_subprogramOf (inner : Parse Subprogram) (h : OverWords inner Subprogram.Words) :
    OverWords (subprogramOf inner) Subprogram.Words := by
  have hopen (name : String) : LeavesWords (openScope name) :=
    words_of_tokens_eq fun p a q h => by cases h; rfl
  have hclose (name : String) : LeavesWords (closeScope name) :=
    words_of_tokens_eq fun p a q h => by cases h; rfl
  refine words_bind words_routineKind fun kind _ => words_bind (words_expect _) fun name hname =>
    words_bind words_parameters fun params _ => words_bind (words_declareRoutine _ _ _) fun _ _ =>
      words_bind (words_expect _) fun _ _ => words_bind (hopen _) fun _ _ =>
        words_bind (words_declareParameters _) fun _ _ => words_bind words_varSections
          fun vars _ => words_bind (words_many (words_nextSubprogram? h)) fun subs hsubs =>
            words_bind words_compound fun body _ => words_bind (hclose _) fun _ _ => words_pure ?_
  exact .intro hname hsubs

/-- The names in a program that is read from words are words. -/
theorem words_program : OverWords program Program.Words := by
  refine words_bind (words_expect _) fun _ _ => words_bind (words_expect _) fun _ _ =>
    words_bind (words_expect _) fun _ _ => words_bind (words_declare _ _) fun _ _ =>
      words_bind words_varSections fun vars hvars =>
        words_bind (words_many (words_nextSubprogram? (words_nest words_subprogramOf)))
          fun subs hsubs => words_bind words_compound fun _ _ =>
            words_bind (words_expect _) fun _ _ => words_bind (words_expect _) fun _ _ =>
              words_pure ⟨hvars, hsubs⟩

end Parse

end PascalMips
