import PascalMips.Proofs.Parser.Rules
import PascalMips.Proofs.Parser.Settings

/-!
# What the parser accepts is in the grammar

`Yields x R` says that whenever `x` succeeds, the tokens it read are a phrase of `R` that stands for
the value it gives. A sequence is proved by collecting what its steps say (`yields_bind`) and
choosing, at its end, the rule that they make up. Repetitions and nested parsers go by induction
over their rounds and levels, so each production is one lemma over the productions it uses.
-/

namespace PascalMips

open Grammar

namespace Parse

variable {α β : Type}

/-! ## Phrases -/

/-- The setting and the tokens before a phrase, what it stands for, and the setting and the tokens
after it. -/
abbrev Phrase (α : Type) : Type := Setting → List Token → α → Setting → List Token → Prop

/-- A phrase that declares nothing. -/
def Fixed (R : Setting → List Token → α → List Token → Prop) : Phrase α :=
  fun Γ ts a Γ' rest => Γ' = Γ ∧ R Γ ts a rest

/-- A phrase of `R`, or nothing. -/
def Optionally (R : Phrase α) : Phrase (Option α) := fun Γ ts a? Γ' rest =>
  a?.elim (Γ' = Γ ∧ rest = ts) fun a => R Γ ts a Γ' rest

/-- What `x` reads when it succeeds is a phrase of `R`. -/
def Yields (x : Parse α) (R : Phrase α) : Prop :=
  ∀ p a q, x p = .ok a q → R p.setting p.tokens.pending a q.setting q.tokens.pending

variable {R : Phrase α} {T : Phrase β}

/-- What is read as a phrase of `R` is one of anything that follows from `R`. -/
theorem Yields.mono {x : Parse α} {S : Phrase α} (h : Yields x R)
    (hRS : ∀ Γ ts a Γ' rest, R Γ ts a Γ' rest → S Γ ts a Γ' rest) : Yields x S :=
  fun p a q hp => hRS _ _ _ _ _ (h p a q hp)

theorem Yields.and {x : Parse α} {S : Phrase α} (h : Yields x R) (h' : Yields x S) :
    Yields x fun Γ ts a Γ' rest => R Γ ts a Γ' rest ∧ S Γ ts a Γ' rest :=
  fun p a q hp => ⟨h p a q hp, h' p a q hp⟩

theorem yields_pure {a : α} (h : ∀ Γ ts, R Γ ts a Γ ts) : Yields (pure a) R := by
  intro p b q hp
  obtain ⟨rfl, rfl⟩ := pure_eq_ok.1 hp
  exact h _ _

/-- The rest of a sequence may use what its first step says. -/
theorem yields_bind {x : Parse α} {f : α → Parse β} (hx : Yields x R)
    (hf : ∀ a, Yields (f a) fun Γ₁ us b Γ' rest => ∀ Γ ts, R Γ ts a Γ₁ us → T Γ ts b Γ' rest) :
    Yields (x >>= f) T := by
  intro p b r h
  obtain ⟨a, q, hxa, hfb⟩ := bind_eq_ok.1 h
  exact hf a q b r hfb _ _ (hx p a q hxa)

theorem yields_fail {fault : ParseFault} {location : Location} : Yields (fail fault location) R :=
  fun _ _ _ h => nomatch h

/-- A choice reads what its branch reads, which may use the condition. -/
theorem yields_ite {c : Prop} [Decidable c] {x y : Parse α} (hx : c → Yields x R)
    (hy : ¬c → Yields y R) : Yields (if c then x else y) R := by
  by_cases hc : c
  · rw [if_pos hc]
    exact hx hc
  · rw [if_neg hc]
    exact hy hc

/-! ## Tokens -/

/-- The kind of the token that is looked at is known from then on. -/
theorem yields_current_bind {f : Token → Parse α}
    (h : ∀ token, Yields (f token) fun Γ ts a Γ' rest =>
      nextKind ts = token.kind → R Γ ts a Γ' rest) : Yields (current >>= f) R :=
  fun p a q hp => h p.tokens.current p a q hp (kind_current _).symm

/-- A token whose kind is known is read. -/
theorem yields_advance_bind {kind : Kind} (hk : kind ≠ .eof) {f : Token → Parse α}
    (h : ∀ token, token.kind = kind →
      Yields (f token) fun Γ us a Γ' rest => R Γ (token :: us) a Γ' rest) :
    Yields (advance >>= f) fun Γ ts a Γ' rest => nextKind ts = kind → R Γ ts a Γ' rest := by
  intro p a q hp hkind
  have hcurrent : p.tokens.current.kind = kind := (kind_current _).trans hkind
  rw [pending_eq_cons (hcurrent ▸ hk)]
  exact h p.tokens.current hcurrent _ a q hp

theorem yields_unexpected {expected : Expected} : Yields (unexpected expected) R :=
  yields_current_bind fun _ => yields_fail

theorem yields_check (kind : Kind) : Yields (check kind) (Fixed fun _ ts _ rest => rest = ts) := by
  intro p b q h
  cases h
  exact ⟨rfl, rfl⟩

/-- A token of the kind is read if it is next, and otherwise nothing is. -/
theorem yields_accept {kind : Kind} (hk : kind ≠ .eof) : Yields (accept kind)
    (Fixed fun _ ts found rest =>
      if found then ∃ token, token.kind = kind ∧ ts = token :: rest else rest = ts) := by
  intro p found q h
  rw [accept_apply] at h
  split at h
  · next hkind =>
    cases h
    exact ⟨rfl, p.tokens.current, hkind, pending_eq_cons (hkind ▸ hk)⟩
  · cases h
    exact ⟨rfl, rfl⟩

/-- A success of an expectation has read one token of that kind. -/
theorem yields_expect {kind : Kind} (hk : kind ≠ .eof) : Yields (expect kind)
    (Fixed fun _ ts token rest => token.kind = kind ∧ ts = token :: rest) := by
  intro p token q h
  rw [expect_apply] at h
  split at h
  · next hkind =>
    cases h
    exact ⟨rfl, hkind, pending_eq_cons (hkind ▸ hk)⟩
  · cases h

/-- A branch on whether the next token is of a kind, which is read in the first case. -/
theorem yields_accept_ite {kind : Kind} (hk : kind ≠ .eof) {x y : Parse α}
    (hx : Yields x fun Γ ts a Γ' rest => ∀ token, token.kind = kind → R Γ (token :: ts) a Γ' rest)
    (hy : Yields y R) : Yields (do if ← accept kind then x else y) R := by
  refine yields_bind (yields_accept hk) fun found => yields_ite ?_ ?_
  · rintro hfound p a q h Γ ts ⟨hΓ, hread⟩
    rw [if_pos hfound] at hread
    obtain ⟨token, hkind, rfl⟩ := hread
    exact hΓ ▸ hx p a q h token hkind
  · rintro hfound p a q h Γ ts ⟨hΓ, hread⟩
    rw [if_neg hfound] at hread
    exact hΓ ▸ hread ▸ hy p a q h

/-! ## Names -/

/-- A success of a declaration has changed the setting as the grammar does. -/
theorem yields_declare (name : Token) (binding : Binding) : Yields (declare name binding)
    fun Γ ts _ Γ' rest => Γ.declare? name.lexeme binding = some Γ' ∧ rest = ts := by
  intro p a q h
  unfold declare at h
  split at h
  · next t ht =>
    cases h
    exact ⟨by rw [Parser.setting_declare?, ht]; rfl, rfl⟩
  · cases h

/-- A name that resolves has that meaning in the setting. -/
theorem yields_resolve (name : Token) : Yields (resolve name)
    (Fixed fun Γ ts binding rest => Γ.meaning? name.lexeme = some binding ∧ rest = ts) := by
  intro p binding q h
  unfold resolve at h
  split at h
  · next symbol hsymbol =>
    cases h
    exact ⟨rfl, by rw [Parser.meaning?_setting, hsymbol]; rfl, rfl⟩
  · cases h

/-- Names of bodies around are known from the setting. -/
theorem yields_isEnclosing (name : String) : Yields (isEnclosing name)
    (Fixed fun Γ ts found rest => (found = true → name ∈ Γ.enclosing) ∧ rest = ts) := by
  intro p found q h
  cases h
  exact ⟨rfl, List.contains_iff_mem.1, rfl⟩

/-! ## Repetition and nesting -/

/-- A repetition reads a sequence of phrases, closed by a round that finds nothing. It goes by
induction over the rounds. -/
theorem yields_many {step : Parse (Option α)} {R : Phrase (Option α)} {T : Phrase (List α)}
    (h : Yields step R)
    (nil : ∀ {Γ Γ' ts rest}, R Γ ts none Γ' rest → T Γ ts [] Γ' rest)
    (cons : ∀ {Γ Γ₁ Γ' ts us rest a as}, R Γ ts (some a) Γ₁ us → T Γ₁ us as Γ' rest →
      T Γ ts (a :: as) Γ' rest) : Yields (many step) T := by
  intro p as q hmany
  obtain ⟨r, hrounds, hend⟩ := rounds_of_many hmany
  clear hmany
  induction hrounds with
  | nil => exact nil (h _ _ _ hend)
  | cons hstep _ ih => exact cons (h _ _ _ hstep) (ih hend)

/-- A list with separators is a phrase of any relation that holds of one item and goes through a
separator. -/
theorem yields_sepBy {separator : Kind} (hk : separator ≠ .eof) {item : Parse α}
    {Item : Setting → List Token → α → List Token → Prop}
    {Items : Setting → List Token → List α → List Token → Prop}
    (h : Yields item (Fixed Item))
    (one : ∀ {Γ ts rest a}, Item Γ ts a rest → Items Γ ts [a] rest)
    (more : ∀ {Γ ts us rest token a as}, Item Γ ts a (token :: us) → token.kind = separator →
      Items Γ us as rest → Items Γ ts (a :: as) rest) :
    Yields (sepBy separator item) (Fixed Items) := by
  have hround : Yields (nextItem? separator item) (Optionally (Fixed fun Γ ts b rest =>
      ∃ token us, ts = token :: us ∧ token.kind = separator ∧ Item Γ us b rest)) := by
    refine yields_accept_ite hk (yields_bind h fun b => yields_pure ?_) (yields_pure ?_)
    · rintro Γ rest _ us ⟨rfl, hb⟩ token hkind
      exact ⟨rfl, token, us, rfl, hkind, hb⟩
    · exact fun Γ ts => ⟨rfl, rfl⟩
  -- the rounds start after an item, which is the first of the items they make up
  have hothers : Yields (many (nextItem? separator item))
      (Fixed fun Γ ts as rest => ∀ vs a, Item Γ vs a ts → Items Γ vs (a :: as) rest) := by
    refine yields_many hround ?_ ?_
    · rintro Γ _ ts _ ⟨rfl, rfl⟩
      exact ⟨rfl, fun vs a ha => one ha⟩
    · rintro Γ _ _ _ us rest b as ⟨rfl, token, ws, rfl, hkind, hb⟩ ⟨rfl, has⟩
      exact ⟨rfl, fun vs a ha => more ha hkind (has ws b hb)⟩
  rw [sepBy_eq]
  refine yields_bind h fun a => yields_bind hothers fun as => yields_pure ?_
  rintro Γ rest _ us ⟨rfl, has⟩ _ ts ⟨rfl, ha⟩
  exact ⟨rfl, has ts a ha⟩

/-- A relation that one level keeps is one of all levels. -/
theorem yields_nest {level : Parse α → Parse α}
    (h : ∀ inner, Yields inner R → Yields (level inner) R) : Yields (nest level) R :=
  nest_induct h

/-! ## Expressions -/

/-- An operation is an operator of the level and an operand, or nothing. -/
theorem yields_operation? {op? : Kind → Option BinaryOp} (hop : op? .eof = none)
    {operand : Parse Expr} {Operand : Setting → List Token → Expr → List Token → Prop}
    (h : Yields operand (Fixed Operand)) : Yields (operation? op? operand)
      (Optionally (Fixed fun Γ ts o rest =>
        ∃ token us, ts = token :: us ∧ op? token.kind = some o.1 ∧ Operand Γ us o.2 rest)) := by
  refine yields_current_bind fun token => ?_
  cases hkind : op? token.kind with
  | none => exact yields_pure fun Γ ts _ => ⟨rfl, rfl⟩
  | some op =>
    have hne : token.kind ≠ .eof := by
      intro heof
      simp [heof, hop] at hkind
    refine yields_advance_bind hne fun sign hsign => yields_bind h fun e => yields_pure ?_
    rintro Γ rest _ us ⟨rfl, he⟩
    exact ⟨rfl, sign, us, rfl, hsign ▸ hkind, he⟩

/-- A chain of operations is a tail of the grammar, which takes the operation so far as its left
operand. It goes by induction over the rounds, with what is on the left left open. -/
theorem yields_leftAssoc {op? : Kind → Option BinaryOp} (hop : op? .eof = none)
    {operand : Parse Expr} {Operand : Setting → List Token → Expr → List Token → Prop}
    {Tail : Setting → Expr → List Token → Expr → List Token → Prop}
    (h : Yields operand (Fixed Operand))
    (nil : ∀ {Γ left ts}, Tail Γ left ts left ts)
    (cons : ∀ {Γ left sign op ts right us e rest}, op? sign.kind = some op →
      Operand Γ ts right us → Tail Γ (.ofBinary op left right) us e rest →
      Tail Γ left (sign :: ts) e rest) (first : Expr) :
    Yields (leftAssoc op? operand first) (Fixed fun Γ ts e rest => Tail Γ first ts e rest) := by
  have hoperations : Yields (many (operation? op? operand)) (Fixed fun Γ ts operations rest =>
      ∀ left, Tail Γ left ts (operations.foldl (fun left o => .ofBinary o.1 left o.2) left)
        rest) := by
    refine yields_many (yields_operation? hop h) ?_ ?_
    · rintro Γ _ ts _ ⟨rfl, rfl⟩
      exact ⟨rfl, fun left => nil⟩
    · rintro Γ _ _ _ us rest o operations ⟨rfl, sign, ts, rfl, hsign, hright⟩ ⟨rfl, hmore⟩
      exact ⟨rfl, fun left => cons hsign hright (hmore _)⟩
  refine yields_bind hoperations fun operations => yields_pure ?_
  rintro Γ rest _ ts ⟨rfl, hmore⟩
  exact ⟨rfl, hmore first⟩

theorem yields_product {factor : Parse Expr} (h : Yields factor (Fixed IsFactor)) :
    Yields (product factor) (Fixed IsProduct) := by
  have htail (first : Expr) : Yields (leftAssoc multiplicative? factor first)
      (Fixed fun Γ ts e rest => IsProductTail Γ first ts e rest) :=
    yields_leftAssoc rfl h .nil (fun hop => .cons (multiplicative?_eq_some.1 hop)) first
  refine yields_bind h fun first => (htail first).mono ?_
  rintro Γ us e _ rest ⟨rfl, hmore⟩ _ ts ⟨rfl, hfirst⟩
  exact ⟨rfl, .mk hfirst hmore⟩

/-- A sum that is read is one of the grammar: with a sign before its first product or without. -/
theorem yields_sum {product : Parse Expr} (h : Yields product (Fixed IsProduct)) :
    Yields (sum product) (Fixed IsSum) := by
  have htail (first : Expr) : Yields (leftAssoc additive? product first)
      (Fixed fun Γ ts e rest => IsSumTail Γ first ts e rest) :=
    yields_leftAssoc rfl h .nil (fun hop => .cons (additive?_eq_some.1 hop)) first
  refine yields_accept_ite (by decide) ?_ ?_
  · refine yields_bind h fun first => (htail _).mono ?_
    rintro Γ us e _ rest ⟨rfl, hmore⟩ _ ts ⟨rfl, hfirst⟩ sign hsign
    exact ⟨rfl, .minus hsign hfirst hmore⟩
  · refine yields_bind (yields_accept (by decide)) fun signed => yields_bind h fun first =>
      (htail first).mono ?_
    rintro Γ us e _ rest ⟨rfl, hmore⟩ _ ts ⟨rfl, hfirst⟩ _ vs ⟨rfl, hsigned⟩
    cases signed with
    | true =>
      obtain ⟨sign, hsign, rfl⟩ := hsigned
      exact ⟨rfl, .plus hsign hfirst hmore⟩
    | false =>
      cases hsigned
      exact ⟨rfl, .plain hfirst hmore⟩

/-- An expression that is read is a sum, or two sums with a relation between them. -/
theorem yields_comparison {sum : Parse Expr} (h : Yields sum (Fixed IsSum)) :
    Yields (comparison sum) (Fixed IsExpression) := by
  refine yields_bind h fun left => yields_bind (yields_operation? rfl h) fun o? => ?_
  cases o? with
  | none =>
    refine yields_pure ?_
    rintro Γ _ _ us ⟨rfl, rfl⟩ _ ts ⟨rfl, hleft⟩
    exact ⟨rfl, .sum hleft⟩
  | some o =>
    refine yields_pure ?_
    rintro Γ rest _ us ⟨rfl, sign, vs, rfl, hsign, hright⟩ _ ts ⟨rfl, hleft⟩
    exact ⟨rfl, .comparison hleft (relation?_eq_some.1 hsign) hright⟩

theorem yields_expressionOf {factor : Parse Expr} (h : Yields factor (Fixed IsFactor)) :
    Yields (expressionOf factor) (Fixed IsExpression) :=
  yields_comparison (yields_sum (yields_product h))

/-- A number that is read is in range. -/
theorem yields_literal (number : Token) : Yields (literal number)
    (Fixed fun _ ts e rest =>
      e = .ofLiteral number.lexeme ∧ IsLiteral number.lexeme ∧ rest = ts) := by
  refine yields_ite (fun h => yields_pure ?_) (fun _ => yields_fail)
  exact fun Γ ts => ⟨rfl, rfl, isNumber_iff.1 h, rfl⟩

section Factors

variable {expression : Parse Expr} (h : Yields expression (Fixed IsExpression))

include h

theorem yields_index : Yields (index expression) (Fixed IsIndex) := by
  refine yields_bind (yields_expect (by decide)) fun opening => yields_bind h fun e =>
    yields_bind (yields_expect (by decide)) fun closing => yields_pure ?_
  rintro Γ rest _ _ ⟨rfl, hclosing, rfl⟩ _ ts ⟨rfl, he⟩ _ _ ⟨rfl, hopening, rfl⟩
  exact ⟨rfl, .mk hopening he hclosing⟩

theorem yields_group : Yields (group expression) (Fixed IsGroup) := by
  refine yields_bind (yields_expect (by decide)) fun opening => yields_bind h fun e =>
    yields_bind (yields_expect (by decide)) fun closing => yields_pure ?_
  rintro Γ rest _ _ ⟨rfl, hclosing, rfl⟩ _ ts ⟨rfl, he⟩ _ _ ⟨rfl, hopening, rfl⟩
  exact ⟨rfl, .mk hopening he hclosing⟩

/-- Arguments that are read are those of the grammar, also where there are none. -/
theorem yields_argumentList : Yields (argumentList expression) (Fixed IsArguments) := by
  have hlist : Yields (sepBy (.punct .comma) expression) (Fixed IsExpressions) :=
    yields_sepBy (by decide) h .one .more
  refine yields_accept_ite (by decide) ?_ (yields_pure fun Γ ts => ⟨rfl, .none⟩)
  refine yields_bind hlist fun args => yields_bind (yields_expect (by decide)) fun closing =>
    yields_pure ?_
  rintro Γ rest _ _ ⟨rfl, hclosing, rfl⟩ _ ts ⟨rfl, hargs⟩ opening hopening
  exact ⟨rfl, .some hopening hargs hclosing⟩

theorem yields_arguments (name : Token) (params : List ValueType) :
    Yields (arguments expression name params) (Fixed fun Γ ts args rest =>
      IsArguments Γ ts args rest ∧ args.length = params.length) := by
  refine yields_bind (yields_argumentList h) fun args => yields_ite (fun hcount => yields_pure ?_)
    (fun _ => yields_fail)
  rintro Γ rest _ ts ⟨rfl, hargs⟩
  exact ⟨rfl, hargs, hcount⟩

/-- A name that is read with what follows it is a factor of the kind that its meaning asks for. -/
theorem yields_named (name : Token) (hkind : name.kind = .identifier) :
    Yields (named expression name) (Fixed fun Γ ts e rest => IsFactor Γ (name :: ts) e rest) := by
  refine yields_bind (yields_resolve name) fun binding => ?_
  cases binding with
  | scalar type =>
    refine yields_pure ?_
    rintro Γ _ _ ts ⟨rfl, hname, rfl⟩
    exact ⟨rfl, .scalar hkind hname⟩
  | array type bounds =>
    refine yields_bind (yields_index h) fun e => yields_pure ?_
    rintro Γ rest _ us ⟨rfl, hindex⟩ _ ts ⟨rfl, hname, rfl⟩
    exact ⟨rfl, .element hkind hname hindex⟩
  | function returns params =>
    refine yields_bind (yields_arguments h name params) fun args => yields_pure ?_
    rintro Γ rest _ us ⟨rfl, hargs, hcount⟩ _ ts ⟨rfl, hname, rfl⟩
    exact ⟨rfl, .call hkind hname hargs hcount⟩
  | program => exact yields_fail
  | procedure params => exact yields_fail

end Factors

/-- One level of factors, case by case of the first token. -/
theorem yields_factorOf (inner : Parse Expr) (h : Yields inner (Fixed IsFactor)) :
    Yields (factorOf inner) (Fixed IsFactor) := by
  have hexpression := yields_expressionOf h
  refine yields_current_bind fun token => ?_
  split
  · next htoken =>
    refine yields_advance_bind (by simp [htoken]) fun number hnumber =>
      (yields_literal number).mono ?_
    rintro Γ ts _ _ _ ⟨rfl, rfl, hliteral, rfl⟩
    exact ⟨rfl, .number (hnumber.trans htoken) hliteral⟩
  · refine (yields_group hexpression).mono ?_
    rintro Γ ts e _ rest ⟨rfl, hgroup⟩ -
    exact ⟨rfl, .group hgroup⟩
  · next htoken =>
    refine yields_advance_bind (by simp [htoken]) fun word hword => yields_bind h fun e =>
      yields_pure ?_
    rintro Γ rest _ ts ⟨rfl, he⟩
    exact ⟨rfl, .not (hword.trans htoken) he⟩
  · next htoken =>
    refine yields_advance_bind (by simp [htoken]) fun name hname => ?_
    exact yields_named hexpression name (hname.trans htoken)
  · exact yields_unexpected

theorem yields_expression : Yields expression (Fixed IsExpression) :=
  yields_expressionOf (yields_nest yields_factorOf)

/-! ## Statements -/

/-- A place that is read is a variable, an element, or the result of a function around. -/
theorem yields_target (name : Token) : Yields (target name)
    (Fixed fun Γ ts place rest =>
      name.kind = .identifier → IsTarget Γ (name :: ts) place rest) := by
  refine yields_bind (yields_resolve name) fun binding => ?_
  cases binding with
  | scalar type =>
    refine yields_pure ?_
    rintro Γ _ _ ts ⟨rfl, hname, rfl⟩
    exact ⟨rfl, fun hkind => .scalar hkind hname⟩
  | array type bounds =>
    refine yields_bind (yields_index yields_expression) fun e => yields_pure ?_
    rintro Γ rest _ us ⟨rfl, hindex⟩ _ ts ⟨rfl, hname, rfl⟩
    exact ⟨rfl, fun hkind => .element hkind hname hindex⟩
  | function returns params =>
    refine yields_bind (yields_isEnclosing name.lexeme) fun found => yields_ite ?_ ?_
    · refine fun hfound => yields_pure ?_
      rintro Γ _ _ us ⟨rfl, hopen, rfl⟩ _ ts ⟨rfl, hname, rfl⟩
      exact ⟨rfl, fun hkind => .result hkind hname (hopen hfound)⟩
    · exact fun _ => yields_fail
  | program => exact yields_fail
  | procedure params => exact yields_fail

/-- The look at a name's meaning reads nothing and finds only procedures. -/
theorem yields_procedure? (name : String) : Yields (procedure? name)
    (Fixed fun Γ ts params? rest =>
      (∀ params, params? = some params → Γ.meaning? name = some (.procedure params)) ∧
        rest = ts) := by
  intro p params? q h
  unfold procedure? at h
  rw [← Parser.meaning?_setting] at h
  split at h
  · next hmeaning =>
    cases h
    refine ⟨rfl, ?_, rfl⟩
    rintro _ ⟨⟩
    exact hmeaning
  · cases h
    exact ⟨rfl, nofun, rfl⟩

/-- The statements that start with a name are those of the grammar. -/
theorem yields_callOrAssign : Yields callOrAssign (Fixed IsStatement) := by
  refine yields_bind (yields_expect (by decide)) fun name =>
    yields_bind (yields_procedure? name.lexeme) fun params? => ?_
  cases params? with
  | some params =>
    refine yields_bind (yields_arguments yields_expression name params) fun args => yields_pure ?_
    rintro Γ rest _ ts ⟨rfl, hargs, hcount⟩ _ _ ⟨rfl, hname, rfl⟩ _ _ ⟨rfl, hkind, rfl⟩
    exact ⟨rfl, .call hkind (hname params rfl) hargs hcount⟩
  | none =>
    refine yields_bind (yields_target name) fun place =>
      yields_bind (yields_expect (by decide)) fun becomes =>
        yields_bind yields_expression fun value => yields_pure ?_
    rintro Γ rest _ us ⟨rfl, hvalue⟩ _ _ ⟨rfl, hbecomes, rfl⟩ _ ts ⟨rfl, htarget⟩
      _ _ ⟨rfl, -, rfl⟩ _ _ ⟨rfl, hkind, rfl⟩
    exact ⟨rfl, .assign (htarget hkind) hbecomes hvalue⟩

section Compounds

variable {statement : Parse Statement} (h : Yields statement (Fixed IsStatement))

include h

/-- A statement after a semicolon, or an optional semicolon. -/
theorem yields_nextStatement? : Yields (nextStatement? statement) (Fixed fun Γ ts s? rest =>
    s?.elim (rest = ts ∨ ∃ semicolon, semicolon.kind = .punct .semicolon ∧ ts = semicolon :: rest)
      fun s => ∃ semicolon us, ts = semicolon :: us ∧ semicolon.kind = .punct .semicolon ∧
        IsStatement Γ us s rest) := by
  refine yields_accept_ite (by decide) ?_ (yields_pure fun Γ ts => ⟨rfl, .inl rfl⟩)
  refine yields_bind (yields_check _) fun closes => yields_ite (fun _ => yields_pure ?_) fun _ => ?_
  · rintro Γ _ _ ts ⟨rfl, rfl⟩ semicolon hsemicolon
    exact ⟨rfl, .inr ⟨semicolon, hsemicolon, rfl⟩⟩
  · refine yields_bind h fun s => yields_pure ?_
    rintro Γ rest _ us ⟨rfl, hs⟩ _ _ ⟨rfl, rfl⟩ semicolon hsemicolon
    exact ⟨rfl, semicolon, us, rfl, hsemicolon, hs⟩

/-- The statements after the first one, up to the closing word. -/
theorem yields_moreStatements : Yields (many (nextStatement? statement))
    (Fixed fun Γ ts ss rest => ∃ us, IsMoreStatements Γ ts ss us ∧
      (rest = us ∨ ∃ semicolon, semicolon.kind = .punct .semicolon ∧ us = semicolon :: rest)) := by
  refine yields_many (yields_nextStatement? h) ?_ ?_
  · rintro Γ _ ts rest ⟨rfl, hrest⟩
    exact ⟨rfl, ts, .nil, hrest⟩
  · rintro Γ _ _ _ us rest s ss ⟨rfl, semicolon, ts, rfl, hsemicolon, hs⟩ ⟨rfl, vs, hss, hrest⟩
    exact ⟨rfl, vs, .cons hsemicolon hs hss, hrest⟩

/-- A compound that is read is one of the grammar, empty or not, with a semicolon before `end` or
without. -/
theorem yields_compoundOf : Yields (compoundOf statement) (Fixed IsCompound) := by
  have hlist : Yields (statementList statement) (Fixed fun Γ ts body rest =>
      ∀ opening closing vs, opening.kind = .keyword .begin_ → closing.kind = .keyword .end_ →
        rest = closing :: vs → IsCompound Γ (opening :: ts) body vs) := by
    refine yields_bind (yields_check _) fun closes => yields_ite (fun _ => yields_pure ?_)
      fun _ => ?_
    · rintro Γ _ _ ts ⟨rfl, rfl⟩
      refine ⟨rfl, ?_⟩
      rintro opening closing vs hopening hclosing rfl
      exact .empty hopening hclosing
    · refine yields_bind h fun first => yields_bind (yields_moreStatements h) fun others =>
        yields_pure ?_
      rintro Γ rest _ us ⟨rfl, vs, hothers, hrest⟩ _ ts ⟨rfl, hfirst⟩ _ _ ⟨rfl, rfl⟩
      refine ⟨rfl, ?_⟩
      rintro opening closing ws hopening hclosing rfl
      refine .body hopening hfirst hothers ?_
      rcases hrest with rfl | ⟨semicolon, hsemicolon, rfl⟩
      · exact .plain hclosing
      · exact .semicolon hsemicolon hclosing
  refine yields_bind (yields_expect (by decide)) fun opening => yields_bind hlist fun body =>
    yields_bind (yields_expect (by decide)) fun closing => yields_pure ?_
  rintro Γ rest _ _ ⟨rfl, hclosing, rfl⟩ _ ts ⟨rfl, hbody⟩ _ _ ⟨rfl, hopening, rfl⟩
  exact ⟨rfl, hbody opening closing rest hopening hclosing rfl⟩

theorem yields_branchOf : Yields (branchOf statement) (Fixed IsStatement) := by
  refine yields_bind (yields_expect (by decide)) fun word =>
    yields_bind yields_expression fun test =>
      yields_bind (yields_expect (by decide)) fun then_ => yields_bind h fun yes =>
        yields_bind (yields_expect (by decide)) fun else_ => yields_bind h fun no => yields_pure ?_
  rintro Γ rest _ vs ⟨rfl, hno⟩ _ _ ⟨rfl, helse, rfl⟩ _ us ⟨rfl, hyes⟩ _ _ ⟨rfl, hthen, rfl⟩
    _ ts ⟨rfl, htest⟩ _ _ ⟨rfl, hword, rfl⟩
  exact ⟨rfl, .branch hword htest hthen hyes helse hno⟩

theorem yields_loopOf : Yields (loopOf statement) (Fixed IsStatement) := by
  refine yields_bind (yields_expect (by decide)) fun word =>
    yields_bind yields_expression fun test =>
      yields_bind (yields_expect (by decide)) fun do_ => yields_bind h fun body => yields_pure ?_
  rintro Γ rest _ us ⟨rfl, hbody⟩ _ _ ⟨rfl, hdo, rfl⟩ _ ts ⟨rfl, htest⟩ _ _ ⟨rfl, hword, rfl⟩
  exact ⟨rfl, .loop hword htest hdo hbody⟩

end Compounds

theorem yields_readStatement : Yields readStatement (Fixed IsStatement) := by
  refine yields_bind (yields_expect (by decide)) fun word =>
    yields_bind (yields_expect (by decide)) fun opening =>
      yields_bind (yields_expect (by decide)) fun name =>
        yields_bind (yields_target name) fun place =>
          yields_bind (yields_expect (by decide)) fun closing => yields_pure ?_
  rintro Γ rest _ _ ⟨rfl, hclosing, rfl⟩ _ ts ⟨rfl, htarget⟩ _ _ ⟨rfl, hkind, rfl⟩
    _ _ ⟨rfl, hopening, rfl⟩ _ _ ⟨rfl, hword, rfl⟩
  exact ⟨rfl, .read hword hopening (htarget hkind) hclosing⟩

theorem yields_writeStatement : Yields writeStatement (Fixed IsStatement) := by
  refine yields_bind (yields_expect (by decide)) fun word =>
    yields_bind (yields_group yields_expression) fun value => yields_pure ?_
  rintro Γ rest _ ts ⟨rfl, hvalue⟩ _ _ ⟨rfl, hword, rfl⟩
  exact ⟨rfl, .write hword hvalue⟩

/-- One level of statements, case by case of the first token. -/
theorem yields_statementOf (inner : Parse Statement) (h : Yields inner (Fixed IsStatement)) :
    Yields (statementOf inner) (Fixed IsStatement) := by
  refine yields_current_bind fun token => Yields.mono (R := Fixed IsStatement) ?_
    fun _ _ _ _ _ hs _ => hs
  split
  · exact yields_callOrAssign
  · refine yields_bind (yields_compoundOf h) fun body => yields_pure ?_
    rintro Γ rest _ ts ⟨rfl, hbody⟩
    exact ⟨rfl, .compound hbody⟩
  · exact yields_branchOf h
  · exact yields_loopOf h
  · exact yields_readStatement
  · exact yields_writeStatement
  · exact yields_unexpected

theorem yields_compound : Yields compound (Fixed IsCompound) :=
  yields_compoundOf (yields_nest yields_statementOf)

/-! ## Variables -/

theorem yields_names : Yields names (Fixed fun _ ts names rest => IsNames ts names rest) := by
  refine yields_sepBy (by decide) (yields_expect (by decide)) ?_ ?_
  · rintro Γ _ rest name ⟨hkind, rfl⟩
    exact .one hkind
  · rintro Γ _ us rest comma name names ⟨hkind, rfl⟩ hcomma hmore
    exact .more hkind hcomma hmore

theorem yields_standardType :
    Yields standardType (Fixed fun _ ts type rest => IsStandardType ts type rest) :=
  yields_accept_ite (by decide) (yields_pure fun _ _ _ hword => ⟨rfl, .integer hword⟩)
    (yields_accept_ite (by decide) (yields_pure fun _ _ _ hword => ⟨rfl, .real hword⟩)
      yields_unexpected)

/-- A bound that is read is a number in range with its sign. -/
theorem yields_bound : Yields bound (Fixed fun _ ts i rest => IsBound ts i rest) := by
  refine yields_bind (yields_accept (by decide)) fun negative =>
    yields_bind (yields_expect (by decide)) fun number => ?_
  dsimp only
  split
  · next i hvalue =>
    refine yields_pure ?_
    rintro Γ rest _ _ ⟨rfl, hkind, rfl⟩ _ ts ⟨rfl, hsign⟩
    cases negative with
    | true =>
      obtain ⟨sign, hsign, rfl⟩ := hsign
      exact ⟨rfl, .negative hsign hkind hvalue⟩
    | false =>
      cases hsign
      exact ⟨rfl, .plain hkind hvalue⟩
  · exact yields_fail

/-- A type that is read is one of the grammar. An array has its bounds in order, as the parser
checks. -/
theorem yields_declaredType : Yields declaredType
    (Fixed fun _ ts declared rest => IsType ts declared.type declared.binding rest) := by
  refine yields_accept_ite (by decide) ?_ ?_
  · refine yields_bind (yields_expect (by decide)) fun opening => yields_bind yields_bound fun lo =>
      yields_bind (yields_expect (by decide)) fun colon => yields_bind yields_bound fun hi =>
        yields_bind (yields_expect (by decide)) fun closing =>
          yields_bind (yields_expect (by decide)) fun of_ =>
            yields_bind yields_standardType fun type =>
              yields_ite (fun hordered => yields_pure ?_) (fun _ => yields_fail)
    rintro Γ rest _ vs ⟨rfl, htype⟩ _ _ ⟨rfl, hof, rfl⟩ _ _ ⟨rfl, hclosing, rfl⟩ _ us ⟨rfl, hhi⟩
      _ _ ⟨rfl, hcolon, rfl⟩ _ ts ⟨rfl, hlo⟩ _ _ ⟨rfl, hopening, rfl⟩ word hword
    exact ⟨rfl, .array hword hopening hlo hcolon hhi hclosing hof htype hordered⟩
  · refine yields_bind yields_standardType fun type => yields_pure ?_
    rintro Γ rest _ ts ⟨rfl, htype⟩
    exact ⟨rfl, .scalar htype⟩

/-- Names that are declared one after the other are declared in the setting in that order. -/
theorem yields_declareAll (binding : Binding) (names : List Token) :
    Yields (declareAll binding names) fun Γ ts _ Γ' rest =>
      Γ.declareAll? (names.map fun name => (name.lexeme, binding)) = some Γ' ∧ rest = ts := by
  induction names with
  | nil => exact yields_pure fun Γ ts => ⟨rfl, rfl⟩
  | cons name names ih =>
    refine yields_bind (yields_declare name binding) fun _ => ih.mono ?_
    rintro Γ₁ _ _ Γ' _ ⟨hrest, rfl⟩ Γ ts ⟨hfirst, rfl⟩
    exact ⟨Option.bind_eq_some_iff.2 ⟨Γ₁, hfirst, hrest⟩, rfl⟩

theorem yields_variableGroup : Yields variableGroup IsVariableGroup := by
  refine yields_bind yields_names fun names => yields_bind (yields_expect (by decide)) fun colon =>
    yields_bind yields_declaredType fun declared =>
      yields_bind (yields_expect (by decide)) fun semicolon =>
        yields_bind (yields_declareAll _ names) fun _ => yields_pure ?_
  rintro Γ' _ Γ rest ⟨hdeclared, rfl⟩ _ _ ⟨rfl, hsemicolon, rfl⟩ _ us ⟨rfl, htype⟩
    _ _ ⟨rfl, hcolon, rfl⟩ _ ts ⟨rfl, hnames⟩
  exact .mk hnames hcolon htype hsemicolon hdeclared

/-- Further groups of a section are those of the grammar. -/
theorem yields_moreGroups : Yields (many nextGroup?) fun Γ ts groups Γ' rest =>
    IsMoreGroups Γ ts groups.flatten Γ' rest := by
  have hnext : Yields nextGroup? (Optionally IsVariableGroup) := by
    refine yields_bind (yields_check _) fun starts => yields_ite (fun _ => ?_)
      (fun _ => yields_pure ?_)
    · refine yields_bind yields_variableGroup fun vars => yields_pure ?_
      rintro Γ' rest Γ ts hgroup _ _ ⟨rfl, rfl⟩
      exact hgroup
    · rintro Γ _ _ ts ⟨rfl, rfl⟩
      exact ⟨rfl, rfl⟩
  refine yields_many hnext ?_ ?_
  · rintro Γ _ ts _ ⟨rfl, rfl⟩
    exact .nil
  · intro Γ Γ₁ Γ' ts us rest vars groups hgroup hmore
    exact .cons hgroup hmore

/-- The variables of a block are read as sections of the grammar, by induction over the sections. -/
theorem yields_varSections : Yields varSections IsSections := by
  have hsection : Yields variableSection? (Optionally fun Γ ts vars Γ' rest =>
      ∃ word us first Γ₁ vs others, ts = word :: us ∧ word.kind = .keyword .var ∧
        IsVariableGroup Γ us first Γ₁ vs ∧ IsMoreGroups Γ₁ vs others Γ' rest ∧
          vars = first ++ others) := by
    refine yields_accept_ite (by decide) ?_ (yields_pure fun Γ ts => ⟨rfl, rfl⟩)
    refine yields_bind yields_variableGroup fun first => yields_bind yields_moreGroups fun groups =>
      yields_pure ?_
    intro Γ' rest Γ₁ vs hothers Γ us hfirst word hword
    exact ⟨word, us, first, Γ₁, vs, groups.flatten, rfl, hword, hfirst, hothers, rfl⟩
  have hsections : Yields (many variableSection?) fun Γ ts sections Γ' rest =>
      IsSections Γ ts sections.flatten Γ' rest := by
    refine yields_many hsection ?_ ?_
    · rintro Γ _ ts _ ⟨rfl, rfl⟩
      exact .nil
    · rintro Γ Γ₁ Γ' _ us rest _ sections ⟨word, ts, first, Γ₂, vs, others, rfl, hword, hfirst,
        hothers, rfl⟩ hmore
      exact .cons hword hfirst hothers hmore
  refine yields_bind hsections fun sections => yields_pure ?_
  exact fun Γ' rest Γ ts hmore => hmore

end Parse

end PascalMips
