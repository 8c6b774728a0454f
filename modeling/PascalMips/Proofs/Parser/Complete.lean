import PascalMips.Program.Progress
import PascalMips.Proofs.Parser.Rules
import PascalMips.Proofs.Parser.Settings

/-!
# What is in the grammar is accepted

`Accepts x Γ ts a Γ' rest` says that from any state with the setting `Γ` and the tokens `ts` the
parser `x` succeeds with `a`, leaving the setting `Γ'` and the tokens `rest`. Each phrase of the
grammar is accepted in this sense, by induction over its derivation.

The rules do not look at what follows a phrase, but the parser does: it goes on with a product as
long as it meets an operator of its level. What follows must therefore not be able to carry on the
phrase. `grip` tells how far a token can do that, and the rules always put tokens of a small enough
grip behind a phrase.
-/

namespace PascalMips

open Grammar

namespace Parse

variable {α β : Type} {Γ Γ₁ Γ' : Setting} {ts us rest : List Token}

/-- From every state with the setting `Γ` and the tokens `ts`, the parser succeeds with `a` and
leaves the setting `Γ'` and the tokens `rest`. -/
def Accepts (x : Parse α) (Γ : Setting) (ts : List Token) (a : α) (Γ' : Setting)
    (rest : List Token) : Prop :=
  ∀ p : Parser, p.setting = Γ → p.tokens.pending = ts →
    ∃ q : Parser, x p = .ok a q ∧ q.setting = Γ' ∧ q.tokens.pending = rest

/-! ## Sequences -/

theorem accepts_pure (a : α) : Accepts (pure a) Γ ts a Γ ts :=
  fun p hΓ hts => ⟨p, rfl, hΓ, hts⟩

/-- One parser after the other: the second goes on in the setting that the first leaves. -/
theorem accepts_bind {x : Parse α} {f : α → Parse β} {a : α} {b : β}
    (hx : Accepts x Γ ts a Γ₁ us) (hf : Accepts (f a) Γ₁ us b Γ' rest) :
    Accepts (x >>= f) Γ ts b Γ' rest := by
  intro p hΓ hts
  obtain ⟨q, hxq, hΓ₁, hus⟩ := hx p hΓ hts
  obtain ⟨r, hfr, hr⟩ := hf q hΓ₁ hus
  exact ⟨r, bind_eq_ok.2 ⟨a, q, hxq, hfr⟩, hr⟩

/-! ## Tokens -/

theorem current_of_pending {s : TokenStream} {token : Token} (h : s.pending = token :: ts) :
    s.current = token := by
  simp [TokenStream.current, h]

theorem nextKind_ne {token : Token} {kind other : Kind} (h : token.kind = kind)
    (hne : kind ≠ other) : nextKind (token :: ts) ≠ other :=
  fun hother => hne (h.symm.trans hother)

/-- Only at the end of the tokens is the next kind `eof`, so any other kind is that of a token. -/
theorem exists_cons_of_nextKind {kind : Kind} (h : nextKind ts = kind) (hk : kind ≠ .eof) :
    ∃ token us, ts = token :: us ∧ token.kind = kind := by
  cases ts with
  | nil => exact absurd h.symm hk
  | cons token us => exact ⟨token, us, rfl, h⟩

theorem accepts_current_bind {token : Token} {f : Token → Parse α} {a : α}
    (h : Accepts (f token) Γ (token :: ts) a Γ' rest) :
    Accepts (current >>= f) Γ (token :: ts) a Γ' rest := by
  intro p hΓ hts
  obtain rfl := current_of_pending hts
  exact h p hΓ hts

theorem accepts_advance (token : Token) : Accepts advance Γ (token :: ts) token Γ ts := by
  intro p hΓ hts
  obtain rfl := current_of_pending hts
  refine ⟨_, rfl, hΓ, ?_⟩
  simp [TokenStream.advance, hts]

theorem accepts_check {kind : Kind} {token : Token} (h : token.kind = kind) :
    Accepts (check kind) Γ (token :: ts) true Γ (token :: ts) := by
  intro p hΓ hts
  obtain rfl := current_of_pending hts
  exact ⟨p, by simp [check, current, bind_apply, pure_apply, h], hΓ, hts⟩

/-- A test for a kind that is not next comes out false and reads nothing. -/
theorem accepts_check_of_ne {kind : Kind} (h : nextKind ts ≠ kind) :
    Accepts (check kind) Γ ts false Γ ts := by
  intro p hΓ hts
  rw [← hts, ← kind_current] at h
  exact ⟨p, by simp [check, current, bind_apply, pure_apply, h], hΓ, hts⟩

theorem accepts_accept {kind : Kind} {token : Token} (h : token.kind = kind) :
    Accepts (accept kind) Γ (token :: ts) true Γ ts := by
  refine accepts_bind (accepts_check h) ?_
  exact accepts_bind (accepts_advance token) (accepts_pure true)

theorem accepts_accept_of_ne {kind : Kind} (h : nextKind ts ≠ kind) :
    Accepts (accept kind) Γ ts false Γ ts :=
  accepts_bind (accepts_check_of_ne h) (accepts_pure false)

theorem accepts_expect {kind : Kind} {token : Token} (h : token.kind = kind) :
    Accepts (expect kind) Γ (token :: ts) token Γ ts :=
  accepts_bind (accepts_check h) (accepts_advance token)

/-! ## Names -/

/-- A name is declared if the setting takes it up. -/
theorem accepts_declare {name : Token} {binding : Binding}
    (h : Γ.declare? name.lexeme binding = some Γ') :
    Accepts (declare name binding) Γ ts () Γ' ts := by
  intro p hΓ hts
  rw [← hΓ, Parser.setting_declare?] at h
  obtain ⟨symbols, hsymbols, rfl⟩ := Option.map_eq_some_iff.1 h
  refine ⟨{ p with symbols := symbols }, ?_, rfl, hts⟩
  simp only [declare, hsymbols]

/-- A name that has a meaning in the setting resolves to it. -/
theorem accepts_resolve {name : Token} {binding : Binding}
    (h : Γ.meaning? name.lexeme = some binding) : Accepts (resolve name) Γ ts binding Γ ts := by
  intro p hΓ hts
  rw [← hΓ, Parser.meaning?_setting] at h
  obtain ⟨symbol, hsymbol, rfl⟩ := Option.map_eq_some_iff.1 h
  exact ⟨p, by simp only [resolve, hsymbol], hΓ, hts⟩

theorem accepts_isEnclosing {name : String} (h : name ∈ Γ.enclosing) :
    Accepts (isEnclosing name) Γ ts true Γ ts := by
  intro p hΓ hts
  subst hΓ
  have hfound : p.enclosing.contains name = true := List.contains_iff_mem.2 h
  exact ⟨p, by rw [isEnclosing, hfound], rfl, hts⟩

/-! ## Repetition -/

/-- A repetition that ends within a budget ends the same way within a larger one. -/
theorem manyWithin_mono {step : Parse (Option α)} {n m : Nat} (hnm : n ≤ m) :
    ∀ {p q : Parser} {as : List α}, manyWithin step n p = .ok as q →
      manyWithin step m p = .ok as q := by
  induction n generalizing m with
  | zero => nofun
  | succ n ih =>
    intro p q as h
    obtain ⟨m, rfl⟩ := Nat.exists_eq_add_of_le' (Nat.le_trans (Nat.le_add_left 1 n) hnm)
    obtain ⟨a?, r, hstep, h⟩ := bind_eq_ok.1 h
    refine bind_eq_ok.2 ⟨a?, r, hstep, ?_⟩
    cases a? with
    | none => exact h
    | some a =>
      obtain ⟨as', q', hrest, h⟩ := bind_eq_ok.1 h
      exact bind_eq_ok.2 ⟨as', q', ih (Nat.le_of_succ_le_succ hnm) hrest, h⟩

/-- One more round in front of a repetition. -/
theorem many_of_step {step : Parse (Option α)} {p q r : Parser} {a : α} {as : List α}
    (hsteps : ∀ n, Steps n step) (hstep : step p = .ok (some a) q)
    (hmany : many step q = .ok as r) : many step p = .ok (a :: as) r := by
  have hlt : q.tokens.size < p.tokens.size :=
    (hsteps (p.tokens.size + 1)).reads p a q (Nat.lt_succ_self _) hstep
  refine bind_eq_ok.2 ⟨some a, q, hstep, ?_⟩
  exact bind_eq_ok.2 ⟨as, r, manyWithin_mono hlt hmany, rfl⟩

/-- A repetition ends where its step finds nothing. -/
theorem accepts_many_nil {step : Parse (Option α)} (h : Accepts step Γ ts none Γ' rest) :
    Accepts (many step) Γ ts [] Γ' rest := by
  intro p hΓ hts
  obtain ⟨q, hstep, hq⟩ := h p hΓ hts
  exact ⟨q, bind_eq_ok.2 ⟨none, q, hstep, rfl⟩, hq⟩

/-- A repetition goes on where its step finds something. The step has to read a token, or the budget
of the repetition would run out. -/
theorem accepts_many_cons {step : Parse (Option α)} (hsteps : ∀ n, Steps n step) {a : α}
    {as : List α} (h : Accepts step Γ ts (some a) Γ₁ us)
    (hmore : Accepts (many step) Γ₁ us as Γ' rest) :
    Accepts (many step) Γ ts (a :: as) Γ' rest := by
  intro p hΓ hts
  obtain ⟨q, hstep, hΓ₁, hus⟩ := h p hΓ hts
  obtain ⟨r, hmany, hr⟩ := hmore q hΓ₁ hus
  exact ⟨r, many_of_step hsteps hstep hmany, hr⟩

/-- One item that no separator follows is the whole list. -/
theorem accepts_sepBy_one {separator : Kind} {item : Parse α} {a : α}
    (h : Accepts item Γ ts a Γ' rest) (hne : nextKind rest ≠ separator) :
    Accepts (sepBy separator item) Γ ts [a] Γ' rest := by
  refine accepts_bind h (accepts_bind (accepts_many_nil ?_) (accepts_pure [a]))
  exact accepts_bind (accepts_accept_of_ne hne) (accepts_pure none)

/-- An item and a separator are followed by the rest of the list, which is a list itself. -/
theorem accepts_sepBy_more {separator : Kind} (hk : separator ≠ .eof) {item : Parse α}
    {token : Token} {a : α} {as : List α} (hsettles : ∀ n, Settles n item)
    (h : Accepts item Γ ts a Γ₁ (token :: us)) (htoken : token.kind = separator)
    (hmore : Accepts (sepBy separator item) Γ₁ us as Γ' rest) :
    Accepts (sepBy separator item) Γ ts (a :: as) Γ' rest := by
  intro p hΓ hts
  obtain ⟨q, hitem, hΓ₁, hus⟩ := h p hΓ hts
  obtain ⟨q', hskip, hΓ₂, hus'⟩ := accepts_accept htoken q hΓ₁ hus
  obtain ⟨r, hsepBy, hr⟩ := hmore q' hΓ₂ hus'
  refine ⟨r, ?_, hr⟩
  -- the items after the separator are one round more in front of theirs
  obtain ⟨b, p₁, hb, hrest⟩ := bind_eq_ok.1 hsepBy
  obtain ⟨bs, p₂, hmany, hlist⟩ := bind_eq_ok.1 hrest
  obtain ⟨rfl, rfl⟩ := pure_eq_ok.1 hlist
  have hround : nextItem? separator item q = .ok (some b) p₁ :=
    bind_eq_ok.2 ⟨true, q', hskip, bind_eq_ok.2 ⟨b, p₁, hb, rfl⟩⟩
  have hsteps (n : Nat) : Steps n (nextItem? separator item) :=
    steps_accept hk (settles_bind (hsettles n) fun _ => settles_pure _)
  have hothers := many_of_step hsteps hround hmany
  exact bind_eq_ok.2 ⟨a, q, hitem, bind_eq_ok.2 ⟨b :: bs, p₂, hothers, rfl⟩⟩

/-! ## The equations of factors and statements -/

/-- If the parser for the factors inside is refined, so is one level of factors. -/
theorem refines_factorOf {x y : Parse Expr} (h : Refines x y) :
    Refines (factorOf x) (factorOf y) :=
  related_factorOf congruence_refines h

/-- The parser for factors is a fixed point of one level of nesting. -/
theorem factor_eq : factor = factorOf factor := nest_eq refines_factorOf settles_factorOf

theorem refines_statementOf {x y : Parse Statement} (h : Refines x y) :
    Refines (statementOf x) (statementOf y) :=
  related_statementOf congruence_refines h

/-- The parser for statements is a fixed point of one level of nesting. -/
theorem statement_eq : statement = statementOf statement :=
  nest_eq refines_statementOf settles_statementOf

/-! ## What may follow a phrase -/

/-- How far a token can carry on the phrase before it: an opening parenthesis any name, an operator
the phrases of its level and above, and other tokens none. -/
def grip (kind : Kind) : Nat :=
  if kind = .punct .lparen then 4
  else if (multiplicative? kind).isSome then 3
  else if (additive? kind).isSome then 2
  else if (relation? kind).isSome then 1
  else 0

theorem ne_lparen_of_grip {kind : Kind} (h : grip kind ≤ 3) : kind ≠ .punct .lparen := by
  rintro rfl
  exact absurd h (by decide)

theorem multiplicative?_of_grip {kind : Kind} (h : grip kind ≤ 2) :
    multiplicative? kind = none := by
  unfold grip at h
  cases hop : multiplicative? kind <;> grind

theorem additive?_of_grip {kind : Kind} (h : grip kind ≤ 1) : additive? kind = none := by
  unfold grip at h
  cases hop : additive? kind <;> grind

theorem relation?_of_grip {kind : Kind} (h : grip kind = 0) : relation? kind = none := by
  unfold grip at h
  cases hop : relation? kind <;> grind

/-- The operators of products carry on factors and products, and nothing below. -/
theorem grip_of_multiplication {kind : Kind} {op : BinaryOp} (h : (kind, op) ∈ multiplications) :
    grip kind = 3 := by
  simp only [multiplications, List.mem_cons, Prod.mk.injEq, List.not_mem_nil, or_false] at h
  rcases h with ⟨rfl, -⟩ | ⟨rfl, -⟩ | ⟨rfl, -⟩ | ⟨rfl, -⟩ | ⟨rfl, -⟩ <;> rfl

theorem grip_of_addition {kind : Kind} {op : BinaryOp} (h : (kind, op) ∈ additions) :
    grip kind = 2 := by
  simp only [additions, List.mem_cons, Prod.mk.injEq, List.not_mem_nil, or_false] at h
  rcases h with ⟨rfl, -⟩ | ⟨rfl, -⟩ | ⟨rfl, -⟩ <;> rfl

theorem grip_of_relation {kind : Kind} {op : BinaryOp} (h : (kind, op) ∈ relations) :
    grip kind = 1 := by
  simp only [relations, List.mem_cons, Prod.mk.injEq, List.not_mem_nil, or_false] at h
  rcases h with ⟨rfl, -⟩ | ⟨rfl, -⟩ | ⟨rfl, -⟩ | ⟨rfl, -⟩ | ⟨rfl, -⟩ | ⟨rfl, -⟩ <;> rfl

/-! ## Operators -/

/-- No operator, no operation. -/
theorem accepts_operation?_none {op? : Kind → Option BinaryOp} {operand : Parse Expr}
    (h : op? (nextKind ts) = none) : Accepts (operation? op? operand) Γ ts none Γ ts := by
  intro p hΓ hts
  rw [← hts, ← kind_current] at h
  exact ⟨p, by simp [operation?, current, bind_apply, h, pure_apply], hΓ, hts⟩

/-- An operator of the level is read with the operand behind it. -/
theorem accepts_operation?_some {op? : Kind → Option BinaryOp} {operand : Parse Expr} {sign : Token}
    {op : BinaryOp} {e : Expr} (hop : op? sign.kind = some op)
    (h : Accepts operand Γ ts e Γ' rest) :
    Accepts (operation? op? operand) Γ (sign :: ts) (some (op, e)) Γ' rest := by
  refine accepts_current_bind ?_
  simp only [hop]
  exact accepts_bind (accepts_advance sign) (accepts_bind h (accepts_pure _))

/-- A chain of operations ends where no operator follows. -/
theorem accepts_leftAssoc_nil {op? : Kind → Option BinaryOp} {operand : Parse Expr} {left : Expr}
    (h : op? (nextKind ts) = none) : Accepts (leftAssoc op? operand left) Γ ts left Γ ts :=
  accepts_bind (accepts_many_nil (accepts_operation?_none h)) (accepts_pure left)

/-- A chain of operations goes on with the operation so far as its left operand. -/
theorem accepts_leftAssoc_cons {op? : Kind → Option BinaryOp} (heof : op? .eof = none)
    {operand : Parse Expr} (hsettles : ∀ n, Settles n operand) {sign : Token} {op : BinaryOp}
    {left right e : Expr} (hop : op? sign.kind = some op) (h : Accepts operand Γ ts right Γ₁ us)
    (hmore : Accepts (leftAssoc op? operand (.ofBinary op left right)) Γ₁ us e Γ' rest) :
    Accepts (leftAssoc op? operand left) Γ (sign :: ts) e Γ' rest := by
  intro p hΓ hts
  obtain ⟨q, hround, hΓ₁, hus⟩ := accepts_operation?_some hop h p hΓ hts
  obtain ⟨r, hassoc, hr⟩ := hmore q hΓ₁ hus
  refine ⟨r, ?_, hr⟩
  obtain ⟨operations, q', hmany, he⟩ := bind_eq_ok.1 hassoc
  obtain ⟨rfl, rfl⟩ := pure_eq_ok.1 he
  have hsteps (n : Nat) : Steps n (operation? op? operand) := steps_operation? heof (hsettles n)
  exact bind_eq_ok.2 ⟨(op, right) :: operations, q', many_of_step hsteps hround hmany, rfl⟩

/-! ## Factors -/

/-- A number in range is a factor. -/
theorem accepts_number {number : Token} (hkind : number.kind = .number)
    (h : IsLiteral number.lexeme) :
    Accepts factor Γ (number :: ts) (.ofLiteral number.lexeme) Γ ts := by
  rw [factor_eq]
  refine accepts_current_bind ?_
  simp only [hkind]
  refine accepts_bind (accepts_advance number) ?_
  rw [literal, if_pos (isNumber_iff.2 h)]
  exact accepts_pure _

/-- A name is a factor with what follows it: nothing, an index or arguments. -/
theorem accepts_name {name : Token} {e : Expr} (hkind : name.kind = .identifier)
    (h : Accepts (named expression name) Γ ts e Γ' rest) :
    Accepts factor Γ (name :: ts) e Γ' rest := by
  rw [factor_eq]
  refine accepts_current_bind ?_
  simp only [hkind]
  exact accepts_bind (accepts_advance name) h

theorem accepts_group {e : Expr} (hkind : nextKind ts = .punct .lparen)
    (h : Accepts (group expression) Γ ts e Γ' rest) : Accepts factor Γ ts e Γ' rest := by
  obtain ⟨opening, us, rfl, hopening⟩ := exists_cons_of_nextKind hkind (by decide)
  rw [factor_eq]
  refine accepts_current_bind ?_
  simp only [hopening]
  exact h

/-- A negated factor is a factor. -/
theorem accepts_not {word : Token} {e : Expr} (hword : word.kind = .keyword .not)
    (h : Accepts factor Γ ts e Γ' rest) :
    Accepts factor Γ (word :: ts) (.ofUnary .not e) Γ' rest := by
  rw [factor_eq]
  refine accepts_current_bind ?_
  simp only [hword]
  exact accepts_bind (accepts_advance word) (accepts_bind h (accepts_pure _))

/-- Arguments are accepted if there are as many as parameters. -/
theorem accepts_arguments {name : Token} {params : List ValueType} {args : List Expr}
    (h : Accepts (argumentList expression) Γ ts args Γ' rest)
    (hcount : args.length = params.length) :
    Accepts (arguments expression name params) Γ ts args Γ' rest := by
  refine accepts_bind h ?_
  rw [if_pos hcount]
  exact accepts_pure args

end Parse

/-! ## Expressions -/

namespace Grammar

open Parse

variable {Γ : Setting}

theorem IsGroup.starts {ts rest : List Token} {e : Expr} :
    IsGroup Γ ts e rest → nextKind ts = .punct .lparen
  | .mk hopening _ _ => hopening

/-- What a factor starts with. -/
theorem IsFactor.starts {ts rest : List Token} {e : Expr} (h : IsFactor Γ ts e rest) :
    nextKind ts = .number ∨ nextKind ts = .identifier ∨ nextKind ts = .punct .lparen ∨
      nextKind ts = .keyword .not := by
  cases h with
  | number hkind => exact .inl hkind
  | scalar hkind | element hkind | call hkind => exact .inr (.inl hkind)
  | group h => exact .inr (.inr (.inl h.starts))
  | not hword => exact .inr (.inr (.inr hword))

/-- No sign stands in front of a product. -/
theorem IsProduct.unsigned {ts rest : List Token} {e : Expr} (h : IsProduct Γ ts e rest) :
    nextKind ts ≠ .punct .minus ∧ nextKind ts ≠ .punct .plus := by
  obtain ⟨hfirst, -⟩ := h
  rcases hfirst.starts with hkind | hkind | hkind | hkind <;> rw [hkind] <;> decide

/-- What follows a product in a sum cannot carry on the product. -/
theorem IsSumTail.grip_le {left e : Expr} {ts rest : List Token} (h : IsSumTail Γ left ts e rest)
    (hrest : grip (nextKind rest) ≤ 1) : grip (nextKind ts) ≤ 2 := by
  cases h with
  | nil => exact Nat.le_succ_of_le hrest
  | cons hop => exact Nat.le_of_eq (grip_of_addition hop)

/-- What follows a factor in a product cannot carry on the factor. -/
theorem IsProductTail.grip_le {left e : Expr} {ts rest : List Token}
    (h : IsProductTail Γ left ts e rest) (hrest : grip (nextKind rest) ≤ 2) :
    grip (nextKind ts) ≤ 3 := by
  cases h with
  | nil => exact Nat.le_succ_of_le hrest
  | cons hop => exact Nat.le_of_eq (grip_of_multiplication hop)

theorem grip_of_kind {token : Token} {kind : Kind} {ts : List Token} (h : token.kind = kind)
    (hkind : grip kind = 0) : grip (nextKind (token :: ts)) = 0 :=
  (congrArg grip h).trans hkind

mutual

/-- Every expression of the grammar is accepted where nothing follows that could carry it on. This
and the next nine go by one induction over derivations. -/
theorem IsExpression.accepts : ∀ {ts rest : List Token} {e : Expr}, IsExpression Γ ts e rest →
    grip (nextKind rest) = 0 → Accepts expression Γ ts e Γ rest
  | _, _, _, .sum h, hrest => by
    refine accepts_bind (h.accepts (Nat.le_succ_of_le (Nat.le_of_eq hrest))) ?_
    exact accepts_bind (accepts_operation?_none (relation?_of_grip hrest)) (accepts_pure _)
  | _, _, _, .comparison hleft hop hright, hrest => by
    have hsign := Nat.le_of_eq (grip_of_relation hop)
    refine accepts_bind (hleft.accepts hsign) ?_
    refine accepts_bind (accepts_operation?_some (relation?_eq_some.2 hop) ?_) (accepts_pure _)
    exact hright.accepts (Nat.le_succ_of_le (Nat.le_of_eq hrest))

/-- Every sum of the grammar is accepted, with or without a sign. -/
theorem IsSum.accepts : ∀ {ts rest : List Token} {e : Expr}, IsSum Γ ts e rest →
    grip (nextKind rest) ≤ 1 → Accepts (sum (product factor)) Γ ts e Γ rest
  | _, _, _, .plain hfirst hmore, hrest => by
    obtain ⟨hminus, hplus⟩ := hfirst.unsigned
    refine accepts_bind (accepts_accept_of_ne hminus) ?_
    refine accepts_bind (accepts_accept_of_ne hplus) ?_
    exact accepts_bind (hfirst.accepts (hmore.grip_le hrest)) (hmore.accepts hrest)
  | _, _, _, .plus hsign hfirst hmore, hrest => by
    refine accepts_bind (accepts_accept_of_ne (nextKind_ne hsign (by decide))) ?_
    refine accepts_bind (accepts_accept hsign) ?_
    exact accepts_bind (hfirst.accepts (hmore.grip_le hrest)) (hmore.accepts hrest)
  | _, _, _, .minus hsign hfirst hmore, hrest => by
    refine accepts_bind (accepts_accept hsign) ?_
    exact accepts_bind (hfirst.accepts (hmore.grip_le hrest)) (hmore.accepts hrest)

/-- The rest of a sum is accepted as a chain of operations on what was read of it. -/
theorem IsSumTail.accepts : ∀ {left e : Expr} {ts rest : List Token}, IsSumTail Γ left ts e rest →
    grip (nextKind rest) ≤ 1 → Accepts (leftAssoc additive? (product factor) left) Γ ts e Γ rest
  | _, _, _, _, .nil, hrest => accepts_leftAssoc_nil (additive?_of_grip hrest)
  | _, _, _, _, .cons hop hright hmore, hrest =>
    accepts_leftAssoc_cons rfl (fun _ => settles_product settles_factor)
      (additive?_eq_some.2 hop) (hright.accepts (hmore.grip_le hrest)) (hmore.accepts hrest)

theorem IsProduct.accepts : ∀ {ts rest : List Token} {e : Expr}, IsProduct Γ ts e rest →
    grip (nextKind rest) ≤ 2 → Accepts (product factor) Γ ts e Γ rest
  | _, _, _, .mk hfirst hmore, hrest =>
    accepts_bind (hfirst.accepts (hmore.grip_le hrest)) (hmore.accepts hrest)

theorem IsProductTail.accepts : ∀ {left e : Expr} {ts rest : List Token},
    IsProductTail Γ left ts e rest → grip (nextKind rest) ≤ 2 →
      Accepts (leftAssoc multiplicative? factor left) Γ ts e Γ rest
  | _, _, _, _, .nil, hrest => accepts_leftAssoc_nil (multiplicative?_of_grip hrest)
  | _, _, _, _, .cons hop hright hmore, hrest =>
    accepts_leftAssoc_cons rfl (fun _ => settles_factor) (multiplicative?_eq_some.2 hop)
      (hright.accepts (hmore.grip_le hrest)) (hmore.accepts hrest)

/-- Every factor of the grammar is accepted where no parenthesis follows, which would belong to a
name. -/
theorem IsFactor.accepts : ∀ {ts rest : List Token} {e : Expr}, IsFactor Γ ts e rest →
    grip (nextKind rest) ≤ 3 → Accepts factor Γ ts e Γ rest
  | _, _, _, .number hkind hliteral, _ => accepts_number hkind hliteral
  | _, _, _, .scalar hkind hname, _ =>
    accepts_name hkind (accepts_bind (accepts_resolve hname) (accepts_pure _))
  | _, _, _, .element hkind hname hindex, _ =>
    accepts_name hkind (accepts_bind (accepts_resolve hname)
      (accepts_bind hindex.accepts (accepts_pure _)))
  | _, _, _, .call hkind hname hargs hcount, hrest =>
    accepts_name hkind (accepts_bind (accepts_resolve hname)
      (accepts_bind (accepts_arguments (hargs.accepts hrest) hcount) (accepts_pure _)))
  | _, _, _, .group h, _ => accepts_group h.starts h.accepts
  | _, _, _, .not hword h, hrest => accepts_not hword (h.accepts hrest)

/-- An index in brackets is accepted. What is inside ends at the bracket, whatever follows. -/
theorem IsIndex.accepts : ∀ {ts rest : List Token} {e : Expr}, IsIndex Γ ts e rest →
    Accepts (index expression) Γ ts e Γ rest
  | _, _, _, .mk hopening h hclosing => by
    refine accepts_bind (accepts_expect hopening) ?_
    refine accepts_bind (h.accepts (grip_of_kind hclosing rfl)) ?_
    exact accepts_bind (accepts_expect hclosing) (accepts_pure _)

theorem IsGroup.accepts : ∀ {ts rest : List Token} {e : Expr}, IsGroup Γ ts e rest →
    Accepts (group expression) Γ ts e Γ rest
  | _, _, _, .mk hopening h hclosing => by
    refine accepts_bind (accepts_expect hopening) ?_
    refine accepts_bind (h.accepts (grip_of_kind hclosing rfl)) ?_
    exact accepts_bind (accepts_expect hclosing) (accepts_pure _)

/-- Arguments are accepted, also where there are none and no parentheses. -/
theorem IsArguments.accepts : ∀ {ts rest : List Token} {args : List Expr},
    IsArguments Γ ts args rest → grip (nextKind rest) ≤ 3 →
      Accepts (argumentList expression) Γ ts args Γ rest
  | _, _, _, .none, hrest =>
    accepts_bind (accepts_accept_of_ne (ne_lparen_of_grip hrest)) (accepts_pure _)
  | _, _, _, .some hopening h hclosing, _ => by
    have hlist := h.accepts (grip_of_kind hclosing rfl) (nextKind_ne hclosing (by decide))
    refine accepts_bind (accepts_accept hopening) (accepts_bind hlist ?_)
    exact accepts_bind (accepts_expect hclosing) (accepts_pure _)

/-- Expressions with commas between them are accepted where no comma follows. -/
theorem IsExpressions.accepts : ∀ {ts rest : List Token} {es : List Expr},
    IsExpressions Γ ts es rest → grip (nextKind rest) = 0 → nextKind rest ≠ .punct .comma →
      Accepts (sepBy (.punct .comma) expression) Γ ts es Γ rest
  | _, _, _, .one h, hrest, hne => accepts_sepBy_one (h.accepts hrest) hne
  | _, _, _, .more h hcomma hmore, hrest, hne =>
    accepts_sepBy_more (by decide) (fun _ => settles_expression)
      (h.accepts (grip_of_kind hcomma rfl)) hcomma (hmore.accepts hrest hne)

end

/-! ## Statements -/

/-- A place starts with a name that is no procedure, so that a statement that starts with it is
taken for an assignment. -/
theorem IsTarget.exists_name {ts rest : List Token} {place : Target}
    (h : IsTarget Γ ts place rest) : ∃ name us, ts = name :: us ∧
      name.kind = .identifier ∧ (∀ params, Γ.meaning? name.lexeme ≠ some (.procedure params)) ∧
        Accepts (target name) Γ us place Γ rest := by
  cases h with
  | scalar hkind hname =>
    refine ⟨_, _, rfl, hkind, by simp [hname], ?_⟩
    exact accepts_bind (accepts_resolve hname) (accepts_pure _)
  | element hkind hname hindex =>
    refine ⟨_, _, rfl, hkind, by simp [hname], ?_⟩
    exact accepts_bind (accepts_resolve hname) (accepts_bind hindex.accepts (accepts_pure _))
  | result hkind hname hopen =>
    refine ⟨_, _, rfl, hkind, by simp [hname], ?_⟩
    exact accepts_bind (accepts_resolve hname)
      (accepts_bind (accepts_isEnclosing hopen) (accepts_pure _))

theorem IsCompound.starts {ts rest : List Token} {body : List Statement} :
    IsCompound Γ ts body rest → nextKind ts = .keyword .begin_
  | .empty hopening _ => hopening
  | .body hopening _ _ _ => hopening

/-- A statement does not start with a closing word. -/
theorem IsStatement.not_closing {ts rest : List Token} {s : Statement}
    (h : IsStatement Γ ts s rest) : nextKind ts ≠ .keyword .end_ := by
  cases h with
  | assign htarget =>
    obtain ⟨name, us, rfl, hkind, -, -⟩ := htarget.exists_name
    exact nextKind_ne hkind (by decide)
  | call hkind => exact nextKind_ne hkind (by decide)
  | compound h =>
    rw [h.starts]
    decide
  | branch hword | loop hword | read hword | write hword => exact nextKind_ne hword (by decide)

/-- What closes a compound ends the statement before it. -/
theorem IsMoreStatements.grip_eq {ts us rest : List Token} {ss : List Statement}
    (h : IsMoreStatements Γ ts ss us) (hclosing : IsClosing us rest) : grip (nextKind ts) = 0 := by
  cases h with
  | cons hsemicolon => exact grip_of_kind hsemicolon rfl
  | nil =>
    cases hclosing with
    | plain hclosing => exact grip_of_kind hclosing rfl
    | semicolon hsemicolon => exact grip_of_kind hsemicolon rfl

end Grammar

namespace Parse

variable {α : Type} {Γ Γ₁ Γ' : Setting} {ts us rest : List Token}

/-- A name that is a procedure starts a call. -/
theorem accepts_procedure? {name : String} {params : List ValueType}
    (h : Γ.meaning? name = some (.procedure params)) :
    Accepts (procedure? name) Γ ts (some params) Γ ts := by
  intro p hΓ hts
  rw [← hΓ, Parser.meaning?_setting] at h
  exact ⟨p, by simp only [procedure?, h], hΓ, hts⟩

/-- A name that is no procedure starts an assignment. -/
theorem accepts_procedure?_none {name : String}
    (h : ∀ params, Γ.meaning? name ≠ some (.procedure params)) :
    Accepts (procedure? name) Γ ts none Γ ts := by
  intro p hΓ hts
  refine ⟨p, ?_, hΓ, hts⟩
  rw [procedure?, ← Parser.meaning?_setting, hΓ]
  split
  · next params hname => exact absurd hname (h params)
  · rfl

/-- A list of statements is a first one and the others, each behind a semicolon. -/
theorem accepts_statementList {first : Statement} {others : List Statement}
    (hne : nextKind ts ≠ .keyword .end_) (hfirst : Accepts statement Γ ts first Γ₁ us)
    (hothers : Accepts (many (nextStatement? statement)) Γ₁ us others Γ' rest) :
    Accepts (statementList statement) Γ ts (first :: others) Γ' rest := by
  refine accepts_bind (accepts_check_of_ne hne) ?_
  exact accepts_bind hfirst (accepts_bind hothers (accepts_pure _))

end Parse

namespace Grammar

open Parse

variable {Γ : Setting}

mutual

/-- Every statement of the grammar is accepted where nothing follows that could carry on an
expression. The cases are those of the grammar; what makes each of them come out is that its first
token decides between them. -/
theorem IsStatement.accepts : ∀ {ts rest : List Token} {s : Statement}, IsStatement Γ ts s rest →
    grip (nextKind rest) = 0 → Accepts statement Γ ts s Γ rest
  | _, _, _, .assign htarget hbecomes hvalue, hrest => by
    obtain ⟨name, us, rfl, hkind, hname, htarget⟩ := htarget.exists_name
    rw [statement_eq]
    refine accepts_current_bind ?_
    simp only [hkind]
    refine accepts_bind (accepts_expect hkind) ?_
    refine accepts_bind (accepts_procedure?_none hname) ?_
    refine accepts_bind htarget (accepts_bind (accepts_expect hbecomes) ?_)
    exact accepts_bind (hvalue.accepts hrest) (accepts_pure _)
  | _, _, _, .call hkind hname hargs hcount, hrest => by
    rw [statement_eq]
    refine accepts_current_bind ?_
    simp only [hkind]
    refine accepts_bind (accepts_expect hkind) (accepts_bind (accepts_procedure? hname) ?_)
    have hlist := hargs.accepts (hrest ▸ Nat.zero_le 3)
    exact accepts_bind (accepts_arguments hlist hcount) (accepts_pure _)
  | _, _, _, .compound h, _ => by
    have hbody := h.accepts
    obtain ⟨opening, us, rfl, hopening⟩ := exists_cons_of_nextKind h.starts (by decide)
    rw [statement_eq]
    refine accepts_current_bind ?_
    simp only [hopening]
    exact accepts_bind hbody (accepts_pure _)
  | _, _, _, .branch hword htest hthen hyes helse hno, hrest => by
    rw [statement_eq]
    refine accepts_current_bind ?_
    simp only [hword]
    refine accepts_bind (accepts_expect hword) ?_
    refine accepts_bind (htest.accepts (grip_of_kind hthen rfl)) ?_
    refine accepts_bind (accepts_expect hthen) ?_
    refine accepts_bind (hyes.accepts (grip_of_kind helse rfl)) ?_
    refine accepts_bind (accepts_expect helse) ?_
    exact accepts_bind (hno.accepts hrest) (accepts_pure _)
  | _, _, _, .loop hword htest hdo hbody, hrest => by
    rw [statement_eq]
    refine accepts_current_bind ?_
    simp only [hword]
    refine accepts_bind (accepts_expect hword) ?_
    refine accepts_bind (htest.accepts (grip_of_kind hdo rfl)) ?_
    refine accepts_bind (accepts_expect hdo) ?_
    exact accepts_bind (hbody.accepts hrest) (accepts_pure _)
  | _, _, _, .read hword hopening htarget hclosing, _ => by
    obtain ⟨name, us, rfl, hkind, -, htarget⟩ := htarget.exists_name
    rw [statement_eq]
    refine accepts_current_bind ?_
    simp only [hword]
    refine accepts_bind (accepts_expect hword) (accepts_bind (accepts_expect hopening) ?_)
    refine accepts_bind (accepts_expect hkind) (accepts_bind htarget ?_)
    exact accepts_bind (accepts_expect hclosing) (accepts_pure _)
  | _, _, _, .write hword hvalue, _ => by
    rw [statement_eq]
    refine accepts_current_bind ?_
    simp only [hword]
    refine accepts_bind (accepts_expect hword) ?_
    exact accepts_bind hvalue.accepts (accepts_pure _)

/-- Every compound of the grammar is accepted, whatever follows it. -/
theorem IsCompound.accepts : ∀ {ts rest : List Token} {body : List Statement},
    IsCompound Γ ts body rest → Accepts compound Γ ts body Γ rest
  | _, _, _, .empty hopening hclosing => by
    refine accepts_bind (accepts_expect hopening) ?_
    refine accepts_bind (accepts_bind (accepts_check hclosing) (accepts_pure [])) ?_
    exact accepts_bind (accepts_expect hclosing) (accepts_pure _)
  | _, _, _, .body hopening hfirst hothers hclosing => by
    obtain ⟨closing, hkind, hmany⟩ := hothers.accepts hclosing
    have hlist := hfirst.accepts (hothers.grip_eq hclosing)
    refine accepts_bind (accepts_expect hopening) ?_
    refine accepts_bind (accepts_statementList hfirst.not_closing hlist hmany) ?_
    exact accepts_bind (accepts_expect hkind) (accepts_pure _)

/-- The statements after the first are accepted up to `end`, with or without a semicolon before it.
-/
theorem IsMoreStatements.accepts : ∀ {ts us rest : List Token} {ss : List Statement},
    IsMoreStatements Γ ts ss us → IsClosing us rest →
      ∃ closing, closing.kind = .keyword .end_ ∧
        Accepts (many (nextStatement? statement)) Γ ts ss Γ (closing :: rest)
  | _, _, _, _, .nil, .plain hclosing => by
    refine ⟨_, hclosing, accepts_many_nil ?_⟩
    exact accepts_bind (accepts_accept_of_ne (nextKind_ne hclosing (by decide))) (accepts_pure none)
  | _, _, _, _, .nil, .semicolon hsemicolon hclosing => by
    refine ⟨_, hclosing, accepts_many_nil ?_⟩
    refine accepts_bind (accepts_accept hsemicolon) ?_
    exact accepts_bind (accepts_check hclosing) (accepts_pure none)
  | _, _, _, _, .cons hsemicolon h hmore, hclosing => by
    obtain ⟨closing, hkind, hmany⟩ := hmore.accepts hclosing
    refine ⟨closing, hkind, ?_⟩
    refine accepts_many_cons (fun _ => steps_nextStatement? settles_statement) ?_ hmany
    refine accepts_bind (accepts_accept hsemicolon) ?_
    refine accepts_bind (accepts_check_of_ne h.not_closing) ?_
    exact accepts_bind (h.accepts (hmore.grip_eq hclosing)) (accepts_pure _)

end

/-! ## Variables -/

theorem IsNames.accepts {ts rest names : List Token} (h : IsNames ts names rest)
    (hrest : nextKind rest ≠ .punct .comma) : Accepts Parse.names Γ ts names Γ rest := by
  induction h with
  | one hkind => exact accepts_sepBy_one (accepts_expect hkind) hrest
  | more hkind hcomma _ ih =>
    exact accepts_sepBy_more (by decide) (fun _ => settles_expect _) (accepts_expect hkind) hcomma
      (ih hrest)

theorem IsStandardType.accepts {ts rest : List Token} {type : ValueType}
    (h : IsStandardType ts type rest) : Accepts standardType Γ ts type Γ rest := by
  cases h with
  | integer hword => exact accepts_bind (accepts_accept hword) (accepts_pure _)
  | real hword =>
    refine accepts_bind (accepts_accept_of_ne (nextKind_ne hword (by decide))) ?_
    exact accepts_bind (accepts_accept hword) (accepts_pure _)

/-- A bound is accepted with or without a minus. -/
theorem IsBound.accepts {ts rest : List Token} {i : Int} (h : IsBound ts i rest) :
    Accepts bound Γ ts i Γ rest := by
  cases h with
  | plain hkind hvalue =>
    refine accepts_bind (accepts_accept_of_ne (nextKind_ne hkind (by decide))) ?_
    refine accepts_bind (accepts_expect hkind) ?_
    simp only [Bool.false_eq_true, if_false, hvalue]
    exact accepts_pure i
  | negative hsign hkind hvalue =>
    refine accepts_bind (accepts_accept hsign) ?_
    refine accepts_bind (accepts_expect hkind) ?_
    simp only [if_true, hvalue]
    exact accepts_pure i

/-- A type is accepted. The parser gives it with what a variable of the type is bound to. -/
theorem IsType.accepts {ts rest : List Token} {type : ValueType} {binding : Binding}
    (h : IsType ts type binding rest) : ∃ declared : DeclaredType, declared.type = type ∧
      declared.binding = binding ∧ Accepts declaredType Γ ts declared Γ rest := by
  cases h with
  | scalar h =>
    refine ⟨⟨type, none⟩, rfl, rfl, ?_⟩
    have hword : nextKind ts ≠ .keyword .array := by
      cases h with
      | integer hword | real hword => exact nextKind_ne hword (by decide)
    exact accepts_bind (accepts_accept_of_ne hword) (accepts_bind h.accepts (accepts_pure _))
  | array hword hopening hlo hcolon hhi hclosing hof htype hordered =>
    refine ⟨⟨type, some _⟩, rfl, rfl, ?_⟩
    refine accepts_bind (accepts_accept hword) (accepts_bind (accepts_expect hopening) ?_)
    refine accepts_bind hlo.accepts (accepts_bind (accepts_expect hcolon) ?_)
    refine accepts_bind hhi.accepts (accepts_bind (accepts_expect hclosing) ?_)
    refine accepts_bind (accepts_expect hof) (accepts_bind htype.accepts ?_)
    rw [if_pos hordered]
    exact accepts_pure _

end Grammar

namespace Parse

variable {Γ Γ₁ Γ' : Setting} {ts rest : List Token}

/-- Names are declared from left to right, as the setting takes them up. -/
theorem accepts_declareAll {binding : Binding} {names : List Token}
    (h : Γ.declareAll? (names.map fun name => (name.lexeme, binding)) = some Γ') :
    Accepts (declareAll binding names) Γ ts () Γ' ts := by
  induction names generalizing Γ with
  | nil =>
    cases h
    exact accepts_pure ()
  | cons name names ih =>
    obtain ⟨Γ₁, hfirst, hrest⟩ := Option.bind_eq_some_iff.1 h
    exact accepts_bind (accepts_declare hfirst) (ih hrest)

/-- Parameters are declared from left to right, each with its own type. -/
theorem accepts_declareParameters {params : List (Token × ValueType)}
    (h : Γ.declareAll? (params.map fun (name, type) => (name.lexeme, .scalar type)) = some Γ') :
    Accepts (declareParameters params) Γ ts () Γ' ts := by
  induction params generalizing Γ with
  | nil =>
    cases h
    exact accepts_pure ()
  | cons param params ih =>
    obtain ⟨Γ₁, hfirst, hrest⟩ := Option.bind_eq_some_iff.1 h
    exact accepts_bind (accepts_declare hfirst) (ih hrest)

end Parse

namespace Grammar

open Parse

theorem IsNames.starts {ts rest names : List Token} (h : IsNames ts names rest) :
    nextKind ts = .identifier := by
  cases h with
  | one hkind | more hkind => exact hkind

/-- Names with a type are accepted and declared. -/
theorem IsVariableGroup.accepts {Γ Γ' : Setting} {ts rest : List Token} {vars : List Variable}
    (h : IsVariableGroup Γ ts vars Γ' rest) : Accepts variableGroup Γ ts vars Γ' rest := by
  obtain ⟨hnames, hcolon, htype, hsemicolon, hdeclared⟩ := h
  obtain ⟨declared, rfl, rfl, htype⟩ := htype.accepts
  refine accepts_bind (hnames.accepts (nextKind_ne hcolon (by decide))) ?_
  refine accepts_bind (accepts_expect hcolon) (accepts_bind htype ?_)
  refine accepts_bind (accepts_expect hsemicolon) ?_
  exact accepts_bind (accepts_declareAll hdeclared) (accepts_pure _)

theorem IsVariableGroup.starts {Γ Γ' : Setting} {ts rest : List Token} {vars : List Variable} :
    IsVariableGroup Γ ts vars Γ' rest → nextKind ts = .identifier
  | .mk hnames _ _ _ _ => hnames.starts

/-- Further groups of a section are accepted as long as a name is next. -/
theorem IsMoreGroups.accepts {Γ Γ' : Setting} {ts rest : List Token} {vars : List Variable}
    (h : IsMoreGroups Γ ts vars Γ' rest) (hrest : nextKind rest ≠ .identifier) :
    ∃ groups, groups.flatten = vars ∧ Accepts (many nextGroup?) Γ ts groups Γ' rest := by
  induction h with
  | nil =>
    refine ⟨[], rfl, accepts_many_nil ?_⟩
    exact accepts_bind (accepts_check_of_ne hrest) (accepts_pure none)
  | @cons _ _ _ _ _ _ vars _ hgroup _ ih =>
    obtain ⟨groups, rfl, hmany⟩ := ih hrest
    obtain ⟨token, us, rfl, htoken⟩ := exists_cons_of_nextKind hgroup.starts (by decide)
    refine ⟨vars :: groups, rfl, accepts_many_cons (fun _ => steps_nextGroup?) ?_ hmany⟩
    refine accepts_bind (accepts_check htoken) ?_
    exact accepts_bind hgroup.accepts (accepts_pure _)

/-- Sections go on with their word only. -/
theorem IsSections.starts {Γ Γ' : Setting} {ts rest : List Token} {vars : List Variable}
    (h : IsSections Γ ts vars Γ' rest) (hrest : nextKind rest ≠ .identifier) :
    nextKind ts ≠ .identifier := by
  cases h with
  | nil => exact hrest
  | cons hword => exact nextKind_ne hword (by decide)

/-- Sections of variables are accepted as long as `var` is next. -/
theorem IsSections.accepts {Γ Γ' : Setting} {ts rest : List Token} {vars : List Variable}
    (h : IsSections Γ ts vars Γ' rest) (hname : nextKind rest ≠ .identifier)
    (hvar : nextKind rest ≠ .keyword .var) : Accepts varSections Γ ts vars Γ' rest := by
  suffices hmany : ∃ sections, sections.flatten = vars ∧
      Accepts (many variableSection?) Γ ts sections Γ' rest by
    obtain ⟨sections, rfl, hmany⟩ := hmany
    exact accepts_bind hmany (accepts_pure _)
  induction h with
  | nil =>
    refine ⟨[], rfl, accepts_many_nil ?_⟩
    exact accepts_bind (accepts_accept_of_ne hvar) (accepts_pure none)
  | cons hword hfirst hothers hmore ih =>
    obtain ⟨sections, rfl, hmany⟩ := ih hname hvar
    obtain ⟨groups, rfl, hgroups⟩ := hothers.accepts (hmore.starts hname)
    refine ⟨(_ ++ groups.flatten) :: sections, rfl, ?_⟩
    refine accepts_many_cons (fun _ => steps_variableSection?) ?_ hmany
    refine accepts_bind (accepts_accept hword) ?_
    exact accepts_bind hfirst.accepts (accepts_bind hgroups (accepts_pure _))

end Grammar

end PascalMips
