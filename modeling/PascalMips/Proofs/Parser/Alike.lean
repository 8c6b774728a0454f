import Mathlib.Data.List.Forall2
import PascalMips.Program.Parser
import PascalMips.Proofs.Parser.Rules

/-!
# Parsers do not see layout

Two runs of a parser, side by side. Tokens are alike if they have the same kind and, where the kind
leaves the text open, the same text; `Near` tokens also stand at positions that a given relation
holds of. Over such tokens every production comes to the same result, or fails with the same fault
at related positions (`agree_program`): parsers compare kinds, keep the text of names and numbers
only, and use positions for nothing but faults and declarations.

A fault keeps the text of the token found, which a reserved word may spell in capitals. What is
compared is the fault as it is shown.
-/

namespace PascalMips

/-- The tokens have the same kind, and the same text if they are names or numbers. -/
structure Token.Alike (t u : Token) : Prop where
  kind : t.kind = u.kind
  lexeme : t.kind = .identifier ∨ t.kind = .number → t.lexeme = u.lexeme

/-- The fault with the description of the token found in place of its text. -/
def ParseFault.shown : ParseFault → ParseFault
  | mismatch expected found lexeme => mismatch expected found (found.describeToken lexeme)
  | fault => fault

/-- Tokens that are alike are described alike: a keyword by its kind, a name or a number by its
text. -/
theorem Token.Alike.describe {t u : Token} (h : t.Alike u) : t.describe = u.describe := by
  unfold Token.describe
  rw [← h.kind]
  cases hkind : t.kind with
  | identifier => rw [h.lexeme (.inl hkind)]
  | number => rw [h.lexeme (.inr hkind)]
  | keyword _ => rfl
  | punct _ => rfl
  | eof => rfl

/-- Tokens that are alike are shown alike where another one was expected. -/
theorem Token.Alike.shown {t u : Token} (h : t.Alike u) (expected : Expected) :
    (ParseFault.mismatch expected t.kind t.lexeme).shown =
      (ParseFault.mismatch expected u.kind u.lexeme).shown := by
  have hdescribe := h.describe
  unfold Token.describe at hdescribe
  rw [ParseFault.shown, ParseFault.shown, hdescribe, h.kind]

section

variable (P : Location → Location → Prop)

/-- Tokens that are alike at related positions. -/
structure Token.Near (t u : Token) : Prop extends Token.Alike t u where
  location : P t.location u.location

/-- Tokens with the same text at related positions. -/
structure Token.Same (t u : Token) : Prop where
  lexeme : t.lexeme = u.lexeme
  location : P t.location u.location

/-- Streams of tokens that are alike at related positions. -/
structure TokenStream.Near (s t : TokenStream) : Prop where
  pending : List.Forall₂ (Token.Near P) s.pending t.pending
  endLocation : P s.endLocation t.endLocation

/-- The same names are known and the same bodies open, and the tokens to come are alike. -/
structure Parser.Near (p q : Parser) : Prop where
  tokens : p.tokens.Near P q.tokens
  symbols : p.symbols = q.symbols
  enclosing : p.enclosing = q.enclosing

/-- Both succeed with related values and go on alike, or both fail in the same way at related
positions. -/
inductive Outcome.Near {α : Type} (R : α → α → Prop) : Outcome α → Outcome α → Prop
  | ok {a b : α} {p q : Parser} (value : R a b) (rest : p.Near P q) : Near R (.ok a p) (.ok b q)
  | error {e f : ParseError} {p q : Parser} (fault : e.fault.shown = f.fault.shown)
      (location : P e.location f.location) : Near R (.error e p) (.error f q)
  | exhausted : Near R .exhausted .exhausted

end

/-- Names and numbers that are alike have the same text. -/
theorem Token.Near.same {P : Location → Location → Prop} {t u : Token} (h : t.Near P u)
    (hkind : t.kind = .identifier ∨ t.kind = .number) : t.Same P u :=
  ⟨h.lexeme hkind, h.location⟩

namespace TokenStream

variable {P : Location → Location → Prop} {s t : TokenStream}

theorem Near.size (h : s.Near P t) : s.size = t.size := h.pending.length_eq

theorem Near.current (h : s.Near P t) : s.current.Near P t.current := by
  obtain ⟨pending, lexeme, location⟩ := s
  obtain ⟨pending', lexeme', location'⟩ := t
  obtain ⟨hpending, hlocation⟩ := h
  cases hpending with
  | nil => exact ⟨⟨rfl, by rintro (h | h) <;> cases h⟩, hlocation⟩
  | cons ht _ => exact ht

/-- Reading a token keeps two streams near each other. -/
theorem Near.advance (h : s.Near P t) : s.advance.Near P t.advance := by
  obtain ⟨pending, lexeme, location⟩ := s
  obtain ⟨pending', lexeme', location'⟩ := t
  obtain ⟨hpending, hlocation⟩ := h
  cases hpending with
  | nil => exact ⟨.nil, hlocation⟩
  | cons _ hts => exact ⟨hts, hlocation⟩

end TokenStream

namespace Parse

variable {α β : Type} {P : Location → Location → Prop}

/-! ## Combinators -/

/-- On states that are alike, the parsers come to outcomes that are, with values related by `R`. -/
def Agree (P : Location → Location → Prop) (R : α → α → Prop) (x y : Parse α) : Prop :=
  ∀ p q, p.Near P q → Outcome.Near P R (x p) (y q)

/-- On states that are alike, the parser gives the same. -/
abbrev Steady (P : Location → Location → Prop) (x : Parse α) : Prop := Agree P Eq x x

/-- Results that are related by `R` are related by what follows from `R`. -/
theorem Agree.mono {R S : α → α → Prop} {x y : Parse α} (h : Agree P R x y)
    (hRS : ∀ a b, R a b → S a b) : Agree P S x y := by
  intro p q hpq
  have hxy := h p q hpq
  revert hxy
  generalize x p = o
  generalize y q = o'
  rintro (⟨hvalue, hrest⟩ | ⟨hfault, hlocation⟩ | _)
  · exact .ok (hRS _ _ hvalue) hrest
  · exact .error hfault hlocation
  · exact .exhausted

theorem agree_pure {R : α → α → Prop} {a b : α} (h : R a b) : Agree P R (pure a) (pure b) :=
  fun _ _ hpq => .ok h hpq

/-- Parsers that agree, one after the other: the second ones have to agree on related results only.
-/
theorem agree_bind {R : α → α → Prop} {S : β → β → Prop} {x y : Parse α} {f g : α → Parse β}
    (hxy : Agree P R x y) (hfg : ∀ a b, R a b → Agree P S (f a) (g b)) :
    Agree P S (x >>= f) (y >>= g) := by
  intro p q hpq
  have hfirst := hxy p q hpq
  rw [bind_apply, bind_apply]
  revert hfirst
  generalize x p = o
  generalize y q = o'
  rintro (⟨hvalue, hrest⟩ | ⟨hfault, hlocation⟩ | _)
  · exact hfg _ _ hvalue _ _ hrest
  · exact .error hfault hlocation
  · exact .exhausted

/-- A sequence whose first part gives the same on both sides. -/
theorem agree_seq {S : β → β → Prop} {x y : Parse α} {f g : α → Parse β} (hxy : Agree P Eq x y)
    (hfg : ∀ a, Agree P S (f a) (g a)) : Agree P S (x >>= f) (y >>= g) :=
  agree_bind hxy fun a _ hab => hab ▸ hfg a

theorem agree_fail {R : α → α → Prop} {f g : ParseFault} {l m : Location}
    (hfault : f.shown = g.shown) (hlocation : P l m) : Agree P R (fail f l) (fail g m) :=
  fun _ _ _ => .error hfault hlocation

theorem agree_ite {R : α → α → Prop} {c : Prop} [Decidable c] {x y x' y' : Parse α}
    (hx : Agree P R x x') (hy : Agree P R y y') :
    Agree P R (if c then x else y) (if c then x' else y') := by
  by_cases hc : c
  · rw [if_pos hc, if_pos hc]
    exact hx
  · rw [if_neg hc, if_neg hc]
    exact hy

/-! ## Tokens -/

theorem agree_current : Agree P (Token.Near P) current current :=
  fun _ _ hpq => .ok hpq.tokens.current hpq

theorem agree_advance : Agree P (Token.Near P) advance advance :=
  fun _ _ hpq => .ok hpq.tokens.current ⟨hpq.tokens.advance, hpq.symbols, hpq.enclosing⟩

/-- The complaint about the next token is the same for near tokens, and it is at their positions. -/
theorem agree_unexpected {R : α → α → Prop} (expected : Expected) :
    Agree P R (unexpected expected) (unexpected expected) :=
  agree_bind agree_current fun _ _ htu => agree_fail (htu.shown expected) htu.location

theorem steady_check (kind : Kind) : Steady P (check kind) :=
  agree_bind agree_current fun _ _ htu => agree_pure (by rw [htu.kind])

theorem steady_accept (kind : Kind) : Steady P (accept kind) :=
  agree_seq (steady_check kind) fun _ =>
    agree_ite (agree_bind agree_advance fun _ _ _ => agree_pure rfl) (agree_pure rfl)

/-- An expected token is read by both runs or by neither. -/
theorem agree_expect (kind : Kind) :
    Agree P (fun t u => t.Near P u ∧ t.kind = kind) (expect kind) (expect kind) := by
  intro p q hpq
  have hcurrent := hpq.tokens.current
  rw [expect_apply, expect_apply, ← hcurrent.kind]
  by_cases hkind : p.tokens.current.kind = kind
  · rw [if_pos hkind, if_pos hkind]
    exact .ok ⟨hcurrent, hkind⟩ ⟨hpq.tokens.advance, hpq.symbols, hpq.enclosing⟩
  · rw [if_neg hkind, if_neg hkind]
    refine .error ?_ hcurrent.location
    have hshown := hcurrent.shown (.kind kind)
    rwa [← hcurrent.kind] at hshown

theorem agree_name : Agree P (Token.Same P) (expect .identifier) (expect .identifier) :=
  (agree_expect .identifier).mono fun _ _ ⟨hnear, hkind⟩ => hnear.same (.inl hkind)

theorem agree_numeral : Agree P (Token.Same P) (expect .number) (expect .number) :=
  (agree_expect .number).mono fun _ _ ⟨hnear, hkind⟩ => hnear.same (.inr hkind)

/-- A token that is expected and not used. -/
theorem agree_after {S : β → β → Prop} (kind : Kind) {f g : Parse β} (h : Agree P S f g) :
    Agree P S (expect kind >>= fun _ => f) (expect kind >>= fun _ => g) :=
  agree_bind (agree_expect kind) fun _ _ _ => h

/-! ## Names -/

/-- A name is declared, or refused as declared already, by both runs. The position of a declaration
is its only trace of the layout. -/
theorem agree_declare {t u : Token} (h : t.Same P u) (binding : Binding) :
    Agree P Eq (declare t binding) (declare u binding) := by
  intro p q hpq
  unfold declare
  rw [← h.lexeme, ← hpq.symbols]
  cases p.symbols.declare? t.lexeme binding with
  | some symbols => exact .ok rfl ⟨hpq.tokens, rfl, hpq.enclosing⟩
  | none => exact .error rfl h.location

/-- A name resolves to the same meaning, or is unknown in both runs. -/
theorem agree_resolve {t u : Token} (h : t.Same P u) : Agree P Eq (resolve t) (resolve u) := by
  intro p q hpq
  unfold resolve
  rw [← h.lexeme, ← hpq.symbols]
  cases p.symbols.lookup? t.lexeme with
  | some symbol => exact .ok rfl hpq
  | none => exact .error rfl h.location

theorem steady_isEnclosing (name : String) : Steady P (isEnclosing name) := by
  intro p q hpq
  exact .ok (by rw [hpq.enclosing]) hpq

theorem steady_procedure? (name : String) : Steady P (procedure? name) := by
  intro p q hpq
  unfold procedure?
  rw [← hpq.symbols]
  split <;> exact .ok rfl hpq

/-! ## Repetition and nesting -/

/-- A repetition takes the same number of rounds in both runs, by induction on the budget. -/
theorem agree_manyWithin {R : α → α → Prop} {step : Parse (Option α)}
    (h : Agree P (Option.Rel R) step step) (budget : Nat) :
    Agree P (List.Forall₂ R) (manyWithin step budget) (manyWithin step budget) := by
  induction budget with
  | zero => exact fun _ _ _ => .exhausted
  | succ budget ih =>
    refine agree_bind h fun a? b? hab => ?_
    cases hab with
    | none => exact agree_pure .nil
    | some hab => exact agree_bind ih fun _ _ hrest => agree_pure (.cons hab hrest)

/-- The budget of a repetition depends on the number of tokens left, which is the same for near
streams. -/
theorem agree_many {R : α → α → Prop} {step : Parse (Option α)}
    (h : Agree P (Option.Rel R) step step) :
    Agree P (List.Forall₂ R) (many step) (many step) := by
  intro p q hpq
  unfold many
  rw [← hpq.tokens.size]
  exact agree_manyWithin h _ p q hpq

/-- A step that does not see layout gives a repetition that does not. -/
theorem steady_many {step : Parse (Option α)} (h : Steady P step) : Steady P (many step) := by
  refine (agree_many (R := Eq) (h.mono ?_)).mono ?_
  · rintro a? _ rfl
    cases a? with
    | none => exact .none
    | some a => exact .some rfl
  · exact fun _ _ hforall => List.forall₂_eq_eq_eq ▸ hforall

/-- Lists with separators have as many items in both runs. -/
theorem agree_sepBy {R : α → α → Prop} {separator : Kind} {item : Parse α}
    (h : Agree P R item item) :
    Agree P (List.Forall₂ R) (sepBy separator item) (sepBy separator item) := by
  refine agree_bind h fun _ _ hfirst => agree_bind (agree_many ?_) fun _ _ hothers =>
    agree_pure (.cons hfirst hothers)
  exact agree_seq (steady_accept separator) fun _ => agree_ite
    (agree_bind h fun _ _ hab => agree_pure (.some hab)) (agree_pure .none)

theorem steady_sepBy {separator : Kind} {item : Parse α} (h : Steady P item) :
    Steady P (sepBy separator item) :=
  (agree_sepBy h).mono fun _ _ hforall => List.forall₂_eq_eq_eq ▸ hforall

/-- Streams that are alike have the same size, so both sides nest on the same budget. -/
theorem agree_nest {R : α → α → Prop} {level : Parse α → Parse α}
    (h : ∀ inner, Agree P R inner inner → Agree P R (level inner) (level inner)) :
    Agree P R (nest level) (nest level) := by
  have hwithin (budget : Nat) : Agree P R (nestWithin level budget) (nestWithin level budget) := by
    induction budget with
    | zero => exact fun _ _ _ => .exhausted
    | succ budget ih => exact h _ ih
  intro p q hpq
  unfold nest
  rw [← hpq.tokens.size]
  exact hwithin _ p q hpq

/-! ## Expressions -/

theorem steady_operation? {op? : Kind → Option BinaryOp} {operand : Parse Expr}
    (h : Steady P operand) : Steady P (operation? op? operand) := by
  refine agree_bind agree_current fun t u htu => ?_
  rw [← htu.kind]
  cases op? t.kind with
  | none => exact agree_pure rfl
  | some op => exact agree_bind agree_advance fun _ _ _ => agree_seq h fun _ => agree_pure rfl

/-- A chain of operations does not see the layout if its operands do not. -/
theorem steady_leftAssoc {op? : Kind → Option BinaryOp} {operand : Parse Expr}
    (h : Steady P operand) (first : Expr) : Steady P (leftAssoc op? operand first) :=
  agree_seq (steady_many (steady_operation? h)) fun _ => agree_pure rfl

theorem steady_product {factor : Parse Expr} (h : Steady P factor) : Steady P (product factor) :=
  agree_seq h fun _ => steady_leftAssoc h _

theorem steady_sum {product : Parse Expr} (h : Steady P product) : Steady P (sum product) :=
  agree_seq (steady_accept _) fun _ => agree_ite
    (agree_seq h fun _ => steady_leftAssoc h _)
    (agree_seq (steady_accept _) fun _ => agree_seq h fun _ => steady_leftAssoc h _)

/-- A comparison does not see the layout if its sums do not. -/
theorem steady_comparison {sum : Parse Expr} (h : Steady P sum) : Steady P (comparison sum) := by
  refine agree_seq h fun left => agree_seq (steady_operation? h) fun found => ?_
  cases found with
  | none => exact agree_pure rfl
  | some operation => exact agree_pure rfl

theorem steady_expressionOf {factor : Parse Expr} (h : Steady P factor) :
    Steady P (expressionOf factor) :=
  steady_comparison (steady_sum (steady_product h))

/-- A number has the same value, or is refused in both runs. -/
theorem agree_literal {t u : Token} (h : t.Same P u) : Agree P Eq (literal t) (literal u) := by
  unfold literal
  rw [← h.lexeme]
  exact agree_ite (agree_pure rfl) (agree_fail rfl h.location)

theorem steady_index {expression : Parse Expr} (h : Steady P expression) :
    Steady P (index expression) :=
  agree_after _ (agree_seq h fun _ => agree_after _ (agree_pure rfl))

theorem steady_group {expression : Parse Expr} (h : Steady P expression) :
    Steady P (group expression) :=
  agree_after _ (agree_seq h fun _ => agree_after _ (agree_pure rfl))

theorem steady_argumentList {expression : Parse Expr} (h : Steady P expression) :
    Steady P (argumentList expression) :=
  agree_seq (steady_accept _) fun _ => agree_ite
    (agree_seq (steady_sepBy h) fun _ => agree_after _ (agree_pure rfl)) (agree_pure rfl)

/-- Arguments are checked against the same parameters in both runs. -/
theorem agree_arguments {expression : Parse Expr} (h : Steady P expression) {t u : Token}
    (htu : t.Same P u) (params : List ValueType) :
    Agree P Eq (arguments expression t params) (arguments expression u params) :=
  agree_seq (steady_argumentList h) fun _ =>
    agree_ite (agree_pure rfl) (agree_fail (by rw [htu.lexeme]) htu.location)

/-- What a name in an expression stands for depends on its text and on the scopes only. -/
theorem agree_named {expression : Parse Expr} (h : Steady P expression) {t u : Token}
    (htu : t.Same P u) : Agree P Eq (named expression t) (named expression u) := by
  refine agree_seq (agree_resolve htu) fun binding => ?_
  cases binding with
  | scalar type => exact agree_pure (by rw [htu.lexeme])
  | array type bounds =>
    exact agree_seq (steady_index h) fun _ => agree_pure (by rw [htu.lexeme])
  | function returns params =>
    exact agree_seq (agree_arguments h htu params) fun _ => agree_pure (by rw [htu.lexeme])
  | procedure params => exact agree_fail (by rw [htu.lexeme]) htu.location
  | program => exact agree_fail (by rw [htu.lexeme]) htu.location

/-- Reading on where the next token is known is expecting it. -/
theorem advance_bind {kind : Kind} {p : Parser} (h : p.tokens.current.kind = kind)
    (f : Token → Parse β) : (advance >>= f) p = (expect kind >>= f) p := by
  rw [bind_apply, bind_apply, expect_apply, if_pos h]
  rfl

/-- One level of factors does not see the layout: the kind of the next token decides on the case in
both runs. -/
theorem steady_factorOf (inner : Parse Expr) (h : Steady P inner) : Steady P (factorOf inner) := by
  intro p q hpq
  have hkind := hpq.tokens.current.kind
  unfold factorOf
  rw [bind_apply, bind_apply]
  simp only [current]
  generalize hp : p.tokens.current.kind = kind at hkind
  rw [← hkind]
  split
  · next hp =>
    rw [advance_bind hp, advance_bind hkind.symm]
    exact agree_bind agree_numeral (fun _ _ htu => agree_literal htu) p q hpq
  · exact steady_group (steady_expressionOf h) p q hpq
  · refine agree_bind agree_advance (fun _ _ _ => ?_) p q hpq
    exact agree_seq h fun _ => agree_pure rfl
  · next hp =>
    rw [advance_bind hp, advance_bind hkind.symm]
    exact agree_bind agree_name (fun _ _ htu => agree_named (steady_expressionOf h) htu) p q hpq
  · exact agree_unexpected _ p q hpq

theorem steady_expression : Steady P expression :=
  steady_expressionOf (agree_nest steady_factorOf)

/-! ## Statements -/

/-- A place is read and checked in both runs alike. -/
theorem agree_target {t u : Token} (h : t.Same P u) : Agree P Eq (target t) (target u) := by
  refine agree_seq (agree_resolve h) fun binding => ?_
  cases binding with
  | scalar type => exact agree_pure (by rw [h.lexeme])
  | array type bounds =>
    exact agree_seq (steady_index steady_expression) fun _ => agree_pure (by rw [h.lexeme])
  | function returns params =>
    dsimp only
    rw [h.lexeme]
    exact agree_seq (steady_isEnclosing _) fun _ =>
      agree_ite (agree_pure rfl) (agree_fail rfl h.location)
  | procedure params => exact agree_fail (by rw [h.lexeme]) h.location
  | program => exact agree_fail (by rw [h.lexeme]) h.location

/-- The meaning of the first name decides between a call and an assignment. -/
theorem steady_callOrAssign : Steady P callOrAssign := by
  refine agree_bind agree_name fun t u htu => ?_
  rw [htu.lexeme]
  refine agree_seq (steady_procedure? _) fun found => ?_
  cases found with
  | some params =>
    exact agree_seq (agree_arguments steady_expression htu params) fun _ => agree_pure rfl
  | none =>
    exact agree_seq (agree_target htu) fun _ => agree_after _ (agree_seq steady_expression
      fun _ => agree_pure rfl)

theorem steady_nextStatement? {statement : Parse Statement} (h : Steady P statement) :
    Steady P (nextStatement? statement) :=
  agree_seq (steady_accept _) fun _ => agree_ite
    (agree_seq (steady_check _) fun _ => agree_ite (agree_pure rfl)
      (agree_seq h fun _ => agree_pure rfl))
    (agree_pure rfl)

theorem steady_statementList {statement : Parse Statement} (h : Steady P statement) :
    Steady P (statementList statement) :=
  agree_seq (steady_check _) fun _ => agree_ite (agree_pure rfl)
    (agree_seq h fun _ => agree_seq (steady_many (steady_nextStatement? h)) fun _ =>
      agree_pure rfl)

theorem steady_compoundOf {statement : Parse Statement} (h : Steady P statement) :
    Steady P (compoundOf statement) :=
  agree_after _ (agree_seq (steady_statementList h) fun _ => agree_after _ (agree_pure rfl))

theorem steady_branchOf {statement : Parse Statement} (h : Steady P statement) :
    Steady P (branchOf statement) :=
  agree_after _ (agree_seq steady_expression fun _ => agree_after _ (agree_seq h fun _ =>
    agree_after _ (agree_seq h fun _ => agree_pure rfl)))

theorem steady_loopOf {statement : Parse Statement} (h : Steady P statement) :
    Steady P (loopOf statement) :=
  agree_after _ (agree_seq steady_expression fun _ => agree_after _ (agree_seq h fun _ =>
    agree_pure rfl))

theorem steady_readStatement : Steady P readStatement :=
  agree_after _ (agree_after _ (agree_bind agree_name fun _ _ htu =>
    agree_seq (agree_target htu) fun _ => agree_after _ (agree_pure rfl)))

theorem steady_writeStatement : Steady P writeStatement :=
  agree_after _ (agree_seq (steady_group steady_expression) fun _ => agree_pure rfl)

/-- One level of statements does not see the layout. -/
theorem steady_statementOf (inner : Parse Statement) (h : Steady P inner) :
    Steady P (statementOf inner) := by
  refine agree_bind agree_current fun t u htu => ?_
  rw [← htu.kind]
  split
  · exact steady_callOrAssign
  · exact agree_seq (steady_compoundOf h) fun _ => agree_pure rfl
  · exact steady_branchOf h
  · exact steady_loopOf h
  · exact steady_readStatement
  · exact steady_writeStatement
  · exact agree_unexpected _

theorem steady_compound : Steady P compound :=
  steady_compoundOf (agree_nest steady_statementOf)

/-! ## Declarations -/

theorem agree_names : Agree P (List.Forall₂ (Token.Same P)) names names :=
  agree_sepBy agree_name

/-- Names in the same order are the same names. -/
theorem map_lexeme {γ : Type} {ts us : List Token} (h : List.Forall₂ (Token.Same P) ts us)
    (f : String → γ) : ts.map (fun t => f t.lexeme) = us.map fun u => f u.lexeme := by
  induction h with
  | nil => rfl
  | cons htu _ ih => rw [List.map_cons, List.map_cons, htu.lexeme, ih]

theorem steady_standardType : Steady P standardType :=
  agree_seq (steady_accept _) fun _ => agree_ite (agree_pure rfl)
    (agree_seq (steady_accept _) fun _ => agree_ite (agree_pure rfl) (agree_unexpected _))

/-- A bound of an array is the same number in both runs. -/
theorem steady_bound : Steady P bound := by
  refine agree_seq (steady_accept _) fun negative => agree_bind agree_numeral fun t u htu => ?_
  dsimp only
  rw [← htu.lexeme]
  cases Literal.integer? (if negative = true then "-" ++ t.lexeme else t.lexeme) with
  | some i => exact agree_pure rfl
  | none => exact agree_fail rfl htu.location

theorem steady_declaredType : Steady P declaredType := by
  refine agree_seq (steady_accept _) fun _ => agree_ite ?_
    (agree_seq steady_standardType fun _ => agree_pure rfl)
  refine agree_bind (agree_expect _) fun _ _ hopening => ?_
  exact agree_seq steady_bound fun _ => agree_after _ (agree_seq steady_bound fun _ =>
    agree_after _ (agree_after _ (agree_seq steady_standardType fun _ =>
      agree_ite (agree_pure rfl) (agree_fail rfl hopening.1.location))))

/-- Names of a group are declared one after the other in both runs, up to the first that is refused.
-/
theorem agree_declareAll (binding : Binding) {ts us : List Token}
    (h : List.Forall₂ (Token.Same P) ts us) :
    Agree P Eq (declareAll binding ts) (declareAll binding us) := by
  induction h with
  | nil => exact agree_pure rfl
  | cons htu _ ih => exact agree_seq (agree_declare htu binding) fun _ => ih

theorem steady_variableGroup : Steady P variableGroup :=
  agree_bind agree_names fun _ _ hnames => agree_after _ (agree_seq steady_declaredType fun _ =>
    agree_after _ (agree_seq (agree_declareAll _ hnames) fun _ =>
      agree_pure (map_lexeme hnames fun name => (⟨name, _⟩ : Variable))))

/-- The variables of a block are the same in both runs. -/
theorem steady_varSections : Steady P varSections := by
  have hnext : Steady P nextGroup? :=
    agree_seq (steady_check _) fun _ => agree_ite
      (agree_seq steady_variableGroup fun _ => agree_pure rfl) (agree_pure rfl)
  have hsection : Steady P variableSection? :=
    agree_seq (steady_accept _) fun _ => agree_ite
      (agree_seq steady_variableGroup fun _ => agree_seq (steady_many hnext) fun _ =>
        agree_pure rfl)
      (agree_pure rfl)
  exact agree_seq (steady_many hsection) fun _ => agree_pure rfl

/-- Parameters with the same names and types at related positions. -/
abbrev SameParameters (P : Location → Location → Prop) (ps qs : List (Token × ValueType)) : Prop :=
  List.Forall₂ (fun p q => p.1.Same P q.1 ∧ p.2 = q.2) ps qs

/-- What is computed from the texts and types of parameters is the same for both lists. -/
theorem map_parameters {γ : Type} {ps qs : List (Token × ValueType)} (h : SameParameters P ps qs)
    (f : String → ValueType → γ) :
    ps.map (fun p => f p.1.lexeme p.2) = qs.map fun q => f q.1.lexeme q.2 := by
  induction h with
  | nil => rfl
  | cons hpq _ ih => rw [List.map_cons, List.map_cons, hpq.1.lexeme, hpq.2, ih]

theorem agree_parameterGroup : Agree P (SameParameters P) parameterGroup parameterGroup := by
  refine agree_bind agree_names fun _ _ hnames => agree_after _ (agree_seq steady_standardType
    fun type => agree_pure ?_)
  induction hnames with
  | nil => exact .nil
  | cons htu _ ih => exact .cons ⟨htu, rfl⟩ ih

/-- Parameters have the same names and types in both runs. -/
theorem agree_parameters : Agree P (SameParameters P) parameters parameters := by
  refine agree_seq (steady_accept _) fun _ => agree_ite ?_ (agree_pure .nil)
  refine agree_bind (agree_sepBy agree_parameterGroup) fun _ _ hgroups =>
    agree_after _ (agree_pure ?_)
  induction hgroups with
  | nil => exact .nil
  | cons hgroup _ ih => exact List.rel_append hgroup ih

theorem agree_declareParameters {ps qs : List (Token × ValueType)} (h : SameParameters P ps qs) :
    Agree P Eq (declareParameters ps) (declareParameters qs) := by
  induction h with
  | nil => exact agree_pure rfl
  | @cons p q ps qs hpq _ ih =>
    obtain ⟨t, type⟩ := p
    obtain ⟨u, type'⟩ := q
    obtain ⟨htu, rfl⟩ := hpq
    exact agree_seq (agree_declare htu _) fun _ => ih

theorem steady_routineKind : Steady P routineKind :=
  agree_seq (steady_accept _) fun _ => agree_ite (agree_pure rfl) (agree_after _ (agree_pure rfl))

/-- A subprogram is declared with the same parameters, or refused, in both runs. -/
theorem agree_declareRoutine (kind : RoutineKind) {t u : Token} (h : t.Same P u)
    (params : List ValueType) :
    Agree P Eq (declareRoutine kind t params) (declareRoutine kind u params) := by
  cases kind with
  | function =>
    exact agree_after _ (agree_seq steady_standardType fun _ =>
      agree_seq (agree_declare h _) fun _ => agree_pure rfl)
  | procedure => exact agree_seq (agree_declare h _) fun _ => agree_pure rfl

theorem steady_openScope (name : String) : Steady P (openScope name) := by
  intro p q hpq
  exact .ok rfl ⟨hpq.tokens, congrArg SymbolTable.enter hpq.symbols,
    congrArg (name :: ·) hpq.enclosing⟩

theorem steady_closeScope (name : String) : Steady P (closeScope name) := by
  rintro ⟨tokens, symbols, enclosing⟩ ⟨tokens', symbols', enclosing'⟩ ⟨htokens, hsymbols, henclosing⟩
  obtain rfl : symbols = symbols' := hsymbols
  obtain rfl : enclosing = enclosing' := henclosing
  exact .ok rfl ⟨htokens, rfl, rfl⟩

end Parse

/-! ## Programs -/

namespace Subprogram

mutual

/-- The subprogram without the positions of its names. -/
def unplaced : Subprogram → Subprogram
  | ⟨kind, name, returns, args, vars, subprograms, body, _⟩ =>
    ⟨kind, name, returns, args, vars, unplacedAll subprograms, body, .start⟩

/-- Subprograms without the positions of their names. -/
def unplacedAll : List Subprogram → List Subprogram
  | [] => []
  | s :: ss => s.unplaced :: unplacedAll ss

end

/-- Subprograms that are equal up to positions one by one are so as a list. -/
theorem unplacedAll_eq {ss ts : List Subprogram}
    (h : List.Forall₂ (fun s t => s.unplaced = t.unplaced) ss ts) :
    unplacedAll ss = unplacedAll ts := by
  induction h with
  | nil => rfl
  | cons hst _ ih => rw [unplacedAll, unplacedAll, hst, ih]

end Subprogram

/-- The program without the positions of its names. -/
def Program.unplaced (p : Program) : Program :=
  { p with subprograms := Subprogram.unplacedAll p.subprograms, location := .start }

namespace Parse

variable {P : Location → Location → Prop}

/-- The same subprograms up to positions. -/
abbrev SameRoutine (s t : Subprogram) : Prop := s.unplaced = t.unplaced

/-- A further subprogram is read by both runs or by neither. -/
theorem agree_nextSubprogram? {inner : Parse Subprogram} (h : Agree P SameRoutine inner inner) :
    Agree P (Option.Rel SameRoutine) (nextSubprogram? inner) (nextSubprogram? inner) := by
  refine agree_bind agree_current fun t u htu => ?_
  dsimp only
  rw [← htu.kind]
  exact agree_ite (agree_bind h fun _ _ hst => agree_after _ (agree_pure (.some hst)))
    (agree_pure .none)

/-- One level of subprograms: the head, the declarations, the subprograms inside and the body are
read in step. -/
theorem agree_subprogramOf (inner : Parse Subprogram) (h : Agree P SameRoutine inner inner) :
    Agree P SameRoutine (subprogramOf inner) (subprogramOf inner) := by
  refine agree_seq steady_routineKind fun kind => agree_bind agree_name fun t u htu =>
    agree_bind agree_parameters fun ps qs hpq => ?_
  have htypes : ps.map Prod.snd = qs.map Prod.snd := map_parameters hpq fun _ type => type
  have hargs := map_parameters hpq fun name type => (⟨name, type⟩ : Variable)
  rw [htypes, htu.lexeme]
  refine agree_seq (agree_declareRoutine kind htu _) fun returns => agree_after _ <|
    agree_seq (steady_openScope _) fun _ => agree_seq (agree_declareParameters hpq) fun _ =>
      agree_seq steady_varSections fun vars => agree_bind (agree_many (agree_nextSubprogram? h))
        fun ss ts hst => agree_seq steady_compound fun body =>
          agree_seq (steady_closeScope _) fun _ => agree_pure ?_
  exact congrArg₂ (fun args subs =>
    (⟨kind, u.lexeme, returns, args, vars, subs, body, .start⟩ : Subprogram)) hargs
    (Subprogram.unplacedAll_eq hst)

/-- Over tokens that are alike, programs are read that are the same up to positions, or faults found
that are shown alike. -/
theorem agree_program :
    Agree P (fun p q => p.unplaced = q.unplaced) program program := by
  refine agree_after _ (agree_bind agree_name fun t u htu => agree_after _ <|
    agree_seq (agree_declare htu _) fun _ => agree_seq steady_varSections fun vars =>
      agree_bind (agree_many (agree_nextSubprogram? (agree_nest agree_subprogramOf)))
        fun ss ts hst => agree_seq steady_compound fun body =>
          agree_after _ (agree_after _ (agree_pure ?_)))
  rw [Program.unplaced, Program.unplaced, htu.lexeme, Subprogram.unplacedAll_eq hst]

end Parse

end PascalMips
