import PascalMips.Proofs.Parser.Alike
import PascalMips.Proofs.Parser.Checked
import PascalMips.Proofs.Parser.Complete
import PascalMips.Proofs.Parser.Moves
import PascalMips.Proofs.Parser.Sound

/-!
# Expressions written out and read back

`Expr.render` writes an expression as tokens. An operand that binds looser than its place asks for
stands in parentheses, and around every subexpression there may be more of them than needed:
`extra` gives their number at each position. Whatever that number is, the expression parser reads
the tokens back as the same tree and stops behind them; where it is zero, nothing shorter is read as
the tree (`Parse.expression_render`).

The places of an expression are the four levels of the grammar. What is written for a tree is a
phrase of the level of its outermost operator (`Expr.writes_bare`), by induction over the tree: a
phrase of a tighter level is one of every looser level, and in parentheses it is one of the
tightest. That no phrase is shorter is an induction over derivations (`IsExpression.width_le`).
-/

namespace PascalMips

namespace Grammar

/-! ## Levels -/

/-- The levels of the grammar of expressions, the loosest first. -/
inductive Tier where
  | expression | sum | product | factor
deriving DecidableEq

namespace Tier

/-- How tight the phrases of a level bind. -/
def rank : Tier → Nat
  | expression => 0
  | sum => 1
  | product => 2
  | factor => 3

/-- The next tighter level; the phrases of the tightest are made of their own. -/
def next : Tier → Tier
  | expression => sum
  | sum => product
  | product => factor
  | factor => factor

/-- The phrases of a level. -/
def Derives (Γ : Setting) : Tier → List Token → Expr → List Token → Prop
  | expression => IsExpression Γ
  | sum => IsSum Γ
  | product => IsProduct Γ
  | factor => IsFactor Γ

end Tier

variable {Γ : Setting} {ts us rest : List Token} {e left right : Expr} {sign : Token}
  {op : BinaryOp}

/-- A phrase of the next tighter level is one of the level itself. -/
theorem Tier.Derives.of_next {tier : Tier} (h : tier.next.Derives Γ ts e rest) :
    tier.Derives Γ ts e rest := by
  cases tier with
  | expression => exact IsExpression.sum h
  | sum => exact IsSum.plain h .nil
  | product => exact IsProduct.mk h .nil
  | factor => exact h

/-- A phrase of a level is one of every looser level. -/
theorem Tier.Derives.loosen {tier place : Tier} (h : tier.Derives Γ ts e rest)
    (hrank : place.rank ≤ tier.rank) : place.Derives Γ ts e rest := by
  cases tier with
  | expression =>
    cases place with
    | expression => exact h
    | sum | product | factor => exact absurd hrank (by decide)
  | sum =>
    cases place with
    | expression => exact of_next h
    | sum => exact h
    | product | factor => exact absurd hrank (by decide)
  | product =>
    have hsum : Tier.sum.Derives Γ ts e rest := of_next h
    cases place with
    | expression => exact of_next hsum
    | sum => exact hsum
    | product => exact h
    | factor => exact absurd hrank (by decide)
  | factor =>
    have hproduct : Tier.product.Derives Γ ts e rest := of_next h
    have hsum : Tier.sum.Derives Γ ts e rest := of_next hproduct
    cases place with
    | expression => exact of_next hsum
    | sum => exact hsum
    | product => exact hproduct
    | factor => exact h

/-! ## One more operator at the end

Chains are told from the left, with the tree so far as the left operand. A tree shows its last
operator first. -/

theorem IsSumTail.trans : ∀ {first : Expr} {ts : List Token}, IsSumTail Γ first ts left us →
    IsSumTail Γ left us e rest → IsSumTail Γ first ts e rest
  | _, _, .nil, hmore => hmore
  | _, _, .cons hop hright htail, hmore => .cons hop hright (htail.trans hmore)

/-- A sum with one more product behind a sign is a sum. -/
theorem IsSum.snoc (hleft : IsSum Γ ts left (sign :: us)) (hop : (sign.kind, op) ∈ additions)
    (hright : IsProduct Γ us right rest) : IsSum Γ ts (.ofBinary op left right) rest := by
  have hlast : IsSumTail Γ left (sign :: us) (.ofBinary op left right) rest :=
    .cons hop hright .nil
  cases hleft with
  | plain hfirst hmore => exact .plain hfirst (hmore.trans hlast)
  | plus hsign hfirst hmore => exact .plus hsign hfirst (hmore.trans hlast)
  | minus hsign hfirst hmore => exact .minus hsign hfirst (hmore.trans hlast)

theorem IsProductTail.trans : ∀ {first : Expr} {ts : List Token},
    IsProductTail Γ first ts left us → IsProductTail Γ left us e rest →
      IsProductTail Γ first ts e rest
  | _, _, .nil, hmore => hmore
  | _, _, .cons hop hright htail, hmore => .cons hop hright (htail.trans hmore)

/-- A product with one more factor behind a sign is a product. -/
theorem IsProduct.snoc (hleft : IsProduct Γ ts left (sign :: us))
    (hop : (sign.kind, op) ∈ multiplications) (hright : IsFactor Γ us right rest) :
    IsProduct Γ ts (.ofBinary op left right) rest := by
  obtain ⟨hfirst, hmore⟩ := hleft
  exact .mk hfirst (hmore.trans (.cons hop hright .nil))

end Grammar

open Grammar

/-! ## Operators -/

/-- The sign of a comparison. -/
def Relation.sign : Relation → Punct
  | eq => .equal
  | ne => .notEqual
  | lt => .less
  | le => .lessEqual
  | gt => .greater
  | ge => .greaterEqual

namespace BinaryOp

def kind : BinaryOp → Kind
  | add => .punct .plus
  | sub => .punct .minus
  | mul => .punct .star
  | divide => .punct .slash
  | div => .keyword .div
  | mod => .keyword .mod
  | and => .keyword .and
  | or => .keyword .or
  | rel relation => .punct relation.sign

/-- The level of the operations. -/
def tier : BinaryOp → Tier
  | rel _ => .expression
  | add | sub | or => .sum
  | mul | divide | div | mod | and => .product

/-- The level of left operands. Sums and products associate to the left, comparisons not at all. -/
def leftTier (op : BinaryOp) : Tier :=
  if op.tier = .expression then .sum else op.tier

end BinaryOp

namespace UnaryOp

def kind : UnaryOp → Kind
  | neg => .punct .minus
  | not => .keyword .not

/-- The level of the operations. A minus sign leads a sum and goes with its first product. -/
def tier : UnaryOp → Tier
  | neg => .sum
  | not => .factor

end UnaryOp

namespace Grammar

variable {Γ : Setting} {ts us rest : List Token} {left right operand : Expr} {sign : Token}

/-- An operator between operands of its levels. -/
theorem derives_ofBinary {op : BinaryOp} (hsign : sign.kind = op.kind)
    (hleft : op.leftTier.Derives Γ ts left (sign :: us))
    (hright : op.tier.next.Derives Γ us right rest) :
    op.tier.Derives Γ ts (.ofBinary op left right) rest := by
  cases op with
  | rel relation =>
    refine IsExpression.comparison hleft ?_ hright
    rw [hsign]
    cases relation <;> decide
  | add | sub | or =>
    refine IsSum.snoc hleft ?_ hright
    rw [hsign]
    decide
  | mul | divide | div | mod | and =>
    refine IsProduct.snoc hleft ?_ hright
    rw [hsign]
    decide

/-- An operator in front of an operand of its level. -/
theorem derives_ofUnary {op : UnaryOp} (hsign : sign.kind = op.kind)
    (h : op.tier.next.Derives Γ ts operand rest) :
    op.tier.Derives Γ (sign :: ts) (.ofUnary op operand) rest := by
  cases op with
  | neg => exact IsSum.minus hsign h .nil
  | not => exact IsFactor.not hsign h

end Grammar

/-! ## Writing -/

/-- How a reserved word or a sign is written. -/
def Kind.spelling : Kind → String
  | keyword word => word.text
  | punct sign => sign.text
  | _ => ""

namespace Token

/-- A reserved word or a sign. -/
def ofKind (kind : Kind) : Token := ⟨kind, kind.spelling, Location.start⟩

/-- The tokens in pairs of parentheses. -/
def parenthesised (ts : List Token) : Nat → List Token
  | 0 => ts
  | n + 1 =>
    ofKind (.punct .lparen) :: (parenthesised ts n ++ [ofKind (.punct .rparen)])

/-- The arguments of a call, in parentheses if there are any. -/
def arguments : List (List Token) → List Token
  | [] => []
  | ts :: tss => ofKind (.punct .lparen) ::
      (List.intercalate [ofKind (.punct .comma)] (ts :: tss) ++ [ofKind (.punct .rparen)])

end Token

namespace Expr

/-- The level of an expression: that of its outermost operator. -/
def tier : Expr → Tier
  | binary op _ _ _ => op.tier
  | unary op _ _ => op.tier
  | _ => .factor

/-- What is written for an expression, in the parentheses it needs at a place and some more. -/
def around (place : Tier) (e : Expr) (more : Nat) (ts : List Token) : List Token :=
  Token.parenthesised ts ((if e.tier.rank < place.rank then 1 else 0) + more)

mutual

/-- The tokens of an expression without parentheses around the whole. Around the subexpression at a
position stand those it needs and `extra` more of them, where positions are as in `Expr.at?`. -/
def bare (extra : List Nat → Nat) : Expr → List Token
  | literal text _ => [⟨.number, text, Location.start⟩]
  | var name _ => [⟨.identifier, name, Location.start⟩]
  | element name _ index =>
    ⟨.identifier, name, Location.start⟩ :: .ofKind (.punct .lbracket) ::
      (around .expression index (extra [0]) (bare (fun path => extra (0 :: path)) index) ++
        [.ofKind (.punct .rbracket)])
  | call name _ args =>
    ⟨.identifier, name, Location.start⟩ :: Token.arguments (renderAll extra 0 args)
  | binary op left right _ =>
    around op.leftTier left (extra [0]) (bare (fun path => extra (0 :: path)) left) ++
      .ofKind op.kind ::
        around op.tier.next right (extra [1]) (bare (fun path => extra (1 :: path)) right)
  | unary op operand _ =>
    .ofKind op.kind ::
      around op.tier.next operand (extra [0]) (bare (fun path => extra (0 :: path)) operand)

/-- The tokens of each of the arguments from a number on. -/
def renderAll (extra : List Nat → Nat) (i : Nat) : List Expr → List (List Token)
  | [] => []
  | e :: es => around .expression e (extra [i]) (bare (fun path => extra (i :: path)) e) ::
      renderAll extra (i + 1) es

end

/-- The tokens of an expression, with `extra` parentheses more than needed at each position. -/
def render (extra : List Nat → Nat) (e : Expr) : List Token :=
  around .expression e (extra []) (bare extra e)

/-! ## What is written is a phrase -/

/-- Before any tokens, `ts` is a phrase of a level that stands for `e`. -/
def Writes (Γ : Setting) (tier : Tier) (ts : List Token) (e : Expr) : Prop :=
  ∀ rest, tier.Derives Γ (ts ++ rest) e rest

variable {Γ : Setting} {t : SymbolTable}

/-- In parentheses, whatever is written is a factor. -/
theorem Writes.group {ts : List Token} {e : Expr} (h : Writes Γ .expression ts e) :
    Writes Γ .factor (Token.parenthesised ts 1) e := by
  intro rest
  rw [Token.parenthesised, List.cons_append, List.append_assoc]
  exact IsFactor.group (.mk rfl (h _) rfl)

/-- More parentheses around an expression leave it an expression. -/
theorem Writes.parenthesised {ts : List Token} {e : Expr} (h : Writes Γ .expression ts e)
    (n : Nat) : Writes Γ .expression (Token.parenthesised ts n) e := by
  induction n with
  | zero => exact h
  | succ n ih => exact fun rest => (ih.group rest).loosen (Nat.zero_le _)

/-- In the parentheses that an expression needs at a place it is a phrase of the level there. -/
theorem Writes.around {place : Tier} {e : Expr} {ts : List Token} (h : Writes Γ e.tier ts e)
    (more : Nat) : Writes Γ place (e.around place more ts) e := by
  intro rest
  have hloose : Writes Γ .expression ts e := fun rest => (h rest).loosen (Nat.zero_le _)
  unfold Expr.around
  cases hn : (if e.tier.rank < place.rank then 1 else 0) + more with
  | zero =>
    refine (h rest).loosen (Nat.le_of_not_lt fun hlt => ?_)
    rw [if_pos hlt] at hn
    omega
  | succ n =>
    have hfactor := (hloose.parenthesised n).group rest
    refine hfactor.loosen ?_
    cases place <;> decide

/-- Expressions written with commas between them are a list of the grammar. -/
theorem isExpressions_intercalate {ts : List Token} {tss : List (List Token)} {e : Expr}
    {es : List Expr} (he : Writes Γ .expression ts e)
    (hes : List.Forall₂ (Writes Γ .expression) tss es) (rest : List Token) :
    IsExpressions Γ (List.intercalate [.ofKind (.punct .comma)] (ts :: tss) ++ rest) (e :: es)
      rest := by
  induction hes generalizing ts e with
  | nil => simpa [List.intercalate] using IsExpressions.one (he rest)
  | @cons us _ tss _ he' _ ih =>
    have htokens : List.intercalate [Token.ofKind (.punct .comma)] (ts :: us :: tss) ++ rest =
        ts ++ Token.ofKind (.punct .comma) ::
          (List.intercalate [Token.ofKind (.punct .comma)] (us :: tss) ++ rest) := by
      simp [List.intercalate, List.intersperse]
    rw [htokens]
    exact .more (he _) rfl (ih he')

/-- Arguments in parentheses, or nothing, are arguments of the grammar. -/
theorem isArguments_arguments {tss : List (List Token)} {args : List Expr}
    (h : List.Forall₂ (Writes Γ .expression) tss args) (rest : List Token) :
    IsArguments Γ (Token.arguments tss ++ rest) args rest := by
  cases h with
  | nil => exact .none
  | cons he hes =>
    rw [Token.arguments, List.cons_append, List.append_assoc]
    exact .some rfl (isExpressions_intercalate he hes _) rfl

mutual

/-- What is written for a checked expression is a phrase of its level. -/
theorem writes_bare (hΓ : ∀ name, Γ.meaning? name = (t.lookup? name).map Symbol.binding)
    (extra : List Nat → Nat) : ∀ {e : Expr}, e.All (IsChecked t) → Writes Γ e.tier (e.bare extra) e
  | literal text type, h => by
    obtain ⟨-, -, rfl, hnumber⟩ := h
    exact fun rest => IsFactor.number rfl (Parse.isNumber_iff.1 hnumber)
  | var name type, h => by
    obtain ⟨⟨symbol, hlookup, hbinding⟩, -, -⟩ := h
    intro rest
    refine IsFactor.scalar rfl ?_
    rw [hΓ, hlookup, Option.map_some, hbinding]
  | element name type index, h => by
    obtain ⟨⟨⟨symbol, bounds, hlookup, hbinding⟩, -, -⟩, hindex⟩ := h
    have hname : Γ.meaning? name = some (.array type bounds) := by
      rw [hΓ, hlookup, Option.map_some, hbinding]
    have hwrites := writes_bare hΓ (fun path => extra (0 :: path)) hindex
    have hinner : Writes Γ .expression (index.around .expression (extra [0]) _) index :=
      hwrites.around _
    intro rest
    rw [bare, List.cons_append, List.cons_append, List.append_assoc]
    exact IsFactor.element rfl hname (.mk rfl (hinner _) rfl)
  | call name type args, h => by
    obtain ⟨⟨⟨symbol, params, hlookup, hbinding, hcount⟩, -, -⟩, hargs⟩ := h
    have hname : Γ.meaning? name = some (.function type params) := by
      rw [hΓ, hlookup, Option.map_some, hbinding]
    intro rest
    exact IsFactor.call rfl hname
      (isArguments_arguments (writes_renderAll hΓ extra 0 hargs) rest) hcount
  | binary op left right type, h => by
    obtain ⟨⟨-, htype, -⟩, hleft, hright⟩ := h
    obtain rfl : type = op.resultType left.type right.type := htype
    intro rest
    rw [bare, List.append_assoc, List.cons_append]
    have hsign : (Token.ofKind op.kind).kind = op.kind := rfl
    exact derives_ofBinary hsign ((writes_bare hΓ _ hleft).around (extra [0]) _)
      ((writes_bare hΓ _ hright).around (extra [1]) _)
  | unary op operand type, h => by
    obtain ⟨⟨-, htype, -⟩, hoperand⟩ := h
    obtain rfl : type = op.resultType operand.type := htype
    exact fun rest => derives_ofUnary rfl ((writes_bare hΓ _ hoperand).around (extra [0]) _)

theorem writes_renderAll (hΓ : ∀ name, Γ.meaning? name = (t.lookup? name).map Symbol.binding)
    (extra : List Nat → Nat) (i : Nat) : ∀ {es : List Expr}, AllOf (IsChecked t) es →
      List.Forall₂ (Writes Γ .expression) (renderAll extra i es) es
  | [], _ => .nil
  | _ :: _, h =>
    .cons ((writes_bare hΓ _ h.1).around (extra [i])) (writes_renderAll hΓ extra (i + 1) h.2)

end

/-- An expression that is checked is written as a phrase for it, with any number of parentheses more
than needed. -/
theorem writes_render (hΓ : ∀ name, Γ.meaning? name = (t.lookup? name).map Symbol.binding)
    (extra : List Nat → Nat) {e : Expr} (h : e.All (IsChecked t)) :
    Writes Γ .expression (e.render extra) e :=
  (writes_bare hΓ extra h).around (extra [])

/-! ## No phrase is shorter -/

/-- The number of tokens of an expression at a place, without parentheses it does not need. -/
def width (place : Tier) (e : Expr) : Nat := (e.around place 0 (e.bare fun _ => 0)).length

end Expr

namespace Token

theorem length_parenthesised (ts : List Token) (n : Nat) :
    (parenthesised ts n).length = ts.length + 2 * n := by
  induction n with
  | zero => rfl
  | succ n ih =>
    simp only [parenthesised, List.length_cons, List.length_append, List.length_nil, ih]
    omega

theorem length_intercalate_cons_le (separator : Token) (ts : List Token)
    (tss : List (List Token)) : (List.intercalate [separator] (ts :: tss)).length ≤
      ts.length + ((List.intercalate [separator] tss).length + 1) := by
  cases tss with
  | nil => simp [List.intercalate]
  | cons us tss => simp [List.intercalate, List.intersperse]

/-- Parentheses around arguments take two tokens at most. -/
theorem length_arguments_le (tss : List (List Token)) : (arguments tss).length ≤
    (List.intercalate [ofKind (.punct .comma)] tss).length + 2 := by
  cases tss with
  | nil => exact Nat.zero_le _
  | cons ts tss => simp [arguments]

end Token

namespace Expr

/-- Written as short as can be, an expression takes its own tokens, and two for parentheses if it
binds looser than its place asks for. -/
theorem width_eq (place : Tier) (e : Expr) : e.width place =
    (e.bare fun _ => 0).length + if e.tier.rank < place.rank then 2 else 0 := by
  rw [width, around, Token.length_parenthesised]
  split <;> rfl

/-- A tighter place takes as many tokens or more. -/
theorem width_mono {place place' : Tier} (h : place.rank ≤ place'.rank) (e : Expr) :
    e.width place ≤ e.width place' := by
  rw [width_eq, width_eq]
  split <;> split <;> omega

/-- Parentheses are all that the tightest place asks for. -/
theorem width_factor_le (e : Expr) : e.width .factor ≤ e.width .expression + 2 := by
  rw [width_eq, width_eq]
  split <;> split <;> omega

theorem width_loosen {place place' : Tier} {e : Expr} {m n : Nat}
    (h : place.rank ≤ place'.rank) (hle : e.width place' + m ≤ n) : e.width place + m ≤ n :=
  Nat.le_trans (Nat.add_le_add_right (e.width_mono h) m) hle

theorem width_of_factor {e : Expr} (h : e.tier = .factor) :
    e.width .factor = (e.bare fun _ => 0).length := by
  rw [width_eq, h, if_neg (Nat.lt_irrefl _), Nat.add_zero]

theorem width_element (name : String) (type : ValueType) (index : Expr) :
    (element name type index).width .factor = index.width .expression + 3 := by
  rw [width_of_factor rfl, bare, List.length_cons, List.length_cons, List.length_append]
  rfl

theorem width_call (name : String) (type : ValueType) (args : List Expr) :
    (call name type args).width .factor =
      (Token.arguments (renderAll (fun _ => 0) 0 args)).length + 1 := by
  rw [width_of_factor rfl, bare, List.length_cons]

/-- An operation takes its operands at their places, and one token for the sign. -/
theorem width_ofBinary (op : BinaryOp) (left right : Expr) :
    (ofBinary op left right).width op.tier =
      left.width op.leftTier + (right.width op.tier.next + 1) := by
  rw [width_eq, ofBinary, tier, if_neg (Nat.lt_irrefl _), bare, List.length_append,
    List.length_cons]
  rfl

theorem width_ofUnary (op : UnaryOp) (operand : Expr) :
    (ofUnary op operand).width op.tier = operand.width op.tier.next + 1 := by
  rw [width_eq, ofUnary, tier, if_neg (Nat.lt_irrefl _), bare, List.length_cons]
  rfl

theorem width_neg (operand : Expr) :
    (ofUnary .neg operand).width .sum = operand.width .product + 1 :=
  width_ofUnary .neg operand

theorem width_not (operand : Expr) :
    (ofUnary .not operand).width .factor = operand.width .factor + 1 :=
  width_ofUnary .not operand

end Expr

namespace Grammar

variable {Γ : Setting}

/-- The signs of comparisons stand for operators of the loosest level. -/
theorem tier_of_relation {kind : Kind} {op : BinaryOp} (h : (kind, op) ∈ relations) :
    op.tier = .expression := by
  simp only [relations, List.mem_cons, Prod.mk.injEq, List.not_mem_nil, or_false] at h
  rcases h with ⟨-, rfl⟩ | ⟨-, rfl⟩ | ⟨-, rfl⟩ | ⟨-, rfl⟩ | ⟨-, rfl⟩ | ⟨-, rfl⟩ <;> rfl

theorem tier_of_addition {kind : Kind} {op : BinaryOp} (h : (kind, op) ∈ additions) :
    op.tier = .sum := by
  simp only [additions, List.mem_cons, Prod.mk.injEq, List.not_mem_nil, or_false] at h
  rcases h with ⟨-, rfl⟩ | ⟨-, rfl⟩ | ⟨-, rfl⟩ <;> rfl

theorem tier_of_multiplication {kind : Kind} {op : BinaryOp} (h : (kind, op) ∈ multiplications) :
    op.tier = .product := by
  simp only [multiplications, List.mem_cons, Prod.mk.injEq, List.not_mem_nil, or_false] at h
  rcases h with ⟨-, rfl⟩ | ⟨-, rfl⟩ | ⟨-, rfl⟩ | ⟨-, rfl⟩ | ⟨-, rfl⟩ <;> rfl

/-- Neither operand of a comparison is one itself without parentheses. -/
theorem width_comparison {kind : Kind} {op : BinaryOp} (h : (kind, op) ∈ relations)
    (left right : Expr) : (Expr.ofBinary op left right).width .expression =
      left.width .sum + (right.width .sum + 1) := by
  have hwidth := Expr.width_ofBinary op left right
  rwa [BinaryOp.leftTier, tier_of_relation h] at hwidth

/-- A sum takes a sum on its left, and a product on its right. -/
theorem width_addition {kind : Kind} {op : BinaryOp} (h : (kind, op) ∈ additions)
    (left right : Expr) : (Expr.ofBinary op left right).width .sum =
      left.width .sum + (right.width .product + 1) := by
  have hwidth := Expr.width_ofBinary op left right
  rwa [BinaryOp.leftTier, tier_of_addition h] at hwidth

/-- A product takes a product on its left, and a factor on its right. -/
theorem width_multiplication {kind : Kind} {op : BinaryOp} (h : (kind, op) ∈ multiplications)
    (left right : Expr) : (Expr.ofBinary op left right).width .product =
      left.width .product + (right.width .factor + 1) := by
  have hwidth := Expr.width_ofBinary op left right
  rwa [BinaryOp.leftTier, tier_of_multiplication h] at hwidth

mutual

/-- A phrase for an expression has at least the tokens that the expression needs at its level. -/
theorem IsExpression.width_le : ∀ {ts rest : List Token} {e : Expr}, IsExpression Γ ts e rest →
    e.width .expression + rest.length ≤ ts.length
  | _, _, _, .sum h => Expr.width_loosen (by decide) h.width_le
  | _, _, _, .comparison hleft hop hright => by
    have hl := hleft.width_le
    have hr := hright.width_le
    rw [List.length_cons] at hl
    rw [width_comparison hop]
    omega

/-- No sum of the grammar is shorter than what is written for its tree. -/
theorem IsSum.width_le : ∀ {ts rest : List Token} {e : Expr}, IsSum Γ ts e rest →
    e.width .sum + rest.length ≤ ts.length
  | _, _, _, .plain hfirst hmore => by
    have hm := hmore.width_le
    have hloose := Expr.width_loosen (show Tier.sum.rank ≤ Tier.product.rank by decide)
      hfirst.width_le
    omega
  | _, _, _, .plus _ hfirst hmore => by
    have hm := hmore.width_le
    have hloose := Expr.width_loosen (show Tier.sum.rank ≤ Tier.product.rank by decide)
      hfirst.width_le
    rw [List.length_cons]
    omega
  | _, _, _, .minus _ hfirst hmore => by
    have hf := hfirst.width_le
    have hm := hmore.width_le
    rw [Expr.width_neg] at hm
    rw [List.length_cons]
    omega

/-- Nor is the rest of a sum shorter than what the tree gains by it. -/
theorem IsSumTail.width_le : ∀ {left e : Expr} {ts rest : List Token},
    IsSumTail Γ left ts e rest → e.width .sum + rest.length ≤ left.width .sum + ts.length
  | _, _, _, _, .nil => Nat.le_refl _
  | _, _, _, _, .cons hop hright hmore => by
    have hr := hright.width_le
    have hm := hmore.width_le
    rw [width_addition hop] at hm
    rw [List.length_cons]
    omega

theorem IsProduct.width_le : ∀ {ts rest : List Token} {e : Expr}, IsProduct Γ ts e rest →
    e.width .product + rest.length ≤ ts.length
  | _, _, _, .mk hfirst hmore => by
    have hm := hmore.width_le
    have hloose := Expr.width_loosen (show Tier.product.rank ≤ Tier.factor.rank by decide)
      hfirst.width_le
    omega

theorem IsProductTail.width_le : ∀ {left e : Expr} {ts rest : List Token},
    IsProductTail Γ left ts e rest →
      e.width .product + rest.length ≤ left.width .product + ts.length
  | _, _, _, _, .nil => Nat.le_refl _
  | _, _, _, _, .cons hop hright hmore => by
    have hr := hright.width_le
    have hm := hmore.width_le
    rw [width_multiplication hop] at hm
    rw [List.length_cons]
    omega

/-- No factor of the grammar is shorter than what is written for its tree at that place. -/
theorem IsFactor.width_le : ∀ {ts rest : List Token} {e : Expr}, IsFactor Γ ts e rest →
    e.width .factor + rest.length ≤ ts.length
  | _, _, _, .number .. => Nat.le_of_eq (Nat.add_comm _ _)
  | _, _, _, .scalar .. => Nat.le_of_eq (Nat.add_comm _ _)
  | _, _, _, .element _ _ hindex => by
    have hi := hindex.width_le
    rw [Expr.width_element, List.length_cons]
    omega
  | _, _, _, .call _ _ hargs _ => by
    have ha := hargs.width_le 0
    rw [Expr.width_call, List.length_cons]
    omega
  | _, _, e, .group h => by
    have hg := h.width_le
    have hfactor := e.width_factor_le
    omega
  | _, _, _, .not _ h => by
    have hf := h.width_le
    rw [Expr.width_not, List.length_cons]
    omega

theorem IsIndex.width_le : ∀ {ts rest : List Token} {e : Expr}, IsIndex Γ ts e rest →
    e.width .expression + 2 + rest.length ≤ ts.length
  | _, _, _, .mk _ h _ => by
    have he := h.width_le
    rw [List.length_cons] at he ⊢
    omega

theorem IsGroup.width_le : ∀ {ts rest : List Token} {e : Expr}, IsGroup Γ ts e rest →
    e.width .expression + 2 + rest.length ≤ ts.length
  | _, _, _, .mk _ h _ => by
    have he := h.width_le
    rw [List.length_cons] at he ⊢
    omega

theorem IsArguments.width_le : ∀ {ts rest : List Token} {args : List Expr},
    IsArguments Γ ts args rest → ∀ i : Nat,
      (Token.arguments (Expr.renderAll (fun _ => 0) i args)).length + rest.length ≤ ts.length
  | _, _, _, .none, _ => Nat.le_of_eq (Nat.zero_add _)
  | _, _, _, .some _ h _, i => by
    have hlist := h.width_le i
    refine Nat.le_trans (Nat.add_le_add_right (Token.length_arguments_le _) _) ?_
    rw [List.length_cons] at hlist ⊢
    omega

/-- No list of expressions with commas is shorter than what is written for them. -/
theorem IsExpressions.width_le : ∀ {ts rest : List Token} {es : List Expr},
    IsExpressions Γ ts es rest → ∀ i : Nat,
      (List.intercalate [Token.ofKind (.punct .comma)]
        (Expr.renderAll (fun _ => 0) i es)).length + rest.length ≤ ts.length
  | _, _, _, .one h, i => by
    have he := h.width_le
    simpa [Expr.renderAll, List.intercalate, Expr.width] using he
  | _, _, _, .more h _ hmore, i => by
    have he := h.width_le
    have hes := hmore.width_le (i + 1)
    rw [Expr.renderAll]
    refine Nat.le_trans (Nat.add_le_add_right (Token.length_intercalate_cons_le _ _ _) _) ?_
    rw [List.length_cons] at he
    change Expr.width .expression _ + _ + _ ≤ _
    omega

end

end Grammar

/-! ## Reading back -/

theorem Parser.Move.ends {p q : Parser} (h : p.Move q) :
    q.tokens = { p.tokens with pending := q.tokens.pending } := by
  cases h <;> rfl

/-- Parsers that only move leave the end of the tokens as it was. -/
theorem Parser.Moves.ends {p q : Parser} (h : p.Moves q) :
    q.tokens = { p.tokens with pending := q.tokens.pending } := by
  induction h with
  | refl => rfl
  | tail _ hmove ih => rw [hmove.ends, ih]

namespace Parse

/-- The positions of tokens do not matter here. -/
theorem near_append {ts us : List Token} (h : List.Forall₂ Token.Alike ts us) (rest : List Token) :
    List.Forall₂ (Token.Near fun _ _ => True) (ts ++ rest) (us ++ rest) := by
  induction h with
  | nil => exact List.forall₂_same.2 fun token _ => ⟨⟨rfl, fun _ => rfl⟩, trivial⟩
  | cons halike _ ih => exact .cons ⟨halike, trivial⟩ ih

/-- A token that is no parenthesis and no operator carries nothing on. -/
theorem grip_eq_zero {kind : Kind} (hparen : kind ≠ .punct .lparen)
    (hop : ∀ op, (kind, op) ∉ relations ++ additions ++ multiplications) : grip kind = 0 := by
  have hrelation : relation? kind = none := Option.eq_none_iff_forall_ne_some.2 fun op h =>
    hop op (by simp [relation?_eq_some.1 h])
  have hadditive : additive? kind = none := Option.eq_none_iff_forall_ne_some.2 fun op h =>
    hop op (by simp [additive?_eq_some.1 h])
  have hmultiplicative : multiplicative? kind = none := Option.eq_none_iff_forall_ne_some.2
    fun op h => hop op (by simp [multiplicative?_eq_some.1 h])
  simp [grip, hparen, hrelation, hadditive, hmultiplicative]

/-- What the expression parser does with some tokens it does with tokens that are alike. -/
theorem expression_of_alike {t : SymbolTable} {e : Expr} {ts us rest : List Token}
    {enclosing : List String} {endLexeme : String} {endLocation : Location} {q : Parser}
    (hts : List.Forall₂ Token.Alike ts us)
    (h : expression ⟨⟨us ++ rest, endLexeme, endLocation⟩, t, enclosing⟩ = .ok e q)
    (hq : q.tokens.pending = rest) :
    expression ⟨⟨ts ++ rest, endLexeme, endLocation⟩, t, enclosing⟩ =
      .ok e ⟨⟨rest, endLexeme, endLocation⟩, t, enclosing⟩ := by
  have hsteady := steady_expression _ _ (⟨⟨near_append hts rest, trivial⟩, rfl, rfl⟩ :
    Parser.Near (fun _ _ => True) ⟨⟨ts ++ rest, endLexeme, endLocation⟩, t, enclosing⟩
      ⟨⟨us ++ rest, endLexeme, endLocation⟩, t, enclosing⟩)
  have htravels := travels_expression ⟨⟨ts ++ rest, endLexeme, endLocation⟩, t, enclosing⟩
  rw [h] at hsteady
  cases hr : expression ⟨⟨ts ++ rest, endLexeme, endLocation⟩, t, enclosing⟩ with
  | error | exhausted =>
    rw [hr] at hsteady
    cases hsteady
  | ok e' r =>
    rw [hr] at hsteady htravels
    obtain ⟨rfl, hnear⟩ := hsteady
    have hmoves : Parser.Moves ⟨⟨ts ++ rest, endLexeme, endLocation⟩, t, enclosing⟩ r := htravels
    obtain ⟨hsymbols, henclosing, -⟩ := gives_expression _ _ _ rfl rfl hr
    -- two ends of the same tokens are the same if they are equally long
    have hpending : r.tokens.pending = rest := by
      have hlength : r.tokens.pending.length = rest.length := hnear.tokens.size.trans (hq ▸ rfl)
      exact (List.suffix_of_suffix_length_le hmoves.suffix (List.suffix_append ts rest)
        (Nat.le_of_eq hlength)).eq_of_length hlength
    have htokens := hmoves.ends
    rw [hpending] at htokens
    obtain ⟨tokens, symbols, enclosing'⟩ := r
    cases htokens
    cases hsymbols
    cases henclosing
    rfl

/-- The tokens written for a checked expression, in any layout and with any number of parentheses
more than needed, are read back as the expression, if what follows them is no operator and no
opening parenthesis. Nothing behind them is read. Without such parentheses they are the fewest that
are read as the expression. -/
theorem expression_render {t : SymbolTable} {e : Expr} (he : e.All (Expr.IsChecked t))
    {rest : List Token} (hparen : nextKind rest ≠ .punct .lparen)
    (hop : ∀ op, (nextKind rest, op) ∉ relations ++ additions ++ multiplications)
    (enclosing : List String) (endLexeme : String) (endLocation : Location) :
    (∀ extra ts, List.Forall₂ Token.Alike ts (e.render extra) →
      expression ⟨⟨ts ++ rest, endLexeme, endLocation⟩, t, enclosing⟩ =
        .ok e ⟨⟨rest, endLexeme, endLocation⟩, t, enclosing⟩) ∧
    ∀ ts, expression ⟨⟨ts ++ rest, endLexeme, endLocation⟩, t, enclosing⟩ =
        .ok e ⟨⟨rest, endLexeme, endLocation⟩, t, enclosing⟩ →
      (e.render fun _ => 0).length ≤ ts.length := by
  constructor
  · intro extra ts hts
    have hphrase := Expr.writes_render (Parser.meaning?_setting
      ⟨⟨e.render extra ++ rest, endLexeme, endLocation⟩, t, enclosing⟩) extra he rest
    obtain ⟨q, hread, -, hq⟩ :=
      IsExpression.accepts hphrase (grip_eq_zero hparen hop) _ rfl rfl
    exact expression_of_alike hts hread hq
  · intro ts hread
    have hwidth := (yields_expression _ _ _ hread).2.width_le
    rw [List.length_append] at hwidth
    exact Nat.le_of_add_le_add_right hwidth

/-- A comparison of a sum that starts with a sign and has an array element in it, whose index is a
call, with a truth value. -/
def signedComparison : Expr :=
  .ofBinary (.rel .le)
    (.ofBinary .add (.ofUnary .neg (.ofBinary .mul (.var "x" .real) (.ofLiteral "2")))
      (.element "a" .integer (.call "f" .integer [.ofLiteral "1", .var "x" .real])))
    (.ofUnary .not (.ofBinary (.rel .eq) (.var "x" .real) (.ofLiteral "3.5")))

/-- The names in `signedComparison`. -/
def signedTable : SymbolTable where
  inner := [[⟨2, "x", .scalar .real, none⟩]]
  global := [⟨0, "a", .array .integer ⟨1, 9⟩, none⟩,
    ⟨1, "f", .function .integer [.integer, .real], none⟩]
  nextId := 3

/-- The sample is checked against its table. -/
theorem signedComparison_checked : signedComparison.All (Expr.IsChecked signedTable) := by
  have hx : (Expr.var "x" .real).All (Expr.IsChecked signedTable) :=
    ⟨⟨_, rfl, rfl⟩, trivial, trivial⟩
  have hliteral {text : String} (h : isNumber text = true) :
      (Expr.ofLiteral text).All (Expr.IsChecked signedTable) := ⟨trivial, trivial, rfl, h⟩
  have hcall : (Expr.call "f" .integer [.ofLiteral "1", .var "x" .real]).All
      (Expr.IsChecked signedTable) :=
    ⟨⟨⟨_, _, rfl, rfl, rfl⟩, trivial, trivial⟩, hliteral (by decide +kernel), hx, trivial⟩
  refine checked_ofBinary (checked_ofBinary (checked_ofUnary (checked_ofBinary hx ?_)) ?_)
    (checked_ofUnary (checked_ofBinary hx ?_))
  · exact hliteral (by decide +kernel)
  · exact ⟨⟨⟨_, _, rfl, rfl⟩, trivial, trivial⟩, hcall⟩
  · exact hliteral (by decide +kernel)

/-- The sample is written with the parentheses it needs and no others, and read back with two more.
-/
theorem signedComparison_read :
    (signedComparison.render fun _ => 0).map Token.lexeme = ["-", "x", "*", "2", "+", "a", "[", "f",
      "(", "1", ",", "x", ")", "]", "<=", "not", "(", "x", "=", "3.5", ")"] ∧
    -- the second argument of the call in two pairs of parentheses
    expression ⟨⟨(signedComparison.render fun path => if path = [0, 1, 0, 1] then 2 else 0) ++
        [.ofKind (.keyword .then_)], "", .start⟩, signedTable, []⟩ =
      .ok signedComparison ⟨⟨[.ofKind (.keyword .then_)], "", .start⟩, signedTable, []⟩ := by
  have hthen : ∀ op, (nextKind [.ofKind (.keyword .then_)], op) ∉
      relations ++ additions ++ multiplications := by
    simp [nextKind, Token.ofKind, relations, additions, multiplications]
  have hread := (expression_render signedComparison_checked (by decide) hthen [] "" .start).1
    fun path => if path = [0, 1, 0, 1] then 2 else 0
  exact ⟨by decide +kernel, hread _ (List.forall₂_same.2 fun _ _ => ⟨rfl, fun _ => rfl⟩)⟩

end Parse

end PascalMips
