import PascalMips.Expr.Parser

/-!
# Well-formed expressions

`e.All P`: `P` holds of the expression `e` and of every expression in it. The properties of trees
that other parts of the compiler rely on are properties of single nodes, taken at all of them.
-/

namespace PascalMips.Expr

mutual

/-- `P` holds of an expression and of every expression in it. -/
def All (P : Expr → Prop) : Expr → Prop
  | literal text type => P (literal text type)
  | var name type => P (var name type)
  | element name type index => P (element name type index) ∧ index.All P
  | call name type args => P (call name type args) ∧ AllOf P args
  | binary op left right type => P (binary op left right type) ∧ left.All P ∧ right.All P
  | unary op operand type => P (unary op operand type) ∧ operand.All P

/-- `P` holds of expressions and of every expression in them. -/
def AllOf (P : Expr → Prop) : List Expr → Prop
  | [] => True
  | e :: es => e.All P ∧ AllOf P es

end

theorem All.self {P : Expr → Prop} : ∀ {e : Expr}, e.All P → P e
  | literal .., h => h
  | var .., h => h
  | element .., h => h.1
  | call .., h => h.1
  | binary .., h => h.1
  | unary .., h => h.1

mutual

theorem All.imp {P Q : Expr → Prop} (hPQ : ∀ e, P e → Q e) : ∀ {e : Expr}, e.All P → e.All Q
  | literal .., h => hPQ _ h
  | var .., h => hPQ _ h
  | element .., h => ⟨hPQ _ h.1, h.2.imp hPQ⟩
  | call .., h => ⟨hPQ _ h.1, AllOf.imp hPQ h.2⟩
  | binary .., h => ⟨hPQ _ h.1, h.2.1.imp hPQ, h.2.2.imp hPQ⟩
  | unary .., h => ⟨hPQ _ h.1, h.2.imp hPQ⟩

theorem AllOf.imp {P Q : Expr → Prop} (hPQ : ∀ e, P e → Q e) :
    ∀ {es : List Expr}, AllOf P es → AllOf Q es
  | [], _ => trivial
  | _ :: _, h => ⟨h.1.imp hPQ, AllOf.imp hPQ h.2⟩

end

mutual

/-- Whether `P` holds of an expression and all in it can be computed. -/
instance decidableAll (P : Expr → Prop) [DecidablePred P] : (e : Expr) → Decidable (e.All P)
  | literal text type => inferInstanceAs (Decidable (P (literal text type)))
  | var name type => inferInstanceAs (Decidable (P (var name type)))
  | element name type index =>
    have := decidableAll P index
    inferInstanceAs (Decidable (P (element name type index) ∧ index.All P))
  | call name type args =>
    have := decidableAllOf P args
    inferInstanceAs (Decidable (P (call name type args) ∧ AllOf P args))
  | binary op left right type =>
    have := decidableAll P left
    have := decidableAll P right
    inferInstanceAs (Decidable (P (binary op left right type) ∧ left.All P ∧ right.All P))
  | unary op operand type =>
    have := decidableAll P operand
    inferInstanceAs (Decidable (P (unary op operand type) ∧ operand.All P))

instance decidableAllOf (P : Expr → Prop) [DecidablePred P] :
    (es : List Expr) → Decidable (AllOf P es)
  | [] => .isTrue trivial
  | e :: es =>
    have := decidableAll P e
    have := decidableAllOf P es
    inferInstanceAs (Decidable (e.All P ∧ AllOf P es))

end

/-! ## Properties of nodes -/

/-- An operation has the type that follows from its operands. -/
def HasDerivedType : Expr → Prop
  | binary op left right type => type = op.resultType left.type right.type
  | unary op operand type => type = op.resultType operand.type
  | _ => True

/-- A literal is a number that a program can write, of the type that its text tells. -/
def IsReadable : Expr → Prop
  | literal text type => type = ValueType.ofLiteral text ∧ Parse.isNumber text = true
  | _ => True

instance : DecidablePred HasDerivedType
  | binary op left right type =>
    inferInstanceAs (Decidable (type = op.resultType left.type right.type))
  | unary op operand type => inferInstanceAs (Decidable (type = op.resultType operand.type))
  | literal .. => .isTrue trivial
  | var .. => .isTrue trivial
  | element .. => .isTrue trivial
  | call .. => .isTrue trivial

instance : DecidablePred IsReadable
  | literal text type =>
    inferInstanceAs (Decidable (type = ValueType.ofLiteral text ∧ Parse.isNumber text = true))
  | var .. => .isTrue trivial
  | element .. => .isTrue trivial
  | call .. => .isTrue trivial
  | binary .. => .isTrue trivial
  | unary .. => .isTrue trivial

/-- A name is visible as what it is used for: a variable or an array of the type of the node, or a
function with that type of result and as many parameters as there are arguments. -/
def IsVisible (t : SymbolTable) : Expr → Prop
  | var name type => ∃ symbol, t.lookup? name = some symbol ∧ symbol.binding = .scalar type
  | element name type _ =>
    ∃ symbol bounds, t.lookup? name = some symbol ∧ symbol.binding = .array type bounds
  | call name type args =>
    ∃ symbol params, t.lookup? name = some symbol ∧ symbol.binding = .function type params ∧
      args.length = params.length
  | _ => True

def IsCall : Expr → Prop
  | call .. => True
  | _ => False

/-- The names of an expression are visible as what they are used for, and its operations have the
types that follow from their operands. -/
def WellTyped (t : SymbolTable) (e : Expr) : Prop := e.All fun d => d.IsVisible t ∧ d.HasDerivedType

/-- An expression of integers only, without calls. -/
def Integral (e : Expr) : Prop := e.All fun d => d.type = .integer ∧ ¬d.IsCall

end PascalMips.Expr
