import PascalMips.Literal
import PascalMips.Program.Basic
import PascalMips.Symbol.Basic
import PascalMips.Token.Basic

/-!
# The grammar

Which tokens are a program, told by rules and not by a parser:

```text
program     ::= "program" name ";" sections subprograms compound "."
sections    ::= { "var" group { group } }
group       ::= names ":" type ";"
names       ::= name { "," name }
type        ::= standard | "array" "[" bound ":" bound "]" "of" standard
bound       ::= [ "-" ] number
standard    ::= "integer" | "real"
subprograms ::= { subprogram ";" }
subprogram  ::= head sections subprograms compound
head        ::= "function" name parameters ":" standard ";" | "procedure" name parameters ";"
parameters  ::= [ "(" names ":" standard { ";" names ":" standard } ")" ]
compound    ::= "begin" [ statement { ";" statement } [ ";" ] ] "end"
statement   ::= target ":=" expression | procedure arguments | compound
              | "if" expression "then" statement "else" statement
              | "while" expression "do" statement
              | "read" "(" target ")" | "write" "(" expression ")"
target      ::= variable | array index | function
expression  ::= sum [ relation sum ]
sum         ::= [ "+" | "-" ] product { ( "+" | "-" | "or" ) product }
product     ::= factor { ( "*" | "/" | "div" | "mod" | "and" ) factor }
factor      ::= number | variable | array index | function arguments
              | "(" expression ")" | "not" factor
index       ::= "[" expression "]"
arguments   ::= [ "(" expression { "," expression } ")" ]
```

A phrase is a relation `IsX Γ ts x rest`: where `Γ` is what is declared, the tokens `ts` are a
phrase that stands for the tree `x`, followed by the tokens `rest`. No rule looks at what follows
its phrase. Phrases that declare names also relate the setting before them to the setting after
them.

The rules on names and numbers are side conditions. A name stands for its innermost declaration so
far, no name is declared twice in a scope, as many arguments are given as there are parameters,
bounds are integers of 32 bits in order, literals are such integers or finite singles, and the name
of a function is a target only in the body of a subprogram of that name.
-/

namespace PascalMips.Grammar

/-! ## What is declared -/

/-- What is known where a phrase stands: what the names of the open scopes are declared as, the
innermost scope first, and the subprograms whose bodies are open. -/
structure Setting where
  scopes : List (List (String × Binding))
  enclosing : List String

namespace Setting

/-- At the start of a text nothing is declared. -/
def start : Setting := ⟨[[]], []⟩

/-- What a name stands for: its first declaration from the innermost scope outwards. -/
def meaning? (Γ : Setting) (name : String) : Option Binding :=
  Γ.scopes.findSome? fun scope => scope.lookup name

/-- The setting after a declaration in the innermost scope, unless that has the name already. -/
def declare? (Γ : Setting) (name : String) (binding : Binding) : Option Setting :=
  match Γ.scopes with
  | [] => none
  | scope :: outer =>
    if name ∈ scope.map Prod.fst then none
    else some { Γ with scopes := (scope ++ [(name, binding)]) :: outer }

/-- The setting after declarations in the innermost scope. -/
def declareAll? (Γ : Setting) : List (String × Binding) → Option Setting
  | [] => some Γ
  | (name, binding) :: rest => do (← Γ.declare? name binding).declareAll? rest

/-- The setting at the start of the block of a subprogram. -/
def enter (Γ : Setting) (name : String) : Setting := ⟨[] :: Γ.scopes, name :: Γ.enclosing⟩

end Setting

/-! ## Numbers and operators -/

/-- A literal with a point is a finite single, one without a point a 32-bit integer. -/
def IsLiteral (text : String) : Prop :=
  if '.' ∈ text.toList then ∃ x, Literal.real? text = some x ∧ x.isFinite = true
  else ∃ i, Literal.integer? text = some i

/-- The comparisons and their tokens. -/
def relations : List (Kind × BinaryOp) :=
  [(.punct .equal, .rel .eq), (.punct .notEqual, .rel .ne), (.punct .less, .rel .lt),
    (.punct .lessEqual, .rel .le), (.punct .greater, .rel .gt), (.punct .greaterEqual, .rel .ge)]

/-- The operators between products and their tokens. -/
def additions : List (Kind × BinaryOp) :=
  [(.punct .plus, .add), (.punct .minus, .sub), (.keyword .or, .or)]

/-- The operators between factors and their tokens. -/
def multiplications : List (Kind × BinaryOp) :=
  [(.punct .star, .mul), (.punct .slash, .divide), (.keyword .div, .div), (.keyword .mod, .mod),
    (.keyword .and, .and)]

/-! ## Expressions -/

section Expressions

variable (Γ : Setting)

mutual

/-- One sum, or two that are compared. -/
inductive IsExpression : List Token → Expr → List Token → Prop
  | sum {ts rest : List Token} {e : Expr} (h : IsSum ts e rest) : IsExpression ts e rest
  | comparison {ts us rest : List Token} {sign : Token} {op : BinaryOp} {left right : Expr}
      (hleft : IsSum ts left (sign :: us)) (hop : (sign.kind, op) ∈ relations)
      (hright : IsSum us right rest) : IsExpression ts (.ofBinary op left right) rest

/-- Products after an optional sign, with operators between them. -/
inductive IsSum : List Token → Expr → List Token → Prop
  | plain {ts us rest : List Token} {first e : Expr} (hfirst : IsProduct ts first us)
      (hmore : IsSumTail first us e rest) : IsSum ts e rest
  | plus {ts us rest : List Token} {sign : Token} {first e : Expr}
      (hsign : sign.kind = .punct .plus) (hfirst : IsProduct ts first us)
      (hmore : IsSumTail first us e rest) : IsSum (sign :: ts) e rest
  | minus {ts us rest : List Token} {sign : Token} {first e : Expr}
      (hsign : sign.kind = .punct .minus) (hfirst : IsProduct ts first us)
      (hmore : IsSumTail (.ofUnary .neg first) us e rest) : IsSum (sign :: ts) e rest

/-- The operators and products after the sum so far, which is their left operand. -/
inductive IsSumTail : Expr → List Token → Expr → List Token → Prop
  | nil {ts : List Token} {left : Expr} : IsSumTail left ts left ts
  | cons {ts us rest : List Token} {sign : Token} {op : BinaryOp} {left right e : Expr}
      (hop : (sign.kind, op) ∈ additions) (hright : IsProduct ts right us)
      (hmore : IsSumTail (.ofBinary op left right) us e rest) : IsSumTail left (sign :: ts) e rest

/-- Factors with operators between them. -/
inductive IsProduct : List Token → Expr → List Token → Prop
  | mk {ts us rest : List Token} {first e : Expr} (hfirst : IsFactor ts first us)
      (hmore : IsProductTail first us e rest) : IsProduct ts e rest

/-- The operators and factors after the product so far, which is their left operand. -/
inductive IsProductTail : Expr → List Token → Expr → List Token → Prop
  | nil {ts : List Token} {left : Expr} : IsProductTail left ts left ts
  | cons {ts us rest : List Token} {sign : Token} {op : BinaryOp} {left right e : Expr}
      (hop : (sign.kind, op) ∈ multiplications) (hright : IsFactor ts right us)
      (hmore : IsProductTail (.ofBinary op left right) us e rest) :
      IsProductTail left (sign :: ts) e rest

/-- A number, a name with what its declaration asks for, or a phrase around an expression. -/
inductive IsFactor : List Token → Expr → List Token → Prop
  | number {rest : List Token} {number : Token} (hkind : number.kind = .number)
      (hliteral : IsLiteral number.lexeme) :
      IsFactor (number :: rest) (.ofLiteral number.lexeme) rest
  | scalar {rest : List Token} {name : Token} {type : ValueType}
      (hkind : name.kind = .identifier) (hname : Γ.meaning? name.lexeme = some (.scalar type)) :
      IsFactor (name :: rest) (.var name.lexeme type) rest
  | element {ts rest : List Token} {name : Token} {type : ValueType} {bounds : Bounds} {e : Expr}
      (hkind : name.kind = .identifier)
      (hname : Γ.meaning? name.lexeme = some (.array type bounds)) (hindex : IsIndex ts e rest) :
      IsFactor (name :: ts) (.element name.lexeme type e) rest
  | call {ts rest : List Token} {name : Token} {returns : ValueType} {params : List ValueType}
      {args : List Expr} (hkind : name.kind = .identifier)
      (hname : Γ.meaning? name.lexeme = some (.function returns params))
      (hargs : IsArguments ts args rest) (hcount : args.length = params.length) :
      IsFactor (name :: ts) (.call name.lexeme returns args) rest
  | group {ts rest : List Token} {e : Expr} (h : IsGroup ts e rest) : IsFactor ts e rest
  | not {ts rest : List Token} {word : Token} {e : Expr} (hword : word.kind = .keyword .not)
      (h : IsFactor ts e rest) : IsFactor (word :: ts) (.ofUnary .not e) rest

/-- An expression in brackets. -/
inductive IsIndex : List Token → Expr → List Token → Prop
  | mk {ts rest : List Token} {opening closing : Token} {e : Expr}
      (hopening : opening.kind = .punct .lbracket) (h : IsExpression ts e (closing :: rest))
      (hclosing : closing.kind = .punct .rbracket) : IsIndex (opening :: ts) e rest

/-- An expression in parentheses. -/
inductive IsGroup : List Token → Expr → List Token → Prop
  | mk {ts rest : List Token} {opening closing : Token} {e : Expr}
      (hopening : opening.kind = .punct .lparen) (h : IsExpression ts e (closing :: rest))
      (hclosing : closing.kind = .punct .rparen) : IsGroup (opening :: ts) e rest

/-- Expressions in parentheses, or nothing. -/
inductive IsArguments : List Token → List Expr → List Token → Prop
  | none {ts : List Token} : IsArguments ts [] ts
  | some {ts rest : List Token} {opening closing : Token} {args : List Expr}
      (hopening : opening.kind = .punct .lparen) (h : IsExpressions ts args (closing :: rest))
      (hclosing : closing.kind = .punct .rparen) : IsArguments (opening :: ts) args rest

/-- Expressions with commas between them. -/
inductive IsExpressions : List Token → List Expr → List Token → Prop
  | one {ts rest : List Token} {e : Expr} (h : IsExpression ts e rest) : IsExpressions ts [e] rest
  | more {ts us rest : List Token} {comma : Token} {e : Expr} {es : List Expr}
      (h : IsExpression ts e (comma :: us)) (hcomma : comma.kind = .punct .comma)
      (hmore : IsExpressions us es rest) : IsExpressions ts (e :: es) rest

end

end Expressions

/-! ## Statements -/

section Statements

variable (Γ : Setting)

/-- A place to store a value in. -/
inductive IsTarget : List Token → Target → List Token → Prop
  | scalar {rest : List Token} {name : Token} {type : ValueType}
      (hkind : name.kind = .identifier) (hname : Γ.meaning? name.lexeme = some (.scalar type)) :
      IsTarget (name :: rest) (.var name.lexeme type) rest
  | element {ts rest : List Token} {name : Token} {type : ValueType} {bounds : Bounds} {e : Expr}
      (hkind : name.kind = .identifier)
      (hname : Γ.meaning? name.lexeme = some (.array type bounds)) (hindex : IsIndex Γ ts e rest) :
      IsTarget (name :: ts) (.element name.lexeme type e) rest
  | result {rest : List Token} {name : Token} {returns : ValueType} {params : List ValueType}
      (hkind : name.kind = .identifier)
      (hname : Γ.meaning? name.lexeme = some (.function returns params))
      (hopen : name.lexeme ∈ Γ.enclosing) :
      IsTarget (name :: rest) (.var name.lexeme returns) rest

/-- The closing word of a compound, after an optional semicolon. -/
inductive IsClosing : List Token → List Token → Prop
  | plain {rest : List Token} {closing : Token} (hclosing : closing.kind = .keyword .end_) :
      IsClosing (closing :: rest) rest
  | semicolon {rest : List Token} {semicolon closing : Token}
      (hsemicolon : semicolon.kind = .punct .semicolon)
      (hclosing : closing.kind = .keyword .end_) : IsClosing (semicolon :: closing :: rest) rest

mutual

inductive IsStatement : List Token → Statement → List Token → Prop
  | assign {ts us rest : List Token} {becomes : Token} {target : Target} {value : Expr}
      (htarget : IsTarget Γ ts target (becomes :: us)) (hbecomes : becomes.kind = .punct .assign)
      (hvalue : IsExpression Γ us value rest) : IsStatement ts (.assign target value) rest
  | call {ts rest : List Token} {name : Token} {params : List ValueType} {args : List Expr}
      (hkind : name.kind = .identifier)
      (hname : Γ.meaning? name.lexeme = some (.procedure params))
      (hargs : IsArguments Γ ts args rest) (hcount : args.length = params.length) :
      IsStatement (name :: ts) (.call name.lexeme args) rest
  | compound {ts rest : List Token} {body : List Statement} (h : IsCompound ts body rest) :
      IsStatement ts (.compound body) rest
  | branch {ts us vs rest : List Token} {word then_ else_ : Token} {test : Expr}
      {yes no : Statement} (hword : word.kind = .keyword .if_)
      (htest : IsExpression Γ ts test (then_ :: us)) (hthen : then_.kind = .keyword .then_)
      (hyes : IsStatement us yes (else_ :: vs)) (helse : else_.kind = .keyword .else_)
      (hno : IsStatement vs no rest) : IsStatement (word :: ts) (.branch test yes no) rest
  | loop {ts us rest : List Token} {word do_ : Token} {test : Expr} {body : Statement}
      (hword : word.kind = .keyword .while_) (htest : IsExpression Γ ts test (do_ :: us))
      (hdo : do_.kind = .keyword .do_) (hbody : IsStatement us body rest) :
      IsStatement (word :: ts) (.loop test body) rest
  | read {ts rest : List Token} {word opening closing : Token} {target : Target}
      (hword : word.kind = .keyword .read) (hopening : opening.kind = .punct .lparen)
      (htarget : IsTarget Γ ts target (closing :: rest))
      (hclosing : closing.kind = .punct .rparen) :
      IsStatement (word :: opening :: ts) (.read target) rest
  | write {ts rest : List Token} {word : Token} {value : Expr}
      (hword : word.kind = .keyword .write) (hvalue : IsGroup Γ ts value rest) :
      IsStatement (word :: ts) (.write value) rest

/-- Statements between their opening and closing words. -/
inductive IsCompound : List Token → List Statement → List Token → Prop
  | empty {rest : List Token} {opening closing : Token} (hopening : opening.kind = .keyword .begin_)
      (hclosing : closing.kind = .keyword .end_) : IsCompound (opening :: closing :: rest) [] rest
  | body {ts us vs rest : List Token} {opening : Token} {first : Statement}
      {others : List Statement} (hopening : opening.kind = .keyword .begin_)
      (hfirst : IsStatement ts first us) (hothers : IsMoreStatements us others vs)
      (hclosing : IsClosing vs rest) : IsCompound (opening :: ts) (first :: others) rest

/-- Statements, each after a semicolon. -/
inductive IsMoreStatements : List Token → List Statement → List Token → Prop
  | nil {ts : List Token} : IsMoreStatements ts [] ts
  | cons {ts us rest : List Token} {semicolon : Token} {s : Statement} {ss : List Statement}
      (hsemicolon : semicolon.kind = .punct .semicolon) (h : IsStatement ts s us)
      (hmore : IsMoreStatements us ss rest) : IsMoreStatements (semicolon :: ts) (s :: ss) rest

end

end Statements

/-! ## Variables -/

/-- Names with commas between them. -/
inductive IsNames : List Token → List Token → List Token → Prop
  | one {rest : List Token} {name : Token} (hkind : name.kind = .identifier) :
      IsNames (name :: rest) [name] rest
  | more {ts rest names : List Token} {name comma : Token} (hkind : name.kind = .identifier)
      (hcomma : comma.kind = .punct .comma) (hmore : IsNames ts names rest) :
      IsNames (name :: comma :: ts) (name :: names) rest

/-- The type of a single value. -/
inductive IsStandardType : List Token → ValueType → List Token → Prop
  | integer {rest : List Token} {word : Token} (hword : word.kind = .keyword .integer) :
      IsStandardType (word :: rest) .integer rest
  | real {rest : List Token} {word : Token} (hword : word.kind = .keyword .real) :
      IsStandardType (word :: rest) .real rest

/-- A bound of an array. -/
inductive IsBound : List Token → Int → List Token → Prop
  | plain {rest : List Token} {number : Token} {i : Int} (hkind : number.kind = .number)
      (hvalue : Literal.integer? number.lexeme = some i) : IsBound (number :: rest) i rest
  | negative {rest : List Token} {sign number : Token} {i : Int}
      (hsign : sign.kind = .punct .minus) (hkind : number.kind = .number)
      (hvalue : Literal.integer? ("-" ++ number.lexeme) = some i) :
      IsBound (sign :: number :: rest) i rest

/-- The type of variables: that of their values, and what their names stand for. -/
inductive IsType : List Token → ValueType → Binding → List Token → Prop
  | scalar {ts rest : List Token} {type : ValueType} (h : IsStandardType ts type rest) :
      IsType ts type (.scalar type) rest
  | array {ts us vs rest : List Token} {word opening colon closing of_ : Token} {lo hi : Int}
      {type : ValueType} (hword : word.kind = .keyword .array)
      (hopening : opening.kind = .punct .lbracket) (hlo : IsBound ts lo (colon :: us))
      (hcolon : colon.kind = .punct .colon) (hhi : IsBound us hi (closing :: of_ :: vs))
      (hclosing : closing.kind = .punct .rbracket) (hof : of_.kind = .keyword .of)
      (htype : IsStandardType vs type rest) (hordered : lo ≤ hi) :
      IsType (word :: opening :: ts) type (.array type ⟨lo, hi⟩) rest

/-- Names and their type. -/
inductive IsVariableGroup : Setting → List Token → List Variable → Setting → List Token → Prop
  | mk {Γ Γ' : Setting} {ts us rest names : List Token} {colon semicolon : Token}
      {type : ValueType} {binding : Binding} (hnames : IsNames ts names (colon :: us))
      (hcolon : colon.kind = .punct .colon) (htype : IsType us type binding (semicolon :: rest))
      (hsemicolon : semicolon.kind = .punct .semicolon)
      (hdeclared : Γ.declareAll? (names.map fun name => (name.lexeme, binding)) = some Γ') :
      IsVariableGroup Γ ts (names.map fun name => ⟨name.lexeme, type⟩) Γ' rest

/-- More groups of a section. -/
inductive IsMoreGroups : Setting → List Token → List Variable → Setting → List Token → Prop
  | nil {Γ : Setting} {ts : List Token} : IsMoreGroups Γ ts [] Γ ts
  | cons {Γ Γ₁ Γ' : Setting} {ts us rest : List Token} {vars more : List Variable}
      (h : IsVariableGroup Γ ts vars Γ₁ us) (hmore : IsMoreGroups Γ₁ us more Γ' rest) :
      IsMoreGroups Γ ts (vars ++ more) Γ' rest

/-- Sections of variables, each of one group or more. -/
inductive IsSections : Setting → List Token → List Variable → Setting → List Token → Prop
  | nil {Γ : Setting} {ts : List Token} : IsSections Γ ts [] Γ ts
  | cons {Γ Γ₁ Γ₂ Γ' : Setting} {ts us vs rest : List Token} {word : Token}
      {first others vars : List Variable} (hword : word.kind = .keyword .var)
      (hfirst : IsVariableGroup Γ ts first Γ₁ us) (hothers : IsMoreGroups Γ₁ us others Γ₂ vs)
      (hmore : IsSections Γ₂ vs vars Γ' rest) :
      IsSections Γ (word :: ts) (first ++ others ++ vars) Γ' rest

/-! ## Subprograms -/

/-- Groups of parameters with semicolons between them. -/
inductive IsParameterGroups : List Token → List (Token × ValueType) → List Token → Prop
  | one {ts us rest names : List Token} {colon : Token} {type : ValueType}
      (hnames : IsNames ts names (colon :: us)) (hcolon : colon.kind = .punct .colon)
      (htype : IsStandardType us type rest) :
      IsParameterGroups ts (names.map fun name => (name, type)) rest
  | more {ts us vs rest names : List Token} {colon semicolon : Token} {type : ValueType}
      {params : List (Token × ValueType)} (hnames : IsNames ts names (colon :: us))
      (hcolon : colon.kind = .punct .colon) (htype : IsStandardType us type (semicolon :: vs))
      (hsemicolon : semicolon.kind = .punct .semicolon)
      (hmore : IsParameterGroups vs params rest) :
      IsParameterGroups ts (names.map (fun name => (name, type)) ++ params) rest

/-- Parameters in parentheses, or none. -/
inductive IsParameters : List Token → List (Token × ValueType) → List Token → Prop
  | none {ts : List Token} : IsParameters ts [] ts
  | some {ts rest : List Token} {opening closing : Token} {params : List (Token × ValueType)}
      (hopening : opening.kind = .punct .lparen) (h : IsParameterGroups ts params (closing :: rest))
      (hclosing : closing.kind = .punct .rparen) : IsParameters (opening :: ts) params rest

/-- What the head of a subprogram tells. -/
structure Head where
  kind : RoutineKind
  name : Token
  params : List (Token × ValueType)
  returns : Option ValueType
  binding : Binding

inductive IsHead : List Token → Head → List Token → Prop
  | function {ts us rest : List Token} {word name colon semicolon : Token} {returns : ValueType}
      {params : List (Token × ValueType)} (hword : word.kind = .keyword .function)
      (hname : name.kind = .identifier) (hparams : IsParameters ts params (colon :: us))
      (hcolon : colon.kind = .punct .colon) (htype : IsStandardType us returns (semicolon :: rest))
      (hsemicolon : semicolon.kind = .punct .semicolon) :
      IsHead (word :: name :: ts)
        ⟨.function, name, params, some returns, .function returns (params.map Prod.snd)⟩ rest
  | procedure {ts rest : List Token} {word name semicolon : Token}
      {params : List (Token × ValueType)} (hword : word.kind = .keyword .procedure)
      (hname : name.kind = .identifier) (hparams : IsParameters ts params (semicolon :: rest))
      (hsemicolon : semicolon.kind = .punct .semicolon) :
      IsHead (word :: name :: ts) ⟨.procedure, name, params, none, .procedure (params.map Prod.snd)⟩
        rest

mutual

/-- A subprogram. Its name is declared around it, before its block, and all else in its block. -/
inductive IsSubprogram : Setting → List Token → Subprogram → Setting → List Token → Prop
  | mk {Γ Γ' Γ₁ Γ₂ Γ₃ : Setting} {ts us vs ws rest : List Token} {head : Head}
      {vars : List Variable} {subs : List Subprogram} {body : List Statement}
      (hhead : IsHead ts head us)
      (hdeclared : Γ.declare? head.name.lexeme head.binding = some Γ')
      (hparams : (Γ'.enter head.name.lexeme).declareAll?
        (head.params.map fun (name, type) => (name.lexeme, .scalar type)) = some Γ₁)
      (hvars : IsSections Γ₁ us vars Γ₂ vs) (hsubs : IsSubprograms Γ₂ vs subs Γ₃ ws)
      (hbody : IsCompound Γ₃ ws body rest) :
      IsSubprogram Γ ts {
        kind := head.kind
        name := head.name.lexeme
        returns := head.returns
        args := head.params.map fun (name, type) => ⟨name.lexeme, type⟩
        vars := vars
        subprograms := subs
        body := body
        location := head.name.location } Γ' rest

/-- Subprograms, each closed by a semicolon. -/
inductive IsSubprograms : Setting → List Token → List Subprogram → Setting → List Token → Prop
  | nil {Γ : Setting} {ts : List Token} : IsSubprograms Γ ts [] Γ ts
  | cons {Γ Γ₁ Γ' : Setting} {ts us rest : List Token} {semicolon : Token} {s : Subprogram}
      {ss : List Subprogram} (h : IsSubprogram Γ ts s Γ₁ (semicolon :: us))
      (hsemicolon : semicolon.kind = .punct .semicolon) (hmore : IsSubprograms Γ₁ us ss Γ' rest) :
      IsSubprograms Γ ts (s :: ss) Γ' rest

end

/-! ## Programs -/

/-- The tokens are a program, up to the period at its end. -/
inductive IsProgram : List Token → Program → Prop
  | mk {Γ Γ₁ Γ₂ : Setting} {ts us vs : List Token} {word name semicolon period : Token}
      {vars : List Variable} {subs : List Subprogram} {body : List Statement}
      (hword : word.kind = .keyword .program) (hname : name.kind = .identifier)
      (hsemicolon : semicolon.kind = .punct .semicolon)
      (hdeclared : Setting.start.declare? name.lexeme .program = some Γ)
      (hvars : IsSections Γ ts vars Γ₁ us) (hsubs : IsSubprograms Γ₁ us subs Γ₂ vs)
      (hbody : IsCompound Γ₂ vs body [period]) (hperiod : period.kind = .punct .period) :
      IsProgram (word :: name :: semicolon :: ts) {
        name := name.lexeme
        vars := vars
        subprograms := subs
        body := body
        location := name.location }

/-! ## Where declarations go -/

/-- Only the innermost scope of the settings may differ. -/
structure Setting.Extends (Γ Γ' : Setting) : Prop where
  outer : Γ'.scopes.tail = Γ.scopes.tail
  enclosing : Γ'.enclosing = Γ.enclosing

theorem Setting.Extends.refl (Γ : Setting) : Γ.Extends Γ := ⟨rfl, rfl⟩

theorem Setting.Extends.trans {Γ Γ₁ Γ' : Setting} (h : Γ.Extends Γ₁) (h' : Γ₁.Extends Γ') :
    Γ.Extends Γ' :=
  ⟨h'.outer.trans h.outer, h'.enclosing.trans h.enclosing⟩

theorem Setting.extends_of_declare? {Γ Γ' : Setting} {name : String} {binding : Binding}
    (h : Γ.declare? name binding = some Γ') : Γ.Extends Γ' ∧ Γ'.scopes ≠ [] := by
  unfold declare? at h
  split at h
  · cases h
  · next scope outer hscopes =>
    split at h
    · cases h
    · cases h
      refine ⟨⟨?_, rfl⟩, List.cons_ne_nil _ _⟩
      rw [hscopes]
      rfl

theorem Setting.extends_of_declareAll? {entries : List (String × Binding)} :
    ∀ {Γ Γ' : Setting}, Γ.declareAll? entries = some Γ' → Γ.Extends Γ' := by
  induction entries with
  | nil =>
    rintro Γ _ ⟨⟩
    exact .refl Γ
  | cons entry rest ih =>
    intro Γ Γ' h
    obtain ⟨Γ₁, hfirst, hrest⟩ := Option.bind_eq_some_iff.1 h
    exact (extends_of_declare? hfirst).1.trans (ih hrest)

theorem IsVariableGroup.extends {Γ Γ' : Setting} {ts rest : List Token} {vars : List Variable} :
    IsVariableGroup Γ ts vars Γ' rest → Γ.Extends Γ'
  | .mk _ _ _ _ hdeclared => Setting.extends_of_declareAll? hdeclared

theorem IsMoreGroups.extends {Γ Γ' : Setting} {ts rest : List Token} {vars : List Variable}
    (h : IsMoreGroups Γ ts vars Γ' rest) : Γ.Extends Γ' := by
  induction h with
  | nil => exact .refl _
  | cons hgroup _ ih => exact hgroup.extends.trans ih

theorem IsSections.extends {Γ Γ' : Setting} {ts rest : List Token} {vars : List Variable}
    (h : IsSections Γ ts vars Γ' rest) : Γ.Extends Γ' := by
  induction h with
  | nil => exact .refl _
  | cons _ hfirst hothers _ ih => exact hfirst.extends.trans (hothers.extends.trans ih)

/-- What a subprogram declares in its block is gone after it. -/
theorem IsSubprogram.extends {Γ Γ' : Setting} {ts rest : List Token} {s : Subprogram} :
    IsSubprogram Γ ts s Γ' rest → Γ.Extends Γ'
  | .mk _ hdeclared _ _ _ _ => (Setting.extends_of_declare? hdeclared).1

theorem IsSubprograms.extends : ∀ {Γ Γ' : Setting} {ts rest : List Token} {ss : List Subprogram},
    IsSubprograms Γ ts ss Γ' rest → Γ.Extends Γ'
  | _, _, _, _, _, .nil => .refl _
  | _, _, _, _, _, .cons h _ hmore => h.extends.trans hmore.extends

end PascalMips.Grammar
