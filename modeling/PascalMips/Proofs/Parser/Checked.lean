import PascalMips.Proofs.Expr.Typing
import PascalMips.Proofs.Parser.Rules
import PascalMips.Proofs.Statement.Execution
import PascalMips.Statement.Parser

/-!
# What the parsers of expressions and statements check

A tree that the parser builds uses every name as what it is declared as, in the table the parser
knows, and the table stays as it is. Each production keeps this, given that the parsers it is made
of do; the nested productions follow by `gives_nest`.
-/

namespace PascalMips

/-! ## Checked trees -/

/-- A node uses its name as it is declared, has the type that follows from its operands, and is a
number if it is a literal. -/
def Expr.IsChecked (t : SymbolTable) (e : Expr) : Prop :=
  e.IsVisible t ∧ e.HasDerivedType ∧ e.IsReadable

theorem Expr.allOf_iff {P : Expr → Prop} {es : List Expr} :
    AllOf P es ↔ ∀ e ∈ es, e.All P := by
  induction es with
  | nil => simp [AllOf]
  | cons e es ih => simp [AllOf, ih]

/-- A target is declared as a variable or an array of its type, or as a function with results of its
type whose body is open. -/
def Target.Checked (t : SymbolTable) (enclosing : List String) : Target → Prop
  | var name type => ∃ symbol, t.lookup? name = some symbol ∧ (symbol.binding = .scalar type ∨
      name ∈ enclosing ∧ ∃ params, symbol.binding = .function type params)
  | element name type index =>
    (∃ symbol bounds, t.lookup? name = some symbol ∧ symbol.binding = .array type bounds) ∧
      index.All (Expr.IsChecked t)

namespace Statement

/-- The targets, expressions and names of a statement itself, not those of statements in it, are
checked. -/
def IsChecked (t : SymbolTable) (enclosing : List String) : Statement → Prop
  | assign target value => target.Checked t enclosing ∧ value.All (Expr.IsChecked t)
  | compound _ => True
  | branch test _ _ => test.All (Expr.IsChecked t)
  | loop test _ => test.All (Expr.IsChecked t)
  | call name args => Expr.AllOf (Expr.IsChecked t) args ∧
      ∃ symbol params, t.lookup? name = some symbol ∧ symbol.binding = .procedure params ∧
        args.length = params.length
  | read target => target.Checked t enclosing
  | write value => value.All (Expr.IsChecked t)

theorem allOf_iff {P : Statement → Prop} {ss : List Statement} :
    AllOf P ss ↔ ∀ s ∈ ss, s.All P := by
  induction ss with
  | nil => simp [AllOf]
  | cons s ss ih => simp [AllOf, ih]

end Statement

namespace Parse

variable {t : SymbolTable} {enclosing : List String}

/-! ## Expressions -/

/-- The parser changes no names and gives checked expressions. -/
abbrev GivesChecked (t : SymbolTable) (enclosing : List String) (x : Parse Expr) : Prop :=
  Gives t enclosing x fun e => e.All (Expr.IsChecked t)

/-- An operation on checked operands is checked, since its type is the derived one. -/
theorem checked_ofBinary {op : BinaryOp} {left right : Expr} (hl : left.All (Expr.IsChecked t))
    (hr : right.All (Expr.IsChecked t)) : (Expr.ofBinary op left right).All (Expr.IsChecked t) :=
  ⟨⟨trivial, rfl, trivial⟩, hl, hr⟩

theorem checked_ofUnary {op : UnaryOp} {e : Expr} (he : e.All (Expr.IsChecked t)) :
    (Expr.ofUnary op e).All (Expr.IsChecked t) :=
  ⟨⟨trivial, rfl, trivial⟩, he⟩

/-- An operator is read with a checked operand. -/
theorem gives_operation? {op? : Kind → Option BinaryOp} {operand : Parse Expr}
    (h : GivesChecked t enclosing operand) :
    Gives t enclosing (operation? op? operand) fun o? =>
      ∀ o, o? = some o → o.2.All (Expr.IsChecked t) := by
  refine gives_bind gives_current fun token _ => ?_
  cases op? token.kind with
  | none => exact gives_pure nofun
  | some op =>
    refine gives_bind gives_advance fun _ _ => gives_bind h fun e he => gives_pure ?_
    rintro o ⟨⟩
    exact he

/-- A chain of operations on checked operands is checked, by induction over the operations from the
left. -/
theorem gives_leftAssoc {op? : Kind → Option BinaryOp} {operand : Parse Expr}
    (h : GivesChecked t enclosing operand) {first : Expr} (hfirst : first.All (Expr.IsChecked t)) :
    GivesChecked t enclosing (leftAssoc op? operand first) := by
  refine gives_bind (gives_many (gives_operation? h)) fun operations hoperations => gives_pure ?_
  induction operations generalizing first with
  | nil => exact hfirst
  | cons o rest ih =>
    obtain ⟨ho, hrest⟩ := List.forall_mem_cons.1 hoperations
    exact ih (checked_ofBinary hfirst ho) hrest

theorem gives_product {factor : Parse Expr} (h : GivesChecked t enclosing factor) :
    GivesChecked t enclosing (product factor) :=
  gives_bind h fun _ hfirst => gives_leftAssoc h hfirst

theorem gives_sum {product : Parse Expr} (h : GivesChecked t enclosing product) :
    GivesChecked t enclosing (sum product) :=
  gives_bind (gives_accept _) fun _ _ => gives_ite
    (fun _ => gives_bind h fun _ hfirst => gives_leftAssoc h (checked_ofUnary hfirst))
    (fun _ => gives_bind (gives_accept _) fun _ _ =>
      gives_bind h fun _ hfirst => gives_leftAssoc h hfirst)

theorem gives_comparison {sum : Parse Expr} (h : GivesChecked t enclosing sum) :
    GivesChecked t enclosing (comparison sum) := by
  refine gives_bind h fun left hleft => gives_bind (gives_operation? h) fun o? ho => ?_
  cases o? with
  | none => exact gives_pure hleft
  | some o => exact gives_pure (checked_ofBinary hleft (ho o rfl))

theorem gives_expressionOf {factor : Parse Expr} (h : GivesChecked t enclosing factor) :
    GivesChecked t enclosing (expressionOf factor) :=
  gives_comparison (gives_sum (gives_product h))

/-- A number is checked when it is read. -/
theorem gives_literal (number : Token) : GivesChecked t enclosing (literal number) :=
  gives_ite (fun h => gives_pure ⟨trivial, trivial, rfl, h⟩) (fun _ => gives_fail)

theorem gives_index {expression : Parse Expr} (h : GivesChecked t enclosing expression) :
    GivesChecked t enclosing (index expression) :=
  gives_bind (gives_expect _) fun _ _ => gives_bind h fun _ he =>
    gives_bind (gives_expect _) fun _ _ => gives_pure he

theorem gives_group {expression : Parse Expr} (h : GivesChecked t enclosing expression) :
    GivesChecked t enclosing (group expression) :=
  gives_bind (gives_expect _) fun _ _ => gives_bind h fun _ he =>
    gives_bind (gives_expect _) fun _ _ => gives_pure he

/-- Arguments are checked, and there are as many as parameters. -/
theorem gives_arguments {expression : Parse Expr} (h : GivesChecked t enclosing expression)
    (name : Token) (params : List ValueType) :
    Gives t enclosing (arguments expression name params) fun args =>
      Expr.AllOf (Expr.IsChecked t) args ∧ args.length = params.length := by
  have hlist : Gives t enclosing (argumentList expression) fun args =>
      Expr.AllOf (Expr.IsChecked t) args :=
    gives_bind (gives_accept _) fun _ _ => gives_ite
      (fun _ => gives_bind (gives_sepBy h) fun _ hargs =>
        gives_bind (gives_expect _) fun _ _ => gives_pure (Expr.allOf_iff.2 hargs))
      (fun _ => gives_pure trivial)
  exact gives_bind hlist fun _ hargs => gives_ite (fun hlength => gives_pure ⟨hargs, hlength⟩)
    (fun _ => gives_fail)

/-- What a name is used as is what it is declared as, in each case of its meaning. -/
theorem gives_named {expression : Parse Expr} (h : GivesChecked t enclosing expression)
    (name : Token) : GivesChecked t enclosing (named expression name) := by
  refine gives_bind (gives_resolve name) fun binding ⟨symbol, hlookup, hbinding⟩ => ?_
  cases binding with
  | scalar type => exact gives_pure ⟨⟨symbol, hlookup, hbinding⟩, trivial, trivial⟩
  | array type bounds =>
    exact gives_bind (gives_index h) fun _ hindex =>
      gives_pure ⟨⟨⟨symbol, bounds, hlookup, hbinding⟩, trivial, trivial⟩, hindex⟩
  | function returns params =>
    exact gives_bind (gives_arguments h name params) fun _ ⟨hargs, hlength⟩ =>
      gives_pure ⟨⟨⟨symbol, params, hlookup, hbinding, hlength⟩, trivial, trivial⟩, hargs⟩
  | program => exact gives_fail
  | procedure params => exact gives_fail

/-- One level of factors over checked ones. -/
theorem gives_factorOf (inner : Parse Expr) (h : GivesChecked t enclosing inner) :
    GivesChecked t enclosing (factorOf inner) := by
  refine gives_bind gives_current fun token _ => ?_
  split
  · exact gives_bind gives_advance fun number _ => gives_literal number
  · exact gives_group (gives_expressionOf h)
  · exact gives_bind gives_advance fun _ _ => gives_bind h fun _ he =>
      gives_pure (checked_ofUnary he)
  · exact gives_bind gives_advance fun name _ => gives_named (gives_expressionOf h) name
  · exact gives_unexpected

theorem gives_expression : GivesChecked t enclosing expression :=
  gives_expressionOf (gives_nest gives_factorOf)

/-! ## Statements -/

/-- The parser changes no names and gives checked statements. -/
abbrev GivesCheckedStatement (t : SymbolTable) (enclosing : List String) (x : Parse Statement) :
    Prop :=
  Gives t enclosing x fun s => s.All (Statement.IsChecked t enclosing)

/-- A place is a variable, an element of an array, or the result of a function whose body is open.
-/
theorem gives_target (name : Token) :
    Gives t enclosing (target name) fun place => place.Checked t enclosing := by
  refine gives_bind (gives_resolve name) fun binding ⟨symbol, hlookup, hbinding⟩ => ?_
  cases binding with
  | scalar type => exact gives_pure ⟨symbol, hlookup, .inl hbinding⟩
  | array type bounds =>
    exact gives_bind (gives_index gives_expression) fun _ hindex =>
      gives_pure ⟨⟨symbol, bounds, hlookup, hbinding⟩, hindex⟩
  | function returns params =>
    refine gives_bind (gives_isEnclosing name.lexeme) fun found hfound => gives_ite ?_ ?_
    · exact fun h => gives_pure ⟨symbol, hlookup, .inr ⟨hfound h, params, hbinding⟩⟩
    · exact fun _ => gives_fail
  | program => exact gives_fail
  | procedure params => exact gives_fail

/-- A name that starts a call is declared as a procedure. -/
theorem gives_procedure? (name : String) : Gives t enclosing (procedure? name) fun params? =>
    ∀ params, params? = some params →
      ∃ symbol, t.lookup? name = some symbol ∧ symbol.binding = .procedure params := by
  intro p params? q hp he h
  unfold procedure? at h
  split at h
  · next params hfound =>
    cases h
    refine ⟨hp, he, ?_⟩
    rintro _ ⟨⟩
    obtain ⟨symbol, hlookup, hbinding⟩ := Option.map_eq_some_iff.1 hfound
    exact ⟨symbol, hp ▸ hlookup, hbinding⟩
  · cases h
    exact ⟨hp, he, nofun⟩

/-- Calls have as many arguments as parameters, and assignments go to checked places. -/
theorem gives_callOrAssign : GivesCheckedStatement t enclosing callOrAssign := by
  refine gives_bind (gives_expect _) fun name _ =>
    gives_bind (gives_procedure? name.lexeme) fun params? hparams => ?_
  cases params? with
  | some params =>
    obtain ⟨symbol, hlookup, hbinding⟩ := hparams params rfl
    exact gives_bind (gives_arguments gives_expression name params) fun _ ⟨hargs, hlength⟩ =>
      gives_pure ⟨hargs, symbol, params, hlookup, hbinding, hlength⟩
  | none =>
    exact gives_bind (gives_target name) fun _ hplace => gives_bind (gives_expect _) fun _ _ =>
      gives_bind gives_expression fun _ hvalue => gives_pure ⟨hplace, hvalue⟩

/-- A further statement, if there is one, is checked. -/
theorem gives_nextStatement? {statement : Parse Statement}
    (h : GivesCheckedStatement t enclosing statement) :
    Gives t enclosing (nextStatement? statement) fun s? =>
      ∀ s, s? = some s → s.All (Statement.IsChecked t enclosing) :=
  gives_bind (gives_accept _) fun _ _ => gives_ite
    (fun _ => gives_bind (gives_check _) fun _ _ => gives_ite (fun _ => gives_pure nofun)
      fun _ => gives_bind h fun _ hs => gives_pure fun _ heq => Option.some.inj heq ▸ hs)
    (fun _ => gives_pure nofun)

theorem gives_statementList {statement : Parse Statement}
    (h : GivesCheckedStatement t enclosing statement) :
    Gives t enclosing (statementList statement) fun body =>
      Statement.AllOf (Statement.IsChecked t enclosing) body :=
  gives_bind (gives_check _) fun _ _ => gives_ite (fun _ => gives_pure trivial) fun _ =>
    gives_bind h fun _ hfirst => gives_bind (gives_many (gives_nextStatement? h)) fun _ hothers =>
      gives_pure ⟨hfirst, Statement.allOf_iff.2 hothers⟩

theorem gives_compoundOf {statement : Parse Statement}
    (h : GivesCheckedStatement t enclosing statement) :
    Gives t enclosing (compoundOf statement) fun body =>
      Statement.AllOf (Statement.IsChecked t enclosing) body :=
  gives_bind (gives_expect _) fun _ _ => gives_bind (gives_statementList h) fun _ hbody =>
    gives_bind (gives_expect _) fun _ _ => gives_pure hbody

theorem gives_branchOf {statement : Parse Statement}
    (h : GivesCheckedStatement t enclosing statement) :
    GivesCheckedStatement t enclosing (branchOf statement) :=
  gives_bind (gives_expect _) fun _ _ => gives_bind gives_expression fun _ htest =>
    gives_bind (gives_expect _) fun _ _ => gives_bind h fun _ hyes =>
      gives_bind (gives_expect _) fun _ _ => gives_bind h fun _ hno =>
        gives_pure ⟨htest, hyes, hno⟩

theorem gives_loopOf {statement : Parse Statement}
    (h : GivesCheckedStatement t enclosing statement) :
    GivesCheckedStatement t enclosing (loopOf statement) :=
  gives_bind (gives_expect _) fun _ _ => gives_bind gives_expression fun _ htest =>
    gives_bind (gives_expect _) fun _ _ => gives_bind h fun _ hbody => gives_pure ⟨htest, hbody⟩

/-- One level of statements over checked ones. -/
theorem gives_statementOf (inner : Parse Statement) (h : GivesCheckedStatement t enclosing inner) :
    GivesCheckedStatement t enclosing (statementOf inner) := by
  refine gives_bind gives_current fun token _ => ?_
  split
  · exact gives_callOrAssign
  · exact gives_bind (gives_compoundOf h) fun _ hbody => gives_pure ⟨trivial, hbody⟩
  · exact gives_branchOf h
  · exact gives_loopOf h
  · exact gives_bind (gives_expect _) fun _ _ => gives_bind (gives_expect _) fun _ _ =>
      gives_bind (gives_expect _) fun name _ => gives_bind (gives_target name) fun _ hplace =>
        gives_bind (gives_expect _) fun _ _ => gives_pure hplace
  · exact gives_bind (gives_expect _) fun _ _ => gives_bind (gives_group gives_expression)
      fun _ hvalue => gives_pure hvalue
  · exact gives_unexpected

theorem gives_statement : GivesCheckedStatement t enclosing statement :=
  gives_nest gives_statementOf

/-- The body of a block leaves the names as they are and is checked against them. -/
theorem gives_compound : Gives t enclosing compound fun body =>
    Statement.AllOf (Statement.IsChecked t enclosing) body :=
  gives_compoundOf gives_statement

end Parse

/-! ## The names in a tree -/

mutual

/-- The names that occur in an expression. -/
def Expr.names : Expr → List String
  | literal _ _ => []
  | var name _ => [name]
  | element name _ index => name :: index.names
  | call name _ args => name :: namesAll args
  | binary _ left right _ => left.names ++ right.names
  | unary _ operand _ => operand.names

def Expr.namesAll : List Expr → List String
  | [] => []
  | e :: es => e.names ++ namesAll es

end

def Target.names : Target → List String
  | var name _ => [name]
  | element name _ index => name :: index.names

mutual

/-- The names that occur in a statement. -/
def Statement.names : Statement → List String
  | assign target value => target.names ++ value.names
  | compound body => namesAll body
  | branch test yes no => test.names ++ yes.names ++ no.names
  | loop test body => test.names ++ body.names
  | call name args => name :: Expr.namesAll args
  | read target => target.names
  | write value => value.names

def Statement.namesAll : List Statement → List String
  | [] => []
  | s :: ss => s.names ++ namesAll ss

end

section Names

variable {t : SymbolTable} {enclosing : List String} {x : String}

mutual

/-- The names in a checked expression are declared, by induction over expressions. -/
theorem Expr.visible_of_mem_names : ∀ {e : Expr}, e.All (IsChecked t) → x ∈ e.names →
    (t.lookup? x).isSome
  | literal .., _, hx => nomatch hx
  | var .., ⟨⟨_, hlookup, _⟩, _⟩, hx => by
    obtain rfl := List.mem_singleton.1 hx
    rw [hlookup]; rfl
  | element .., ⟨⟨⟨_, _, hlookup, _⟩, _⟩, hindex⟩, hx => by
    rcases List.mem_cons.1 hx with rfl | hx
    · rw [hlookup]; rfl
    · exact visible_of_mem_names hindex hx
  | call .., ⟨⟨⟨_, _, hlookup, _⟩, _⟩, hargs⟩, hx => by
    rcases List.mem_cons.1 hx with rfl | hx
    · rw [hlookup]; rfl
    · exact visible_of_mem_namesAll hargs hx
  | binary .., ⟨_, hleft, hright⟩, hx => by
    rcases List.mem_append.1 hx with hx | hx
    · exact visible_of_mem_names hleft hx
    · exact visible_of_mem_names hright hx
  | unary .., ⟨_, hoperand⟩, hx => visible_of_mem_names hoperand hx

theorem Expr.visible_of_mem_namesAll : ∀ {es : List Expr}, AllOf (IsChecked t) es →
    x ∈ namesAll es → (t.lookup? x).isSome
  | [], _, hx => nomatch hx
  | _ :: _, ⟨he, hes⟩, hx => by
    rcases List.mem_append.1 hx with hx | hx
    · exact visible_of_mem_names he hx
    · exact visible_of_mem_namesAll hes hx

end

/-- The names in a checked place are declared. -/
theorem Target.visible_of_mem_names : ∀ {target : Target}, target.Checked t enclosing →
    x ∈ target.names → (t.lookup? x).isSome
  | var .., ⟨_, hlookup, _⟩, hx => by
    obtain rfl := List.mem_singleton.1 hx
    rw [hlookup]; rfl
  | element .., ⟨⟨_, _, hlookup, _⟩, hindex⟩, hx => by
    rcases List.mem_cons.1 hx with rfl | hx
    · rw [hlookup]; rfl
    · exact Expr.visible_of_mem_names hindex hx

mutual

/-- The names in a checked statement are declared, by induction over statements. -/
theorem Statement.visible_of_mem_names : ∀ {s : Statement}, s.All (IsChecked t enclosing) →
    x ∈ s.names → (t.lookup? x).isSome
  | assign .., ⟨htarget, hvalue⟩, hx => by
    rcases List.mem_append.1 hx with hx | hx
    · exact Target.visible_of_mem_names htarget hx
    · exact Expr.visible_of_mem_names hvalue hx
  | compound _, ⟨_, hbody⟩, hx => visible_of_mem_namesAll hbody hx
  | branch .., ⟨htest, hyes, hno⟩, hx => by
    rcases List.mem_append.1 hx with hx | hx
    · rcases List.mem_append.1 hx with hx | hx
      · exact Expr.visible_of_mem_names htest hx
      · exact visible_of_mem_names hyes hx
    · exact visible_of_mem_names hno hx
  | loop .., ⟨htest, hbody⟩, hx => by
    rcases List.mem_append.1 hx with hx | hx
    · exact Expr.visible_of_mem_names htest hx
    · exact visible_of_mem_names hbody hx
  | call .., ⟨hargs, _, _, hlookup, _⟩, hx => by
    rcases List.mem_cons.1 hx with rfl | hx
    · rw [hlookup]; rfl
    · exact Expr.visible_of_mem_namesAll hargs hx
  | read _, htarget, hx => Target.visible_of_mem_names htarget hx
  | write _, hvalue, hx => Expr.visible_of_mem_names hvalue hx

/-- Every name that occurs in checked statements is visible. -/
theorem Statement.visible_of_mem_namesAll : ∀ {ss : List Statement},
    AllOf (IsChecked t enclosing) ss → x ∈ namesAll ss → (t.lookup? x).isSome
  | [], _, hx => nomatch hx
  | _ :: _, ⟨hs, hss⟩, hx => by
    rcases List.mem_append.1 hx with hx | hx
    · exact visible_of_mem_names hs hx
    · exact visible_of_mem_namesAll hss hx

end

end Names

/-! ## What is read is checked -/

namespace Parse

/-- From every state, an expression or a statement that is read leaves the names and the open
subprograms as they are, and all its nodes are checked against them. -/
theorem checked_of_ok (p : Parser) :
    (∀ e q, expression p = .ok e q → q.symbols = p.symbols ∧ q.enclosing = p.enclosing ∧
      e.All (Expr.IsChecked p.symbols)) ∧
    ∀ s q, statement p = .ok s q → q.symbols = p.symbols ∧ q.enclosing = p.enclosing ∧
      s.All (Statement.IsChecked p.symbols p.enclosing) :=
  ⟨fun e q => gives_expression p e q rfl rfl, fun s q => gives_statement p s q rfl rfl⟩

/-- The names around a statement in the body of a function `f`. -/
def functionSymbols : SymbolTable where
  inner := [[⟨5, "i", .scalar .integer, none⟩]]
  global := [⟨0, "p", .program, none⟩, ⟨1, "a", .array .real ⟨1, 9⟩, none⟩,
    ⟨2, "g", .function .real [.integer, .real], none⟩, ⟨3, "q", .procedure [.real], none⟩,
    ⟨4, "f", .function .real [.integer], none⟩]
  nextId := 6

/-- A statement with names in every role. -/
def functionSource : String :=
  "begin f := a[i + 1] * 2 + g(i, 1.5); q(-a[3]); " ++
  "if not i < 3 then read(a[i]) else while i <> 0 do read(f) end"

theorem functionSource_checked : ∃ tokens s q, TokenStream.ofSource functionSource = .ok tokens ∧
    statement ⟨tokens, functionSymbols, ["f"]⟩ = .ok s q ∧
    s.names = ["f", "a", "i", "g", "i", "q", "a", "i", "a", "i", "i", "f"] ∧
    q.symbols = functionSymbols ∧ q.enclosing = ["f"] ∧
    s.All (Statement.IsChecked functionSymbols ["f"]) := by
  have hnames : ((TokenStream.ofSource functionSource).toOption.bind fun tokens =>
      match statement ⟨tokens, functionSymbols, ["f"]⟩ with
      | .ok s _ => some s.names
      | _ => none) = some ["f", "a", "i", "g", "i", "q", "a", "i", "a", "i", "i", "f"] := by
    decide +kernel
  cases htokens : TokenStream.ofSource functionSource with
  | error cause =>
    rw [htokens] at hnames
    cases hnames
  | ok tokens =>
    rw [htokens] at hnames
    cases hs : statement ⟨tokens, functionSymbols, ["f"]⟩ with
    | ok s q =>
      simp only [Except.toOption, Option.bind_some, hs, Option.some.injEq] at hnames
      exact ⟨tokens, s, q, rfl, hs, hnames, (checked_of_ok _).2 s q hs⟩
    | error cause q => simp [Except.toOption, hs] at hnames
    | exhausted => simp [Except.toOption, hs] at hnames

end Parse

end PascalMips
