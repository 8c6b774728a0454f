import PascalMips.Program.Parser

/-!
# Relations between parsers that go through the grammar

A relation between parsers is a congruence if it holds between each basic parser and itself and goes
through sequences, repetition and nesting (`Parse.Congruence`). The productions of the grammar are
made of nothing else. So a congruence goes through each of them, with related parsers for the parts
that a production is given, and holds between the parser of programs and itself
(`related_program`).

A property of single parsers counts as a relation that looks at the first of the two.
-/

namespace PascalMips.Parse

/-- The parsers that are not made of others. -/
inductive Basic : {α : Type} → Parse α → Prop
  | pure {α : Type} (a : α) : Basic (pure a)
  | fail {α : Type} (fault : ParseFault) (location : Location) :
      Basic (fail fault location : Parse α)
  | current : Basic current
  | advance : Basic advance
  | declare (name : Token) (binding : Binding) : Basic (declare name binding)
  | resolve (name : Token) : Basic (resolve name)
  | isEnclosing (name : String) : Basic (isEnclosing name)
  | procedure? (name : String) : Basic (procedure? name)
  | openScope (name : String) : Basic (openScope name)
  | closeScope (name : String) : Basic (closeScope name)

/-- The relation holds between basic parsers and themselves, and between parsers that are made in
the same way of related ones. -/
structure Congruence (R : ∀ α : Type, Parse α → Parse α → Prop) : Prop where
  basic {α : Type} {x : Parse α} (hx : Basic x) : R α x x
  bind {α β : Type} {x y : Parse α} {f g : α → Parse β} (hxy : R α x y)
    (hfg : ∀ a, R β (f a) (g a)) : R β (x >>= f) (y >>= g)
  many {α : Type} {x y : Parse (Option α)} (hxy : R (Option α) x y) :
    R (List α) (many x) (many y)
  nest {α : Type} {level : Parse α → Parse α}
    (hlevel : ∀ x y, R α x y → R α (level x) (level y)) : R α (nest level) (nest level)

section

variable {R : ∀ α : Type, Parse α → Parse α → Prop} (h : Congruence R) {α β : Type}

/-- Related branches make related choices. -/
theorem related_ite {c : Prop} [Decidable c] {x x' y y' : Parse α} (hx : R α x x')
    (hy : R α y y') : R α (if c then x else y) (if c then x' else y') := by
  by_cases hc : c
  · rwa [if_pos hc, if_pos hc]
  · rwa [if_neg hc, if_neg hc]

include h

/-! ## Combinators -/

theorem related_pure (a : α) : R α (pure a) (pure a) := h.basic (.pure a)

theorem related_fail (fault : ParseFault) (location : Location) :
    R α (fail fault location) (fail fault location) :=
  h.basic (.fail fault location)

/-- A complaint is a look at the next token and a failure. -/
theorem related_unexpected (expected : Expected) :
    R α (unexpected expected) (unexpected expected) :=
  h.bind (h.basic .current) fun _ => related_fail h _ _

theorem related_check (kind : Kind) : R Bool (check kind) (check kind) :=
  h.bind (h.basic .current) fun _ => related_pure h _

/-- Reading a token if it is of a kind is a test, and a step if it comes out true. -/
theorem related_accept (kind : Kind) : R Bool (accept kind) (accept kind) :=
  h.bind (related_check h kind) fun _ =>
    related_ite (h.bind (h.basic .advance) fun _ => related_pure h _) (related_pure h _)

theorem related_expect (kind : Kind) : R Token (expect kind) (expect kind) :=
  h.bind (related_check h kind) fun _ =>
    related_ite (h.basic .advance) (related_unexpected h _)

/-- A token that is expected and not used. -/
theorem related_after (kind : Kind) {x y : Parse α} (hxy : R α x y) :
    R α (expect kind >>= fun _ => x) (expect kind >>= fun _ => y) :=
  h.bind (related_expect h kind) fun _ => hxy

/-- A result that is made of a value read. -/
theorem related_map {x y : Parse α} (hxy : R α x y) (f : α → β) :
    R β (x >>= fun a => pure (f a)) (y >>= fun a => pure (f a)) :=
  h.bind hxy fun _ => related_pure h _

/-- A list with separators is an item and a repetition of separators and items. -/
theorem related_sepBy {separator : Kind} {x y : Parse α} (hxy : R α x y) :
    R (List α) (sepBy separator x) (sepBy separator y) := by
  refine h.bind hxy fun first => related_map h (h.many ?_) _
  exact h.bind (related_accept h separator) fun _ =>
    related_ite (related_map h hxy some) (related_pure h none)

/-! ## Expressions -/

theorem related_operation? {op? : Kind → Option BinaryOp} {x y : Parse Expr} (hxy : R Expr x y) :
    R _ (operation? op? x) (operation? op? y) := by
  refine h.bind (h.basic .current) fun token => ?_
  cases op? token.kind with
  | none => exact related_pure h _
  | some op => exact h.bind (h.basic .advance) fun _ => related_map h hxy _

/-- A chain of operations is a repetition, folded from the left. -/
theorem related_leftAssoc {op? : Kind → Option BinaryOp} {x y : Parse Expr} (hxy : R Expr x y)
    (first : Expr) : R Expr (leftAssoc op? x first) (leftAssoc op? y first) :=
  related_map h (h.many (related_operation? h hxy)) _

theorem related_product {x y : Parse Expr} (hxy : R Expr x y) :
    R Expr (product x) (product y) :=
  h.bind hxy fun first => related_leftAssoc h hxy first

theorem related_sum {x y : Parse Expr} (hxy : R Expr x y) : R Expr (sum x) (sum y) :=
  h.bind (related_accept h _) fun _ => related_ite
    (h.bind hxy fun _ => related_leftAssoc h hxy _)
    (h.bind (related_accept h _) fun _ => h.bind hxy fun _ => related_leftAssoc h hxy _)

/-- A comparison is a sum, and perhaps a sign and another sum. -/
theorem related_comparison {x y : Parse Expr} (hxy : R Expr x y) :
    R Expr (comparison x) (comparison y) := by
  refine h.bind hxy fun left => h.bind (related_operation? h hxy) fun operation => ?_
  cases operation with
  | none => exact related_pure h _
  | some operation => exact related_pure h _

theorem related_expressionOf {x y : Parse Expr} (hxy : R Expr x y) :
    R Expr (expressionOf x) (expressionOf y) :=
  related_comparison h (related_sum h (related_product h hxy))

theorem related_literal (number : Token) : R Expr (literal number) (literal number) :=
  related_ite (related_pure h _) (related_fail h _ _)

theorem related_index {x y : Parse Expr} (hxy : R Expr x y) : R Expr (index x) (index y) :=
  related_after h _ (h.bind hxy fun _ => related_after h _ (related_pure h _))

theorem related_group {x y : Parse Expr} (hxy : R Expr x y) : R Expr (group x) (group y) :=
  related_after h _ (h.bind hxy fun _ => related_after h _ (related_pure h _))

theorem related_argumentList {x y : Parse Expr} (hxy : R Expr x y) :
    R _ (argumentList x) (argumentList y) :=
  h.bind (related_accept h _) fun _ => related_ite
    (h.bind (related_sepBy h hxy) fun _ => related_after h _ (related_pure h _))
    (related_pure h _)

/-- Counting arguments reads nothing. -/
theorem related_arguments {x y : Parse Expr} (hxy : R Expr x y) (name : Token)
    (params : List ValueType) : R _ (arguments x name params) (arguments y name params) :=
  h.bind (related_argumentList h hxy) fun _ => related_ite (related_pure h _) (related_fail h _ _)

/-- What a name stands for decides what is read behind it, alike on both sides. -/
theorem related_named {x y : Parse Expr} (hxy : R Expr x y) (name : Token) :
    R Expr (named x name) (named y name) := by
  refine h.bind (h.basic (.resolve name)) fun binding => ?_
  cases binding with
  | scalar type => exact related_pure h _
  | array type bounds => exact related_map h (related_index h hxy) _
  | function returns params => exact related_map h (related_arguments h hxy name params) _
  | program => exact related_fail h _ _
  | procedure params => exact related_fail h _ _

/-- One level of factors. The first token decides on the case, and only the factor inside
parentheses, indices and arguments is taken from the parts. -/
theorem related_factorOf {x y : Parse Expr} (hxy : R Expr x y) :
    R Expr (factorOf x) (factorOf y) := by
  have hexpression := related_expressionOf h hxy
  refine h.bind (h.basic .current) fun token => ?_
  split
  · exact h.bind (h.basic .advance) fun number => related_literal h number
  · exact related_group h hexpression
  · exact h.bind (h.basic .advance) fun _ => related_map h hxy _
  · exact h.bind (h.basic .advance) fun name => related_named h hexpression name
  · exact related_unexpected h _

/-- Nesting keeps the relation, so it holds between factors of any depth. -/
theorem related_factor : R Expr factor factor := h.nest fun _ _ => related_factorOf h

theorem related_expression : R Expr expression expression :=
  related_expressionOf h (related_factor h)

/-! ## Statements -/

/-- The meaning of a name decides whether it is a place. -/
theorem related_target (name : Token) : R Target (target name) (target name) := by
  refine h.bind (h.basic (.resolve name)) fun binding => ?_
  cases binding with
  | scalar type => exact related_pure h _
  | array type bounds => exact related_map h (related_index h (related_expression h)) _
  | function returns params =>
    exact h.bind (h.basic (.isEnclosing _)) fun _ =>
      related_ite (related_pure h _) (related_fail h _ _)
  | program => exact related_fail h _ _
  | procedure params => exact related_fail h _ _

theorem related_callOrAssign : R Statement callOrAssign callOrAssign := by
  refine h.bind (related_expect h _) fun name => h.bind (h.basic (.procedure? _)) fun params? => ?_
  cases params? with
  | some params => exact related_map h (related_arguments h (related_expression h) name params) _
  | none =>
    exact h.bind (related_target h name) fun _ =>
      related_after h _ (related_map h (related_expression h) _)

theorem related_nextStatement? {x y : Parse Statement} (hxy : R Statement x y) :
    R _ (nextStatement? x) (nextStatement? y) :=
  h.bind (related_accept h _) fun _ => related_ite
    (h.bind (related_check h _) fun _ => related_ite (related_pure h _) (related_map h hxy _))
    (related_pure h _)

theorem related_statementList {x y : Parse Statement} (hxy : R Statement x y) :
    R _ (statementList x) (statementList y) :=
  h.bind (related_check h _) fun _ => related_ite (related_pure h _)
    (h.bind hxy fun _ => related_map h (h.many (related_nextStatement? h hxy)) _)

theorem related_compoundOf {x y : Parse Statement} (hxy : R Statement x y) :
    R _ (compoundOf x) (compoundOf y) :=
  related_after h _ (h.bind (related_statementList h hxy) fun _ =>
    related_after h _ (related_pure h _))

theorem related_branchOf {x y : Parse Statement} (hxy : R Statement x y) :
    R Statement (branchOf x) (branchOf y) :=
  related_after h _ (h.bind (related_expression h) fun _ => related_after h _ (h.bind hxy fun _ =>
    related_after h _ (related_map h hxy _)))

theorem related_loopOf {x y : Parse Statement} (hxy : R Statement x y) :
    R Statement (loopOf x) (loopOf y) :=
  related_after h _ (h.bind (related_expression h) fun _ =>
    related_after h _ (related_map h hxy _))

theorem related_readStatement : R Statement readStatement readStatement :=
  related_after h _ (related_after h _ (h.bind (related_expect h _) fun name =>
    h.bind (related_target h name) fun _ => related_after h _ (related_pure h _)))

theorem related_writeStatement : R Statement writeStatement writeStatement :=
  related_after h _ (related_map h (related_group h (related_expression h)) _)

/-- One level of statements over related ones. -/
theorem related_statementOf {x y : Parse Statement} (hxy : R Statement x y) :
    R Statement (statementOf x) (statementOf y) := by
  refine h.bind (h.basic .current) fun token => ?_
  split
  · exact related_callOrAssign h
  · exact related_map h (related_compoundOf h hxy) _
  · exact related_branchOf h hxy
  · exact related_loopOf h hxy
  · exact related_readStatement h
  · exact related_writeStatement h
  · exact related_unexpected h _

theorem related_statement : R Statement statement statement :=
  h.nest fun _ _ => related_statementOf h

theorem related_compound : R _ compound compound := related_compoundOf h (related_statement h)

/-! ## Variables -/

theorem related_names : R _ names names := related_sepBy h (related_expect h _)

theorem related_standardType : R ValueType standardType standardType :=
  h.bind (related_accept h _) fun _ => related_ite (related_pure h _)
    (h.bind (related_accept h _) fun _ =>
      related_ite (related_pure h _) (related_unexpected h _))

theorem related_bound : R Int bound bound := by
  refine h.bind (related_accept h _) fun negative => h.bind (related_expect h _) fun number => ?_
  dsimp only
  cases Literal.integer? (if negative = true then "-" ++ number.lexeme else number.lexeme) with
  | some i => exact related_pure h _
  | none => exact related_fail h _ _

theorem related_declaredType : R DeclaredType declaredType declaredType := by
  refine h.bind (related_accept h _) fun _ => related_ite ?_
    (related_map h (related_standardType h) _)
  refine h.bind (related_expect h _) fun opening => h.bind (related_bound h) fun lo => ?_
  exact related_after h _ (h.bind (related_bound h) fun hi => related_after h _ (related_after h _
    (h.bind (related_standardType h) fun _ => related_ite (related_pure h _) (related_fail h _ _))))

/-- Names are declared one after the other, by induction over the names. -/
theorem related_declareAll (binding : Binding) (names : List Token) :
    R Unit (declareAll binding names) (declareAll binding names) := by
  induction names with
  | nil => exact related_pure h _
  | cons name rest ih => exact h.bind (h.basic (.declare name binding)) fun _ => ih

theorem related_variableGroup : R _ variableGroup variableGroup :=
  h.bind (related_names h) fun names => related_after h _ (h.bind (related_declaredType h)
    fun _ => related_after h _ (related_map h (related_declareAll h _ names) _))

theorem related_nextGroup? : R _ nextGroup? nextGroup? :=
  h.bind (related_check h _) fun _ =>
    related_ite (related_map h (related_variableGroup h) _) (related_pure h _)

theorem related_variableSection? : R _ variableSection? variableSection? :=
  h.bind (related_accept h _) fun _ => related_ite
    (h.bind (related_variableGroup h) fun _ => related_map h (h.many (related_nextGroup? h)) _)
    (related_pure h _)

theorem related_varSections : R _ varSections varSections :=
  related_map h (h.many (related_variableSection? h)) _

/-! ## Subprograms and programs -/

theorem related_parameterGroup : R _ parameterGroup parameterGroup :=
  h.bind (related_names h) fun _ => related_after h _ (related_map h (related_standardType h) _)

theorem related_parameters : R _ parameters parameters :=
  h.bind (related_accept h _) fun _ => related_ite
    (h.bind (related_sepBy h (related_parameterGroup h)) fun _ =>
      related_after h _ (related_pure h _))
    (related_pure h _)

/-- Parameters are declared one after the other, by induction over them. -/
theorem related_declareParameters (params : List (Token × ValueType)) :
    R Unit (declareParameters params) (declareParameters params) := by
  induction params with
  | nil => exact related_pure h _
  | cons param rest ih => exact h.bind (h.basic (.declare _ _)) fun _ => ih

theorem related_routineKind : R RoutineKind routineKind routineKind :=
  h.bind (related_accept h _) fun _ =>
    related_ite (related_pure h _) (related_after h _ (related_pure h _))

theorem related_declareRoutine (kind : RoutineKind) (name : Token) (params : List ValueType) :
    R _ (declareRoutine kind name params) (declareRoutine kind name params) := by
  cases kind with
  | function =>
    exact related_after h _ (h.bind (related_standardType h) fun _ =>
      related_map h (h.basic (.declare name _)) _)
  | procedure => exact related_map h (h.basic (.declare name _)) _

theorem related_nextSubprogram? {x y : Parse Subprogram} (hxy : R Subprogram x y) :
    R _ (nextSubprogram? x) (nextSubprogram? y) :=
  h.bind (h.basic .current) fun _ => related_ite
    (h.bind hxy fun _ => related_after h _ (related_pure h _)) (related_pure h _)

/-- One level of subprograms. Scopes are opened and closed by basic parsers. -/
theorem related_subprogramOf {x y : Parse Subprogram} (hxy : R Subprogram x y) :
    R Subprogram (subprogramOf x) (subprogramOf y) :=
  h.bind (related_routineKind h) fun kind => h.bind (related_expect h _) fun name =>
    h.bind (related_parameters h) fun params =>
      h.bind (related_declareRoutine h kind name _) fun _ => related_after h _ <|
        h.bind (h.basic (.openScope _)) fun _ =>
          h.bind (related_declareParameters h params) fun _ =>
            h.bind (related_varSections h) fun _ =>
              h.bind (h.many (related_nextSubprogram? h hxy)) fun _ =>
                h.bind (related_compound h) fun _ => related_map h (h.basic (.closeScope _)) _

theorem related_subprogram : R Subprogram subprogram subprogram :=
  h.nest fun _ _ => related_subprogramOf h

theorem related_subprograms : R _ subprograms subprograms :=
  h.many (related_nextSubprogram? h (related_subprogram h))

/-- A congruence holds between the parser of programs and itself. -/
theorem related_program : R Program program program :=
  related_after h _ (h.bind (related_expect h _) fun name => related_after h _ <|
    h.bind (h.basic (.declare name _)) fun _ => h.bind (related_varSections h) fun _ =>
      h.bind (related_subprograms h) fun _ => h.bind (related_compound h) fun _ =>
        related_after h _ (related_after h _ (related_pure h _)))

end

end PascalMips.Parse
