import PascalMips.Parser.Progress
import PascalMips.Program.Parser

/-!
# Parsing programs comes to an end

Every parser of the grammar settles: each repetition and each level of nesting reads a token of its
own. `program_ne_exhausted` is what the readers of programs rely on.
-/

namespace PascalMips.Parse

variable {n : Nat}

/-! ## Expressions -/

/-- An operation reads its operator, because the end of the tokens is none. -/
theorem steps_operation? {op? : Kind → Option BinaryOp} (hop : op? .eof = none)
    {operand : Parse Expr} (ho : Settles n operand) : Steps n (operation? op? operand) where
  settles := by
    refine settles_bind settles_current fun token => ?_
    cases op? token.kind with
    | none => exact settles_pure _
    | some op => exact settles_bind settles_advance fun _ => settles_bind ho fun _ => settles_pure _
  reads := by
    intro p a q hp h
    unfold operation? at h
    rw [bind_apply] at h
    simp only [current] at h
    cases hk : op? p.tokens.current.kind with
    | none => rw [hk] at h; cases h
    | some op =>
      have hne : p.tokens.current.kind ≠ .eof := by
        intro he
        rw [he, hop] at hk
        cases hk
      have hl := leaves_advance_bind (n := n) (p := p)
        (f := fun _ => operand >>= fun e => pure (some (op, e)))
        (fun _ => settles_bind ho fun _ => settles_pure _) (by omega) hne
      have hlt := TokenStream.size_advance_lt hne
      rw [hk] at h
      simp only at h
      rw [h] at hl
      have : q.tokens.size ≤ p.tokens.size - 1 := hl
      omega

/-- A chain of operations ends, for each round of it reads an operator. -/
theorem settles_leftAssoc {op? : Kind → Option BinaryOp} (hop : op? .eof = none)
    {operand : Parse Expr} (ho : Settles n operand) (first : Expr) :
    Settles n (leftAssoc op? operand first) :=
  settles_bind (settles_many (steps_operation? hop ho)) fun _ => settles_pure _

theorem settles_product {factor : Parse Expr} (h : Settles n factor) : Settles n (product factor) :=
  settles_bind h fun _ => settles_leftAssoc rfl h _

theorem settles_sum {product : Parse Expr} (h : Settles n product) : Settles n (sum product) :=
  settles_bind (settles_accept _) fun _ =>
    settles_ite (settles_bind h fun _ => settles_leftAssoc rfl h _)
      (settles_bind (settles_accept _) fun _ => settles_bind h fun _ => settles_leftAssoc rfl h _)

theorem settles_comparison {sum : Parse Expr} (h : Settles n sum) : Settles n (comparison sum) := by
  refine settles_bind h fun _ => settles_bind (steps_operation? rfl h).settles fun r => ?_
  cases r with
  | none => exact settles_pure _
  | some r => exact settles_pure _

theorem settles_expressionOf {factor : Parse Expr} (h : Settles n factor) :
    Settles n (expressionOf factor) :=
  settles_comparison (settles_sum (settles_product h))

theorem settles_literal (number : Token) : Settles n (literal number) :=
  settles_ite (settles_pure _) (settles_fail _ _)

theorem settles_index {expression : Parse Expr} (h : Settles n expression) :
    Settles n (index expression) :=
  settles_bind (settles_expect _) fun _ =>
    settles_bind h fun _ => settles_bind (settles_expect _) fun _ => settles_pure _

/-- A group reads its parenthesis, which pays for the level of nesting inside. -/
theorem reads_group {expression : Parse Expr} (h : Settles n expression) :
    Reads (n + 1) (group expression) :=
  reads_bind (reads_expect (by decide)) fun _ =>
    settles_bind h fun _ => settles_bind (settles_expect _) fun _ => settles_pure _

theorem settles_argumentList {expression : Parse Expr} (h : Settles n expression) :
    Settles n (argumentList expression) :=
  settles_bind (settles_accept _) fun _ => settles_ite
    (settles_bind (settles_sepBy (by decide) h) fun _ =>
      settles_bind (settles_expect _) fun _ => settles_pure _)
    (settles_pure _)

theorem settles_arguments {expression : Parse Expr} (h : Settles n expression) (name : Token)
    (params : List ValueType) : Settles n (arguments expression name params) :=
  settles_bind (settles_argumentList h) fun _ => settles_ite (settles_pure _) (settles_fail _ _)

/-- The phrases that a name starts have expressions in them behind a bracket or a parenthesis only.
-/
theorem settles_named {expression : Parse Expr} (h : Settles n expression) (name : Token) :
    Settles n (named expression name) := by
  refine settles_bind (settles_resolve _) fun binding => ?_
  cases binding with
  | scalar => exact settles_pure _
  | array => exact settles_bind (settles_index h) fun _ => settles_pure _
  | function => exact settles_bind (settles_arguments h _ _) fun _ => settles_pure _
  | program => exact settles_fail _ _
  | procedure => exact settles_fail _ _

/-- A success that leaves fewer tokens leaves no more. -/
theorem leaves_of_leaves_pred {α : Type} {o : Outcome α} {k : Nat} (h : o.Leaves (k - 1)) :
    o.Leaves k := by
  cases o with
  | ok a q => exact Nat.le_trans h (Nat.sub_le ..)
  | error e q => trivial
  | exhausted => exact h

/-- One level of factors reads a token before it comes to a factor inside. -/
theorem settles_factorOf (n : Nat) (inner : Parse Expr) (h : Settles n inner) :
    Settles (n + 1) (factorOf inner) := by
  intro p hp
  unfold factorOf
  rw [bind_apply]
  simp only [current]
  cases hk : p.tokens.current.kind with
  | number => exact settles_bind settles_advance (fun _ => settles_literal _) p hp
  | identifier =>
    exact leaves_of_leaves_pred (leaves_advance_bind
      (fun name => settles_named (settles_expressionOf h) name) hp (by rw [hk]; decide))
  | eof => exact settles_unexpected _ p hp
  | punct sign =>
    cases sign with
    | lparen => exact (reads_group (settles_expressionOf h)).settles p hp
    | _ => exact settles_unexpected _ p hp
  | keyword word =>
    cases word with
    | not =>
      exact leaves_of_leaves_pred (leaves_advance_bind
        (fun _ => settles_bind h fun _ => settles_pure _) hp (by rw [hk]; decide))
    | _ => exact settles_unexpected _ p hp

theorem settles_factor : Settles n factor := settles_nest settles_factorOf

theorem settles_expression : Settles n expression := settles_expressionOf settles_factor

/-! ## Statements -/

/-- A place ends after its name or its index. -/
theorem settles_target (name : Token) : Settles n (target name) := by
  refine settles_bind (settles_resolve _) fun binding => ?_
  cases binding with
  | scalar => exact settles_pure _
  | array => exact settles_bind (settles_index settles_expression) fun _ => settles_pure _
  | function =>
    exact settles_bind (settles_isEnclosing _) fun _ =>
      settles_ite (settles_pure _) (settles_fail _ _)
  | program => exact settles_fail _ _
  | procedure => exact settles_fail _ _

theorem settles_procedure? (name : String) : Settles n (procedure? name) := by
  intro p _
  unfold procedure?
  split <;> exact Nat.le_refl _

theorem settles_callOrAssign : Settles n callOrAssign := by
  refine settles_bind (settles_expect _) fun name => settles_bind (settles_procedure? _) fun r => ?_
  cases r with
  | some params =>
    exact settles_bind (settles_arguments settles_expression _ _) fun _ => settles_pure _
  | none =>
    exact settles_bind (settles_target _) fun _ => settles_bind (settles_expect _) fun _ =>
      settles_bind settles_expression fun _ => settles_pure _

theorem steps_nextStatement? {statement : Parse Statement} (h : Settles n statement) :
    Steps n (nextStatement? statement) :=
  steps_accept (by decide) (settles_bind (settles_check _) fun _ =>
    settles_ite (settles_pure _) (settles_bind h fun _ => settles_pure _))

/-- A list of statements ends, for each further one is behind a semicolon. -/
theorem settles_statementList {statement : Parse Statement} (h : Settles n statement) :
    Settles n (statementList statement) :=
  settles_bind (settles_check _) fun _ => settles_ite (settles_pure _)
    (settles_bind h fun _ => settles_bind (settles_many (steps_nextStatement? h)) fun _ =>
      settles_pure _)

/-- A compound reads `begin` before it comes to its statements. -/
theorem settles_compoundOf {statement : Parse Statement} (h : Settles n statement) :
    Settles (n + 1) (compoundOf statement) :=
  (reads_bind (reads_expect (by decide)) fun _ => settles_bind (settles_statementList h) fun _ =>
    settles_bind (settles_expect _) fun _ => settles_pure _).settles

theorem settles_branchOf {statement : Parse Statement} (h : Settles n statement) :
    Settles (n + 1) (branchOf statement) :=
  (reads_bind (reads_expect (by decide)) fun _ => settles_bind settles_expression fun _ =>
    settles_bind (settles_expect _) fun _ => settles_bind h fun _ =>
      settles_bind (settles_expect _) fun _ => settles_bind h fun _ => settles_pure _).settles

theorem settles_loopOf {statement : Parse Statement} (h : Settles n statement) :
    Settles (n + 1) (loopOf statement) :=
  (reads_bind (reads_expect (by decide)) fun _ => settles_bind settles_expression fun _ =>
    settles_bind (settles_expect _) fun _ => settles_bind h fun _ => settles_pure _).settles

theorem settles_readStatement : Settles n readStatement :=
  settles_bind (settles_expect _) fun _ => settles_bind (settles_expect _) fun _ =>
    settles_bind (settles_expect _) fun _ => settles_bind (settles_target _) fun _ =>
      settles_bind (settles_expect _) fun _ => settles_pure _

theorem settles_writeStatement : Settles n writeStatement :=
  settles_bind (settles_expect _) fun _ =>
    settles_bind ((reads_group (settles_expression)).settles.mono (Nat.le_succ n)) fun _ =>
      settles_pure _

/-- One level of statements reads a token before it comes to a statement inside. -/
theorem settles_statementOf (n : Nat) (inner : Parse Statement) (h : Settles n inner) :
    Settles (n + 1) (statementOf inner) := by
  refine settles_bind settles_current fun token => ?_
  split
  · exact settles_callOrAssign
  · exact settles_bind (settles_compoundOf h) fun _ => settles_pure _
  · exact settles_branchOf h
  · exact settles_loopOf h
  · exact settles_readStatement
  · exact settles_writeStatement
  · exact settles_unexpected _

theorem settles_statement : Settles n statement := settles_nest settles_statementOf

theorem settles_compound : Settles n compound :=
  (settles_compoundOf settles_statement).mono (Nat.le_succ n)

/-! ## Declarations -/

theorem reads_names : Reads n names :=
  reads_bind_of_settles (reads_expect (by decide)) fun _ =>
    settles_bind (settles_many (steps_accept (by decide)
      (settles_bind (settles_expect _) fun _ => settles_pure _))) fun _ => settles_pure _

theorem settles_standardType : Settles n standardType :=
  settles_bind (settles_accept _) fun _ => settles_ite (settles_pure _)
    (settles_bind (settles_accept _) fun _ => settles_ite (settles_pure _) (settles_unexpected _))

/-- A bound ends after a sign and a number. -/
theorem settles_bound : Settles n bound := by
  refine settles_bind (settles_accept _) fun negative =>
    settles_bind (settles_expect _) fun number => ?_
  dsimp only
  split
  · exact settles_pure _
  · exact settles_fail _ _

theorem settles_declaredType : Settles n declaredType :=
  settles_bind (settles_accept _) fun _ => settles_ite
    (settles_bind (settles_expect _) fun _ => settles_bind settles_bound fun _ =>
      settles_bind (settles_expect _) fun _ => settles_bind settles_bound fun _ =>
        settles_bind (settles_expect _) fun _ => settles_bind (settles_expect _) fun _ =>
          settles_bind settles_standardType fun _ =>
            settles_ite (settles_pure _) (settles_fail _ _))
    (settles_bind settles_standardType fun _ => settles_pure _)

theorem settles_declareAll (binding : Binding) : ∀ names : List Token,
    Settles n (declareAll binding names)
  | [] => settles_pure _
  | _ :: rest => settles_bind (settles_declare _ _) fun _ => settles_declareAll binding rest

theorem reads_variableGroup : Reads n variableGroup :=
  reads_bind_of_settles reads_names fun _ => settles_bind (settles_expect _) fun _ =>
    settles_bind settles_declaredType fun _ => settles_bind (settles_expect _) fun _ =>
      settles_bind (settles_declareAll _ _) fun _ => settles_pure _

/-- A further group starts with a name, which it reads. -/
theorem steps_nextGroup? : Steps n nextGroup? := by
  refine steps_check_bind fun _ => ?_
  exact steps_ite (steps_of_reads
    (reads_bind_of_settles reads_variableGroup fun _ => settles_pure _))

theorem steps_variableSection? : Steps n variableSection? :=
  steps_accept (by decide) (settles_bind reads_variableGroup.settles fun _ =>
    settles_bind (settles_many steps_nextGroup?) fun _ => settles_pure _)

theorem settles_varSections : Settles n varSections :=
  settles_bind (settles_many steps_variableSection?) fun _ => settles_pure _

/-! ## Subprograms -/

theorem settles_parameterGroup : Settles n parameterGroup :=
  settles_bind reads_names.settles fun _ => settles_bind (settles_expect _) fun _ =>
    settles_bind settles_standardType fun _ => settles_pure _

theorem settles_parameters : Settles n parameters :=
  settles_bind (settles_accept _) fun _ => settles_ite
    (settles_bind (settles_sepBy (by decide) settles_parameterGroup) fun _ =>
      settles_bind (settles_expect _) fun _ => settles_pure _)
    (settles_pure _)

theorem settles_declareParameters : ∀ params : List (Token × ValueType),
    Settles n (declareParameters params)
  | [] => settles_pure _
  | _ :: rest => settles_bind (settles_declare _ _) fun _ => settles_declareParameters rest

/-- The kind of a subprogram is a word that is read. -/
theorem reads_routineKind : Reads n routineKind := by
  intro p hp
  unfold routineKind
  by_cases hk : p.tokens.current.kind = .keyword .function
  · have h := reads_accept_bind (n := n) (p := p) (show Kind.keyword .function ≠ .eof by decide)
      (f := fun b => if b = true then (pure .function : Parse RoutineKind) else do
        let _ ← expect (.keyword .procedure)
        pure .procedure) (by simpa using settles_pure _) (by omega) hk
    exact ⟨h.1, fun _ _ _ => h.2⟩
  · rw [bind_apply, accept_apply, if_neg hk]
    exact reads_bind_of_settles (reads_expect (by decide)) (fun _ => settles_pure _) p hp

theorem settles_declareRoutine (kind : RoutineKind) (name : Token) (params : List ValueType) :
    Settles n (declareRoutine kind name params) := by
  unfold declareRoutine
  cases kind with
  | function =>
    exact settles_bind (settles_expect _) fun _ => settles_bind settles_standardType fun _ =>
      settles_bind (settles_declare _ _) fun _ => settles_pure _
  | procedure => exact settles_bind (settles_declare _ _) fun _ => settles_pure _

theorem settles_openScope (name : String) : Settles n (openScope name) := fun _ _ => Nat.le_refl _

theorem settles_closeScope (name : String) : Settles n (closeScope name) := fun _ _ => Nat.le_refl _

/-- A further subprogram is behind its own first word. -/
theorem steps_nextSubprogram? {subprogram : Parse Subprogram} (h : Settles n subprogram) :
    Steps n (nextSubprogram? subprogram) :=
  steps_current_bind fun _ => steps_ite (steps_of_reads (reads_of_settles_bind h fun _ =>
    reads_bind_of_settles (reads_expect (by decide)) fun _ => settles_pure _))

/-- One level of subprograms reads a token before it comes to the subprograms inside. -/
theorem settles_subprogramOf (n : Nat) (inner : Parse Subprogram) (h : Settles n inner) :
    Settles (n + 1) (subprogramOf inner) :=
  (reads_bind reads_routineKind fun _ => settles_bind (settles_expect _) fun _ =>
    settles_bind settles_parameters fun _ => settles_bind (settles_declareRoutine _ _ _) fun _ =>
      settles_bind (settles_expect _) fun _ => settles_bind (settles_openScope _) fun _ =>
        settles_bind (settles_declareParameters _) fun _ =>
        settles_bind settles_varSections fun _ =>
          settles_bind (settles_many (steps_nextSubprogram? h)) fun _ =>
            settles_bind settles_compound fun _ => settles_bind (settles_closeScope _) fun _ =>
              settles_pure _).settles

theorem settles_subprogram : Settles n subprogram := settles_nest settles_subprogramOf

theorem settles_subprograms : Settles n subprograms :=
  settles_many (steps_nextSubprogram? settles_subprogram)

/-! ## Programs -/

/-- The parser of programs comes to an end from every state. -/
theorem settles_program : Settles n program :=
  settles_bind (settles_expect _) fun _ => settles_bind (settles_expect _) fun _ =>
    settles_bind (settles_expect _) fun _ => settles_bind (settles_declare _ _) fun _ =>
      settles_bind settles_varSections fun _ => settles_bind settles_subprograms fun _ =>
        settles_bind settles_compound fun _ => settles_bind (settles_expect _) fun _ =>
          settles_bind (settles_expect _) fun _ => settles_pure _

/-- Whatever the tokens, parsing a program comes to an end. -/
theorem program_ne_exhausted (p : Parser) : program p ≠ .exhausted := by
  intro h
  have := settles_program (n := p.tokens.size + 1) p (Nat.lt_succ_self _)
  rw [h] at this
  exact this

end PascalMips.Parse
