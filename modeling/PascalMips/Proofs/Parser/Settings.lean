import PascalMips.Program.Parser
import PascalMips.Proofs.Parser.Grammar
import PascalMips.Proofs.Symbol.Scopes

/-!
# Parsers in the words of the grammar

The rules of the grammar know names by what they are declared as; the symbol table of a parser also
numbers them and keeps the scopes of finished subprograms. `Parser.setting` forgets the rest. A name
means there what the table finds (`meaning?_setting`), and what the parser does to its table is what
the rules ask of the setting: `setting_declare?`, `setting_enter` and `setting_closeScope`.

The tests of the parser on single tokens are those of the rules as well: operators are looked up as
in the tables, and literals are checked alike.
-/

namespace PascalMips

open Grammar

/-! ## Scopes -/

namespace Scope

/-- What the names of a scope are declared as. -/
def entries (scope : Scope) : List (String × Binding) :=
  scope.map fun symbol => (symbol.name, symbol.binding)

theorem map_fst_entries (scope : Scope) : scope.entries.map Prod.fst = scope.names := by
  simp [entries, names]

/-- A name in a setting means what its symbol is bound to. -/
theorem lookup_entries (scope : Scope) (name : String) :
    scope.entries.lookup name = (scope.lookup? name).map Symbol.binding := by
  unfold lookup? entries
  induction scope with
  | nil => rfl
  | cons symbol rest ih =>
    rw [List.map_cons, List.lookup_cons, ih]
    by_cases h : symbol.name = name
    · simp [h]
    · have hne : (name == symbol.name) = false := beq_false_of_ne (Ne.symm h)
      simp [h, hne]

theorem entries_update {scope : Scope} {name : String} {change : Symbol → Symbol}
    (hname : ∀ symbol, (change symbol).name = symbol.name)
    (hbinding : ∀ symbol, (change symbol).binding = symbol.binding) :
    (scope.update name change).entries = scope.entries := by
  unfold entries update
  rw [List.map_map]
  refine List.map_congr_left fun symbol _ => ?_
  by_cases h : symbol.name = name
  · simp [h, hname, hbinding]
  · simp [h]

end Scope

namespace SymbolTable

/-- Changes to what symbols hold do not show in a setting. -/
theorem map_entries_updateIn {name : String} {change : Symbol → Symbol}
    (hname : ∀ symbol, (change symbol).name = symbol.name)
    (hbinding : ∀ symbol, (change symbol).binding = symbol.binding) (scopes : List Scope) :
    (updateIn name change scopes).map Scope.entries = scopes.map Scope.entries := by
  induction scopes with
  | nil => rfl
  | cons scope rest ih =>
    unfold updateIn
    split
    · rw [List.map_cons, List.map_cons, Scope.entries_update hname hbinding]
    · rw [List.map_cons, List.map_cons, ih]

/-- Attaching a scope to a subprogram changes no declaration. -/
theorem map_entries_attach? (t : SymbolTable) (name : String) (scope : Scope) :
    ((t.attach? name scope).getD t).scopes.map Scope.entries = t.scopes.map Scope.entries := by
  unfold attach?
  split
  · split
    · rw [Option.getD_some, scopes_update, map_entries_updateIn] <;> intro <;> rfl
    · rfl
  · rfl

end SymbolTable

/-! ## Parsers -/

/-- The setting that a parser has come to. -/
def Parser.setting (p : Parser) : Setting := ⟨p.symbols.scopes.map Scope.entries, p.enclosing⟩

namespace Parser

theorem scopes_setting (p : Parser) :
    p.setting.scopes = p.symbols.current.entries :: p.symbols.outer.map Scope.entries := by
  unfold setting
  rw [SymbolTable.scopes_eq, List.map_cons]

/-- The setting of a parser knows the names that its table does. -/
theorem meaning?_setting (p : Parser) (name : String) :
    p.setting.meaning? name = (p.symbols.lookup? name).map Symbol.binding := by
  unfold Setting.meaning? setting SymbolTable.lookup? SymbolTable.lookupWithDepth?
  induction p.symbols.scopes with
  | nil => rfl
  | cons scope rest ih =>
    simp only at ih ⊢
    rw [List.map_cons, List.findSome?_cons, Scope.lookup_entries, ih, SymbolTable.findIn]
    cases scope.lookup? name <;> rfl

/-- Declaring a name in the setting is declaring it in the table. -/
theorem setting_declare? (p : Parser) (name : String) (binding : Binding) :
    p.setting.declare? name binding = (p.symbols.declare? name binding).map fun symbols =>
      ({ p with symbols := symbols } : Parser).setting := by
  have hnames := Scope.map_fst_entries p.symbols.current
  unfold Setting.declare?
  rw [scopes_setting]
  cases h : p.symbols.declare? name binding with
  | none =>
    have hmem : name ∈ p.symbols.current.names := by
      rw [← Scope.declares_iff]
      by_contra hnew
      simp [SymbolTable.declare?, Scope.insert?, hnew] at h
    simp [hnames, hmem]
  | some symbols =>
    obtain ⟨hnew, -, hscopes⟩ := SymbolTable.of_declare? h
    simp only [hnames, if_neg hnew, Option.map_some, setting]
    simp [hscopes, Scope.entries]

theorem setting_enter (p : Parser) (name : String) :
    ({ p with symbols := p.symbols.enter, enclosing := name :: p.enclosing } : Parser).setting =
      p.setting.enter name :=
  rfl

end Parser

/-- The word that opens the head of a subprogram. -/
def RoutineKind.word : RoutineKind → Kind
  | function => .keyword .function
  | procedure => .keyword .procedure

namespace Parse

/-- Closing the scope of a subprogram brings back the setting in which it was opened. -/
theorem setting_closeScope {name : String} {p q : Parser} {a : Unit} {Γ : Setting}
    (h : closeScope name p = .ok a q) (hinside : (Γ.enter name).Extends p.setting)
    (hΓ : Γ.scopes ≠ []) : q.setting = Γ ∧ q.tokens = p.tokens := by
  have houter : p.symbols.outer.map Scope.entries = Γ.scopes :=
    (congrArg List.tail p.scopes_setting).symm.trans hinside.outer
  obtain ⟨around, rest, hscopes⟩ := List.exists_cons_of_ne_nil
    (List.map_eq_nil_iff.not.1 (houter ▸ hΓ))
  obtain ⟨t, hexit, ht, -⟩ := SymbolTable.exit?_of_outer hscopes
  have henclosing : p.enclosing = name :: Γ.enclosing := hinside.enclosing
  simp only [closeScope, hexit] at h
  cases h
  refine ⟨?_, rfl⟩
  unfold Parser.setting
  rw [SymbolTable.map_entries_attach?, ht, ← hscopes, houter, henclosing]
  rfl

/-! ## Tokens -/

/-- The kind of the next token. -/
def nextKind (ts : List Token) : Kind := (ts.head?.map Token.kind).getD .eof

theorem kind_current (s : TokenStream) : s.current.kind = nextKind s.pending := by
  unfold TokenStream.current nextKind
  cases s.pending <;> rfl

theorem pending_eq_cons {s : TokenStream} (h : s.current.kind ≠ .eof) :
    s.pending = s.current :: s.advance.pending := by
  unfold TokenStream.current TokenStream.advance at *
  cases hs : s.pending with
  | nil => simp [hs, TokenStream.stop] at h
  | cons t ts => rfl

/-! ## Operators and literals -/

theorem relation?_eq_some {kind : Kind} {op : BinaryOp} :
    relation? kind = some op ↔ (kind, op) ∈ relations := by
  unfold relation? relations
  split <;> simp_all [eq_comm]

theorem additive?_eq_some {kind : Kind} {op : BinaryOp} :
    additive? kind = some op ↔ (kind, op) ∈ additions := by
  unfold additive? additions
  split <;> simp_all [eq_comm]

theorem multiplicative?_eq_some {kind : Kind} {op : BinaryOp} :
    multiplicative? kind = some op ↔ (kind, op) ∈ multiplications := by
  unfold multiplicative? multiplications
  split <;> simp_all [eq_comm]

theorem isNumber_iff {text : String} : isNumber text = true ↔ IsLiteral text := by
  unfold isNumber IsLiteral ValueType.ofLiteral
  by_cases h : '.' ∈ text.toList
  · simp [h, Option.any_eq_true]
  · simp [h, Option.isSome_iff_exists]

end Parse

end PascalMips
