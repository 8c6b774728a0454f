import PascalMips.Program.Progress
import PascalMips.Proofs.Literal
import PascalMips.Proofs.Parser.Checked
import PascalMips.Proofs.Program.Declared

/-!
# What reading declarations does to the table

Declarations add symbols to the innermost scope, in the order of the text, and leave the scopes
around it alone (`Extends`; `Grows` where only names matter). A subprogram adds one symbol; what its
block declares ends up in the scope that this symbol holds. `subprogram_passes` follows the parser
through a subprogram: the states in front of its own subprograms and of its body, and how their
tables are made from the one before it. A program read from a text is declared in the table it
leaves (`declared_of_program`).
-/

namespace PascalMips

/-! ## Growing tables -/

namespace SymbolTable

/-- Every symbol of the open scopes has a number below the next one. -/
def Numbered (t : SymbolTable) : Prop := ∀ scope ∈ t.scopes, ∀ symbol ∈ scope, symbol.id < t.nextId

/-- The table `u` is `t` with symbols of the given names added to the innermost scope, numbered from
the next number of `t` on. -/
structure Grows (t : SymbolTable) (names : List String) (u : SymbolTable) : Prop where
  scopes : ∃ added : Scope, u.scopes = (t.current ++ added) :: t.outer ∧ added.names = names ∧
    ∀ symbol ∈ added, t.nextId ≤ symbol.id ∧ symbol.id < u.nextId
  nextId : t.nextId ≤ u.nextId
  wellFormed : t.WellFormed → u.WellFormed

/-- One growth after the other is one, with the names of both. -/
theorem Grows.trans {t u v : SymbolTable} {names names' : List String} (htu : t.Grows names u)
    (huv : u.Grows names' v) : t.Grows (names ++ names') v := by
  obtain ⟨added, hu, hnames, hids⟩ := htu.scopes
  obtain ⟨added', hv, hnames', hids'⟩ := huv.scopes
  have htu' := htu.nextId
  have huv' := huv.nextId
  refine ⟨⟨added ++ added', ?_, ?_, ?_⟩, by omega, huv.wellFormed ∘ htu.wellFormed⟩
  · rw [hv, current_eq hu, outer_eq hu, List.append_assoc]
  · rw [Scope.names_append, hnames, hnames']
  · intro symbol hs
    rcases List.mem_append.1 hs with hs | hs
    · have := hids symbol hs
      omega
    · have := hids' symbol hs
      omega

theorem Grows.outer {t u : SymbolTable} {names : List String} (h : t.Grows names u) :
    u.outer = t.outer := by
  obtain ⟨added, hu, -⟩ := h.scopes
  exact outer_eq hu

theorem Grows.names {t u : SymbolTable} {names : List String} (h : t.Grows names u) :
    u.current.names = t.current.names ++ names := by
  obtain ⟨added, hu, hnames, -⟩ := h.scopes
  rw [current_eq hu, Scope.names_append, hnames]

/-- New symbols have numbers below the new next one, so growth keeps tables numbered. -/
theorem Grows.numbered {t u : SymbolTable} {names : List String} (h : t.Grows names u)
    (ht : t.Numbered) : u.Numbered := by
  obtain ⟨added, hu, -, hids⟩ := h.scopes
  have hle := h.nextId
  intro scope hscope symbol hs
  rw [hu] at hscope
  have hold : ∀ old ∈ t.scopes, symbol ∈ old → symbol.id < u.nextId :=
    fun old hmem hs => Nat.lt_of_lt_of_le (ht old hmem symbol hs) hle
  rw [scopes_eq] at hold
  rcases List.mem_cons.1 hscope with rfl | hscope
  · rcases List.mem_append.1 hs with hs | hs
    · exact hold _ List.mem_cons_self hs
    · exact (hids symbol hs).2
  · exact hold scope (List.mem_cons_of_mem _ hscope) hs

theorem Numbered.empty : Numbered empty := by
  intro scope hscope
  cases List.mem_singleton.1 hscope
  exact nofun

theorem Numbered.enter {t : SymbolTable} (h : t.Numbered) : t.enter.Numbered :=
  List.forall_mem_cons.2 ⟨nofun, h⟩

/-- The table `u` is `t` with the symbols `added` at the end of the innermost scope; the numbers in
them are those from the next number of `t` on, in the order of the symbols. -/
structure Extends (t : SymbolTable) (added : Scope) (u : SymbolTable) : Prop where
  scopes : u.scopes = (t.current ++ added) :: t.outer
  numbers : added.ids = List.range' t.nextId (u.nextId - t.nextId)
  nextId : t.nextId ≤ u.nextId
  wellFormed : t.WellFormed → u.WellFormed

theorem Extends.nodup {t u : SymbolTable} {added : Scope} (h : t.Extends added u) :
    added.ids.Nodup := by
  rw [h.numbers]
  exact List.nodup_range'

/-- The new numbers are those between the next numbers before and after. -/
theorem Extends.ids {t u : SymbolTable} {added : Scope} (h : t.Extends added u) {id : Nat}
    (hid : id ∈ added.ids) : t.nextId ≤ id ∧ id < u.nextId := by
  have hnext := h.nextId
  rw [h.numbers, List.mem_range'_1] at hid
  omega

theorem Extends.refl (t : SymbolTable) : t.Extends [] t := by
  refine ⟨by rw [List.append_nil, ← scopes_eq], ?_, Nat.le_refl _, id⟩
  rw [Scope.ids_nil, Nat.sub_self]
  rfl

/-- One extension after the other is one. The numbers go on where the first one stopped. -/
theorem Extends.trans {t u v : SymbolTable} {added added' : Scope} (htu : t.Extends added u)
    (huv : u.Extends added' v) : t.Extends (added ++ added') v := by
  have htu' := htu.nextId
  have huv' := huv.nextId
  refine ⟨?_, ?_, by omega, huv.wellFormed ∘ htu.wellFormed⟩
  · rw [huv.scopes, current_eq htu.scopes, outer_eq htu.scopes, List.append_assoc]
  · have hmid : u.nextId = t.nextId + (u.nextId - t.nextId) := by omega
    have hlength : v.nextId - t.nextId = (u.nextId - t.nextId) + (v.nextId - u.nextId) := by omega
    rw [Scope.ids_append, htu.numbers, huv.numbers, hlength, ← List.range'_append_1, ← hmid]

/-- An extension is a growth by the names of its symbols. -/
theorem Extends.grows {t u : SymbolTable} {added : Scope} (h : t.Extends added u) :
    t.Grows added.names u :=
  ⟨⟨added, h.scopes, rfl, fun _ hs => h.ids (Scope.id_mem_ids hs)⟩, h.nextId, h.wellFormed⟩

/-- A declaration extends a table by one symbol. -/
theorem extends_of_declare? {t u : SymbolTable} {name : String} {binding : Binding}
    (h : t.declare? name binding = some u) :
    t.Extends [⟨t.nextId, name, binding, none⟩] u := by
  obtain ⟨-, hnext, hscopes⟩ := of_declare? h
  refine ⟨hscopes, ?_, by omega, fun hw => hw.of_declare? h⟩
  rw [Scope.ids_cons, Scope.ids_nil, Symbol.ids_of_none rfl, List.append_nil, hnext,
    Nat.add_sub_cancel_left]
  rfl

end SymbolTable

namespace Parse

variable {α β : Type}

/-! ## Parsers that declare names in the innermost scope -/

/-- A success of `x` adds symbols to the innermost scope, related to what it gives by `Q`, and opens
or closes no scope. -/
def Declares (x : Parse α) (Q : Scope → α → Prop) : Prop :=
  ∀ p a q, x p = .ok a q → ∃ added, p.symbols.Extends added q.symbols ∧
    q.enclosing = p.enclosing ∧ Q added a

theorem Declares.mono {x : Parse α} {Q R : Scope → α → Prop} (h : Declares x Q)
    (hQR : ∀ added a, Q added a → R added a) : Declares x R := by
  intro p a q hx
  obtain ⟨added, hextends, henclosing, ha⟩ := h p a q hx
  exact ⟨added, hextends, henclosing, hQR added a ha⟩

/-- A parser that leaves the table alone declares nothing. -/
theorem declares_of_gives {x : Parse α} {Q : α → Prop}
    (h : ∀ t enclosing, Gives t enclosing x Q) : Declares x fun added a => added = [] ∧ Q a := by
  intro p a q hx
  obtain ⟨hsymbols, henclosing, ha⟩ := h _ _ p a q rfl rfl hx
  exact ⟨[], hsymbols ▸ .refl _, henclosing, rfl, ha⟩

theorem declares_pure {a : α} {Q : Scope → α → Prop} (h : Q [] a) : Declares (pure a) Q := by
  intro p b q hx
  obtain ⟨rfl, rfl⟩ := pure_eq_ok.1 hx
  exact ⟨[], .refl _, rfl, h⟩

/-- One parser after the other declares the symbols of both, in this order. -/
theorem declares_bind {x : Parse α} {f : α → Parse β} {Q : Scope → α → Prop}
    {R : Scope → β → Prop} (hx : Declares x Q)
    (hf : ∀ added a, Q added a → Declares (f a) fun added' b => R (added ++ added') b) :
    Declares (x >>= f) R := by
  intro p b r h
  obtain ⟨a, q, hxa, hfb⟩ := bind_eq_ok.1 h
  obtain ⟨added, hextends, henclosing, ha⟩ := hx p a q hxa
  obtain ⟨added', hextends', henclosing', hb⟩ := hf added a ha q b r hfb
  exact ⟨added ++ added', hextends.trans hextends', henclosing'.trans henclosing, hb⟩

/-- A first step that declares nothing. -/
theorem declares_after {x : Parse α} {f : α → Parse β} {Q : α → Prop} {R : Scope → β → Prop}
    (hx : ∀ t enclosing, Gives t enclosing x Q) (hf : ∀ a, Q a → Declares (f a) R) :
    Declares (x >>= f) R := by
  refine declares_bind (declares_of_gives hx) fun added a ⟨hadded, ha⟩ => ?_
  subst hadded
  exact hf a ha

/-- Each round of a repetition adds its own symbols. -/
theorem declares_many {step : Parse (Option α)} {R : α → Scope → Prop}
    (h : Declares step fun added a? => (a? = none → added = []) ∧ ∀ a, a? = some a → R a added) :
    Declares (many step) fun added as =>
      ∃ parts, added = parts.flatten ∧ List.Forall₂ R as parts := by
  intro p as q hmany
  obtain ⟨r, hrounds, hend⟩ := rounds_of_many hmany
  clear hmany
  induction hrounds with
  | nil =>
    obtain ⟨added, hextends, henclosing, hnone, -⟩ := h _ _ _ hend
    exact ⟨added, hextends, henclosing, [], hnone rfl, .nil⟩
  | cons hstep _ ih =>
    obtain ⟨added, hextends, henclosing, -, hsome⟩ := h _ _ _ hstep
    obtain ⟨added', hextends', henclosing', parts, rfl, hparts⟩ := ih hend
    exact ⟨_, hextends.trans hextends', henclosing'.trans henclosing, added :: parts,
      List.flatten_cons.symm, .cons (hsome _ rfl) hparts⟩

/-- The symbol of a name that was just declared. -/
def Names (binding : Binding) (name : Token) (symbol : Symbol) : Prop :=
  symbol.name = name.lexeme ∧ symbol.locals = none ∧ symbol.binding = binding

/-- A declaration adds the symbol of its name. -/
theorem declares_declare (name : Token) (binding : Binding) :
    Declares (declare name binding) fun added _ =>
      ∃ symbol, added = [symbol] ∧ Names binding name symbol := by
  intro p a q h
  unfold declare at h
  split at h
  · next symbols hdeclare =>
    cases h
    exact ⟨_, SymbolTable.extends_of_declare? hdeclare, rfl, _, rfl, rfl, rfl, rfl⟩
  · cases h

/-! ## Variables -/

section Types

variable {t : SymbolTable} {enclosing : List String}

theorem gives_names : Gives t enclosing names fun _ => True :=
  (gives_sepBy (gives_expect _)).mono fun _ _ => trivial

theorem gives_standardType : Gives t enclosing standardType fun _ => True :=
  gives_bind (gives_accept _) fun _ _ => gives_ite (fun _ => gives_pure trivial) fun _ =>
    gives_bind (gives_accept _) fun _ _ => gives_ite (fun _ => gives_pure trivial) fun _ =>
      gives_unexpected

/-- A bound that is read is in range. -/
theorem gives_bound : Gives t enclosing bound Literal.InRange := by
  refine gives_bind (gives_accept _) fun negative _ =>
    gives_bind (gives_expect _) fun number _ => ?_
  dsimp only
  split
  · next hi => exact gives_pure (Literal.inRange_of_integer? hi)
  · exact gives_fail

/-- The bounds of an array type that is read are in range and in order. -/
theorem gives_declaredType : Gives t enclosing declaredType fun d =>
    ∀ bounds, d.bounds? = some bounds → bounds.Valid :=
  gives_bind (gives_accept _) fun _ _ => gives_ite
    (fun _ => gives_bind (gives_expect _) fun _ _ => gives_bind gives_bound fun _ hlo =>
      gives_bind (gives_expect _) fun _ _ => gives_bind gives_bound fun _ hhi =>
        gives_bind (gives_expect _) fun _ _ => gives_bind (gives_expect _) fun _ _ =>
          gives_bind gives_standardType fun _ _ => gives_ite
            (fun hle => gives_pure fun _ h => Option.some.inj h ▸ ⟨hle, hlo, hhi⟩)
            fun _ => gives_fail)
    (fun _ => gives_bind gives_standardType fun _ _ => gives_pure nofun)

theorem gives_parameters : Gives t enclosing parameters fun _ => True := by
  have hgroup : Gives t enclosing parameterGroup fun _ => True :=
    gives_bind gives_names fun _ _ => gives_bind (gives_expect _) fun _ _ =>
      gives_bind gives_standardType fun _ _ => gives_pure trivial
  exact gives_bind (gives_accept _) fun _ _ => gives_ite
    (fun _ => gives_bind (gives_sepBy hgroup) fun _ _ =>
      gives_bind (gives_expect _) fun _ _ => gives_pure trivial)
    (fun _ => gives_pure trivial)

theorem gives_routineKind : Gives t enclosing routineKind fun _ => True :=
  gives_bind (gives_accept _) fun _ _ => gives_ite (fun _ => gives_pure trivial) fun _ =>
    gives_bind (gives_expect _) fun _ _ => gives_pure trivial

end Types

/-- The names of a group are declared in their order, all bound alike. -/
theorem declares_declareAll (binding : Binding) (tokens : List Token) :
    Declares (declareAll binding tokens) fun added _ =>
      List.Forall₂ (Names binding) tokens added := by
  induction tokens with
  | nil => exact declares_pure .nil
  | cons name rest ih =>
    refine declares_bind (declares_declare name binding) fun _ _ ⟨symbol, hadded, hsymbol⟩ => ?_
    subst hadded
    exact ih.mono fun _ _ hrest => .cons hsymbol hrest

/-- The variables of a group are declared with its type. -/
theorem declares_of_names {d : DeclaredType} (hd : ∀ bounds, d.bounds? = some bounds → bounds.Valid)
    {tokens : List Token} {added : Scope} (h : List.Forall₂ (Names d.binding) tokens added) :
    List.Forall₂ Variable.Declares (tokens.map fun name => ⟨name.lexeme, d.type⟩) added := by
  rw [List.forall₂_map_left_iff]
  refine h.imp fun name symbol ⟨hname, hlocals, hbinding⟩ => ⟨hname, hlocals, ?_⟩
  unfold DeclaredType.binding at hbinding
  split at hbinding
  · exact .inl hbinding
  · next bounds hbounds => exact .inr ⟨bounds, hbinding, hd bounds hbounds⟩

/-- The variables of a group are those that its names are declared as. -/
theorem declares_variableGroup :
    Declares variableGroup fun added vars => List.Forall₂ Variable.Declares vars added := by
  refine declares_after (fun _ _ => gives_names) fun tokens _ => ?_
  refine declares_after (fun _ _ => gives_expect _) fun _ _ => ?_
  refine declares_after (fun _ _ => gives_declaredType) fun declared hdeclared => ?_
  refine declares_after (fun _ _ => gives_expect _) fun _ _ => ?_
  refine declares_bind (declares_declareAll declared.binding tokens) fun added _ hadded => ?_
  refine declares_pure ?_
  rw [List.append_nil]
  exact declares_of_names hdeclared hadded

/-- The variables of a block are declared one by one in the order of the text, over all sections and
groups. -/
theorem declares_varSections :
    Declares varSections fun added vars => List.Forall₂ Variable.Declares vars added := by
  have hgroup : Declares nextGroup? fun added vars? => (vars? = none → added = []) ∧
      ∀ vars, vars? = some vars → List.Forall₂ Variable.Declares vars added := by
    refine declares_after (fun _ _ => gives_check _) fun found _ => ?_
    cases found with
    | true =>
      refine declares_bind declares_variableGroup fun _ vars hvars => declares_pure ⟨nofun, ?_⟩
      rintro _ ⟨⟩
      rwa [List.append_nil]
    | false => exact declares_pure ⟨fun _ => rfl, nofun⟩
  have hsection : Declares variableSection? fun added vars? => (vars? = none → added = []) ∧
      ∀ vars, vars? = some vars → List.Forall₂ Variable.Declares vars added := by
    refine declares_after (fun _ _ => gives_accept _) fun found _ => ?_
    cases found with
    | true =>
      refine declares_bind declares_variableGroup fun _ first hfirst =>
        declares_bind (declares_many hgroup) fun _ others ⟨parts, hadded, hothers⟩ =>
          declares_pure ⟨nofun, ?_⟩
      rintro _ ⟨⟩
      rw [hadded, List.append_nil]
      exact List.rel_append hfirst (List.rel_flatten hothers)
    | false => exact declares_pure ⟨fun _ => rfl, nofun⟩
  refine declares_bind (declares_many hsection) fun _ sections ⟨parts, hadded, hsections⟩ =>
    declares_pure ?_
  rw [hadded, List.append_nil]
  exact List.rel_flatten hsections

/-- Parameters are declared one by one, each as a scalar of its type. -/
theorem declares_declareParameters (params : List (Token × ValueType)) :
    Declares (declareParameters params) fun added _ => List.Forall₂ Variable.DeclaresParam
      (params.map fun (name, type) => ⟨name.lexeme, type⟩) added := by
  induction params with
  | nil => exact declares_pure .nil
  | cons param rest ih =>
    refine declares_bind (declares_declare param.1 (.scalar param.2)) fun _ _ h => ?_
    obtain ⟨symbol, hadded, hname, hlocals, hbinding⟩ := h
    subst hadded
    exact ih.mono fun _ _ hrest => .cons ⟨hname, hlocals, hbinding⟩ hrest

/-! ## The head of a subprogram -/

/-- A subprogram up to its variables, its own scope opened. -/
def subprogramHead : Parse Subprogram := do
  let kind ← routineKind
  let name ← expect .identifier
  let params ← parameters
  let returns ← declareRoutine kind name (params.map Prod.snd)
  let _ ← expect (.punct .semicolon)
  openScope name.lexeme
  declareParameters params
  let vars ← varSections
  return {
    kind := kind
    name := name.lexeme
    returns := returns
    args := params.map fun (param, type) => ⟨param.lexeme, type⟩
    vars := vars
    subprograms := []
    body := []
    location := name.location }

/-- A subprogram is its head, its subprograms and its body. -/
theorem subprogramOf_eq (inner : Parse Subprogram) :
    subprogramOf inner = do
      let s ← subprogramHead
      let subs ← many (nextSubprogram? inner)
      let body ← compound
      closeScope s.name
      return { s with subprograms := subs, body := body } := by
  simp only [subprogramOf, subprogramHead, bind_assoc, pure_bind]

/-- A success of the declaration of a subprogram binds its name to what its kind, parameters and
type make up. -/
theorem of_declareRoutine {kind : RoutineKind} {name : Token} {args : List Variable}
    {p q : Parser} {returns : Option ValueType}
    (h : declareRoutine kind name (args.map Variable.type) p = .ok returns q) :
    ∃ binding, kind.Binds returns args binding ∧ q.enclosing = p.enclosing ∧
      p.symbols.declare? name.lexeme binding = some q.symbols := by
  have of_declare : ∀ {binding p q a}, declare name binding p = .ok a q →
      q.enclosing = p.enclosing ∧ p.symbols.declare? name.lexeme binding = some q.symbols := by
    intro binding p q a h
    unfold declare at h
    split at h
    · next symbols hdeclare =>
      cases h
      exact ⟨rfl, hdeclare⟩
    · cases h
  cases kind with
  | function =>
    obtain ⟨_, p₁, hcolon, h⟩ := bind_eq_ok.1 h
    obtain ⟨returns', p₂, htype, h⟩ := bind_eq_ok.1 h
    obtain ⟨_, p₃, hdeclare, h⟩ := bind_eq_ok.1 h
    obtain ⟨rfl, rfl⟩ := pure_eq_ok.1 h
    obtain ⟨hs₁, he₁, -⟩ := gives_expect _ p _ _ rfl rfl hcolon
    obtain ⟨hs₂, he₂, -⟩ := gives_standardType p₁ _ _ hs₁ he₁ htype
    obtain ⟨he, hs⟩ := of_declare hdeclare
    exact ⟨_, ⟨returns', rfl, rfl⟩, he.trans he₂, hs₂ ▸ hs⟩
  | procedure =>
    obtain ⟨_, p₁, hdeclare, h⟩ := bind_eq_ok.1 h
    obtain ⟨rfl, rfl⟩ := pure_eq_ok.1 h
    obtain ⟨he, hs⟩ := of_declare hdeclare
    exact ⟨_, ⟨rfl, rfl⟩, he, hs⟩

/-- What the head of a subprogram does to the table: the name is declared, as a subprogram, and then
the parameters and variables in a scope of their own. -/
theorem of_subprogramHead {p d : Parser} {s : Subprogram} (h : subprogramHead p = .ok s d) :
    ∃ u binding params locals, s.kind.Binds s.returns s.args binding ∧
      p.symbols.declare? s.name binding = some u ∧ u.enter.Extends (params ++ locals) d.symbols ∧
      List.Forall₂ Variable.DeclaresParam s.args params ∧
      List.Forall₂ Variable.Declares s.vars locals ∧
      d.enclosing = s.name :: p.enclosing ∧ s = { s with subprograms := [], body := [] } := by
  obtain ⟨kind, p₁, hkind, h⟩ := bind_eq_ok.1 h
  obtain ⟨name, p₂, hname, h⟩ := bind_eq_ok.1 h
  obtain ⟨params, p₃, hparams, h⟩ := bind_eq_ok.1 h
  obtain ⟨returns, p₄, hreturns, h⟩ := bind_eq_ok.1 h
  obtain ⟨_, p₅, hsemicolon, h⟩ := bind_eq_ok.1 h
  obtain ⟨_, p₆, hopen, h⟩ := bind_eq_ok.1 h
  obtain ⟨_, p₇, hdeclare, h⟩ := bind_eq_ok.1 h
  obtain ⟨vars, p₈, hvars, h⟩ := bind_eq_ok.1 h
  obtain ⟨rfl, rfl⟩ := pure_eq_ok.1 h
  obtain ⟨hs₁, he₁, -⟩ := gives_routineKind p _ _ rfl rfl hkind
  obtain ⟨hs₂, he₂, -⟩ := gives_expect _ p₁ _ _ hs₁ he₁ hname
  obtain ⟨hs₃, he₃, -⟩ := gives_parameters p₂ _ _ hs₂ he₂ hparams
  have htypes : params.map Prod.snd =
      (params.map fun (name, type) => Variable.mk name.lexeme type).map Variable.type := by
    rw [List.map_map]
    rfl
  rw [htypes] at hreturns
  obtain ⟨binding, hbinds, he₄, hs₄⟩ := of_declareRoutine hreturns
  obtain ⟨hs₅, he₅, -⟩ := gives_expect _ p₄ _ _ rfl rfl hsemicolon
  cases hopen
  obtain ⟨added, hextends₇, he₇, hargs⟩ := declares_declareParameters params _ _ _ hdeclare
  obtain ⟨added', hextends₈, he₈, hlocals⟩ := declares_varSections _ _ _ hvars
  refine ⟨p₄.symbols, binding, added, added', hbinds, hs₃ ▸ hs₄, ?_, hargs, hlocals, ?_, rfl⟩
  · have := hextends₇.trans hextends₈
    rwa [hs₅] at this
  · rw [he₈, he₇, he₅, he₄, he₃]

end Parse

/-! ## Subprograms -/

/-- The names that the block of a subprogram declares: its parameters, its variables and its own
subprograms. -/
def Subprogram.declared (s : Subprogram) : List String :=
  s.args.map Variable.name ++ s.vars.map Variable.name ++ s.subprograms.map Subprogram.name

namespace Parse

/-- The way of the parser `p` through the subprogram `s` to `q`, over the subprograms that `inner`
reads: it comes to `front` in front of the subprograms in the block and to `body` in front of the
body, and declares `symbol`. -/
structure Passes (inner : Parse Subprogram) (s : Subprogram) (p front body q : Parser)
    (symbol : Symbol) : Prop where
  head : subprogramHead p = .ok { s with subprograms := [], body := [] } front
  subprograms : many (nextSubprogram? inner) front = .ok s.subprograms body
  statements : ∃ rest, compound body = .ok s.body rest
  heads : s.Heads symbol
  id : symbol.id = p.symbols.nextId
  locals : symbol.locals = none
  fresh : s.name ∉ p.symbols.current.names
  block : ∃ params locals routines, body.symbols.current = params ++ (locals ++ routines) ∧
    Subprogram.BlockOf s.args s.vars s.subprograms params locals routines
  bodyNumbers : body.symbols.current.ids =
    List.range' (p.symbols.nextId + 1) (body.symbols.nextId - (p.symbols.nextId + 1))
  bodyOuter : body.symbols.outer = (p.symbols.current ++ [symbol]) :: p.symbols.outer
  bodyNext : p.symbols.nextId < body.symbols.nextId
  frontFormed : p.symbols.WellFormed → front.symbols.WellFormed
  frontNumbered : p.symbols.Numbered → front.symbols.Numbered
  bodyFormed : front.symbols.WellFormed → body.symbols.WellFormed
  scopes : q.symbols.scopes =
    (p.symbols.current ++ [{ symbol with locals := some body.symbols.current }]) :: p.symbols.outer
  nextId : q.symbols.nextId = body.symbols.nextId
  enclosing : q.enclosing = p.enclosing

/-- Closing the scope of a subprogram that the scope around it declares last. -/
theorem of_closeScope {p q : Parser} (symbol : Symbol) {around : Scope} {rest : List Scope}
    (h : closeScope symbol.name p = .ok () q)
    (hscopes : p.symbols.outer = (around ++ [symbol]) :: rest)
    (hfresh : symbol.name ∉ around.names) (hroutine : symbol.binding.isRoutine = true) :
    q.symbols.scopes = (around ++ [{ symbol with locals := some p.symbols.current }]) :: rest ∧
      q.symbols.nextId = p.symbols.nextId ∧ q.enclosing = p.enclosing.tail := by
  obtain ⟨u, hexit, hu, hunext⟩ := SymbolTable.exit?_of_outer hscopes
  have hnone : symbol.name ∉ Scope.names [] := nofun
  obtain ⟨v, hattach, hvnext, hv⟩ :=
    SymbolTable.attach?_innermost p.symbols.current hu hfresh hnone hroutine
  unfold closeScope at h
  rw [hexit] at h
  simp only [hattach, Option.getD_some] at h
  cases h
  exact ⟨hv, hvnext.trans hunext, rfl⟩

/-- A subprogram adds one symbol, its own. -/
def AddsRoutine (s : Subprogram) (added : Scope) : Prop :=
  ∃ symbol, added = [symbol] ∧ s.Declares symbol

/-- A further subprogram adds its symbol, and none adds nothing. -/
theorem declares_nextSubprogram? {inner : Parse Subprogram}
    (h : Declares inner fun added s => AddsRoutine s added) :
    Declares (nextSubprogram? inner) fun added s? =>
      (s? = none → added = []) ∧ ∀ s, s? = some s → AddsRoutine s added := by
  refine declares_after (fun _ _ => gives_current) fun token _ => ?_
  dsimp only
  split
  · refine declares_bind h fun added s hs => ?_
    refine declares_after (fun _ _ => gives_expect _) fun _ _ => declares_pure ⟨nofun, ?_⟩
    rintro _ ⟨⟩
    rwa [List.append_nil]
  · exact declares_pure ⟨fun _ => rfl, nofun⟩

theorem forall₂_of_addsRoutine {ss : List Subprogram} {parts : List Scope}
    (h : List.Forall₂ AddsRoutine ss parts) :
    List.Forall₂ Subprogram.Declares ss parts.flatten := by
  induction h with
  | nil => exact .nil
  | cons hs _ ih =>
    obtain ⟨symbol, rfl, hdeclares⟩ := hs
    exact .cons hdeclares ih

/-- A success of one level of subprograms is a way through the subprogram. Each part is taken from
the run of the parser: the head opens a scope, the subprograms inside extend it, the body leaves it,
and closing it gives it to the symbol. -/
theorem passes_of_subprogramOf {inner : Parse Subprogram}
    (hinner : Declares inner fun added s => AddsRoutine s added) {p q : Parser} {s : Subprogram}
    (h : subprogramOf inner p = .ok s q) :
    ∃ front body symbol, Passes inner s p front body q symbol := by
  rw [subprogramOf_eq] at h
  obtain ⟨head, front, hhead, h⟩ := bind_eq_ok.1 h
  obtain ⟨subs, body, hsubs, h⟩ := bind_eq_ok.1 h
  obtain ⟨statements, rest, hbody, h⟩ := bind_eq_ok.1 h
  obtain ⟨_, q', hclose, h⟩ := bind_eq_ok.1 h
  obtain ⟨rfl, rfl⟩ := pure_eq_ok.1 h
  obtain ⟨u, binding, params, locals, hbinds, hdeclare, hfront, hparams, hlocals, hefront,
    hempty⟩ := of_subprogramHead hhead
  obtain ⟨routines, hextends, hebody, parts, hroutines, hparts⟩ :=
    declares_many (declares_nextSubprogram? hinner) _ _ _ hsubs
  obtain ⟨hsrest, herest, -⟩ := gives_compound body _ _ rfl rfl hbody
  obtain ⟨hfresh, hunext, huscopes⟩ := SymbolTable.of_declare? hdeclare
  have hu := SymbolTable.extends_of_declare? hdeclare
  have hblock := hfront.trans hextends
  have hscope : body.symbols.current = params ++ (locals ++ routines) := by
    rw [SymbolTable.current_eq hblock.scopes, List.append_assoc]
    rfl
  have houter : body.symbols.outer = u.scopes := SymbolTable.outer_eq hblock.scopes
  have hnext : u.nextId ≤ body.symbols.nextId := hblock.nextId
  obtain ⟨hscopes, hqnext, hqenclosing⟩ := of_closeScope
    ⟨p.symbols.nextId, head.name, binding, none⟩ hclose
    (by rw [hsrest, houter, huscopes]) hfresh hbinds.isRoutine
  rw [hsrest] at hscopes hqnext
  refine ⟨front, body, _, {
    head := hhead.trans (by rw [hempty])
    subprograms := hsubs
    statements := ⟨rest, hbody⟩
    heads := ⟨rfl, hbinds⟩
    id := rfl
    locals := rfl
    fresh := hfresh
    block := ⟨params, locals, routines, hscope, hparams, hlocals,
      hroutines ▸ forall₂_of_addsRoutine hparts⟩
    bodyNumbers := ?_
    bodyOuter := houter.trans huscopes
    bodyNext := by omega
    frontFormed := fun hw => hfront.wellFormed ((hu.wellFormed hw).push .nil)
    frontNumbered := fun hn => hfront.grows.numbered (hu.grows.numbered hn).enter
    bodyFormed := hextends.wellFormed
    scopes := hscopes
    nextId := hqnext
    enclosing := by rw [hqenclosing, herest, hebody, hefront]; rfl }⟩
  rw [hscope, ← List.append_assoc, hblock.numbers, ← hunext]
  rfl

section Passes

variable {inner : Parse Subprogram} {s : Subprogram} {p front body q : Parser} {symbol : Symbol}

/-- The symbol that the way ends with holds the scope of the block. -/
theorem Passes.declares (h : Passes inner s p front body q symbol) :
    s.Declares { symbol with locals := some body.symbols.current } := by
  obtain ⟨params, locals, routines, hscope, hblock⟩ := h.block
  exact Subprogram.declares_iff.2 ⟨⟨h.heads.name, h.heads.binding⟩, params, locals, routines,
    congrArg some hscope, hblock⟩

/-- In front of the body, the innermost scope has the names of the block. -/
theorem Passes.bodyNames (h : Passes inner s p front body q symbol) :
    body.symbols.current.names = s.declared := by
  obtain ⟨params, locals, routines, hscope, hblock⟩ := h.block
  rw [hscope, Scope.names_append, Scope.names_append,
    Scope.names_of_forall₂ (fun _ _ h => h.name) hblock.params,
    Scope.names_of_forall₂ (fun _ _ h => h.name) hblock.locals,
    Scope.names_of_forall₂ (fun _ _ h => h.heads.name) hblock.routines, ← List.append_assoc]
  rfl

/-- A subprogram adds its symbol to the scope that it is declared in. -/
theorem Passes.extends (h : Passes inner s p front body q symbol) :
    p.symbols.Extends [{ symbol with locals := some body.symbols.current }] q.symbols := by
  have hid := h.id
  have hnext := h.bodyNext
  have hqnext := h.nextId
  refine ⟨h.scopes, ?_, by omega, fun hw => ?_⟩
  · have hlength : q.symbols.nextId - p.symbols.nextId =
        (body.symbols.nextId - (p.symbols.nextId + 1)) + 1 := by omega
    rw [Scope.ids_cons, Scope.ids_nil, Symbol.ids_of_some rfl, List.append_nil, h.bodyNumbers, hid,
      hlength, List.range'_succ]
  · have hbody := h.bodyFormed (h.frontFormed hw)
    unfold SymbolTable.WellFormed at hw hbody ⊢
    rw [SymbolTable.scopes_eq] at hw hbody
    rw [h.scopes]
    refine List.forall_mem_cons.2 ⟨?_, (List.forall_mem_cons.1 hw).2⟩
    refine (List.forall_mem_cons.1 hw).1.append_singleton (h.heads.name ▸ h.fresh) ?_ ?_
    · exact fun _ _ => h.heads.isRoutine
    · intro inner hinner
      exact Option.some.inj hinner ▸ (List.forall_mem_cons.1 hbody).1

end Passes

/-- Subprograms of any depth add one symbol each, by induction on the budget of nesting. -/
theorem declares_nestWithin_subprogramOf (budget : Nat) :
    Declares (nestWithin subprogramOf budget) fun added s => AddsRoutine s added := by
  induction budget with
  | zero => exact fun _ _ _ => nofun
  | succ budget ih =>
    intro p s q h
    obtain ⟨front, body, symbol, hpasses⟩ := passes_of_subprogramOf ih h
    exact ⟨_, hpasses.extends, hpasses.enclosing, _, rfl, hpasses.declares⟩

theorem declares_subprogram : Declares subprogram fun added s => AddsRoutine s added :=
  fun p s q h => declares_nestWithin_subprogramOf _ p s q h

theorem refines_subprogramOf {x y : Parse Subprogram} (h : Refines x y) :
    Refines (subprogramOf x) (subprogramOf y) :=
  related_subprogramOf congruence_refines h

theorem subprogram_eq : subprogram = subprogramOf subprogram :=
  nest_eq refines_subprogramOf settles_subprogramOf

/-- The way of the parser through a subprogram. -/
theorem subprogram_passes {p q : Parser} {s : Subprogram} (h : subprogram p = .ok s q) :
    ∃ front body symbol, Passes subprogram s p front body q symbol := by
  rw [subprogram_eq] at h
  exact passes_of_subprogramOf declares_subprogram h

/-- A further subprogram is one that was read, with a semicolon. -/
theorem of_nextSubprogram? {p q : Parser} {s : Subprogram}
    (h : nextSubprogram? subprogram p = .ok (some s) q) :
    ∃ r, subprogram p = .ok s r ∧ r.symbols = q.symbols := by
  obtain ⟨token, p', hcurrent, h⟩ := bind_eq_ok.1 h
  cases hcurrent
  split at h
  · obtain ⟨s', r, hs, h⟩ := bind_eq_ok.1 h
    obtain ⟨_, r', hsemicolon, h⟩ := bind_eq_ok.1 h
    obtain ⟨heq, rfl⟩ := pure_eq_ok.1 h
    cases heq
    obtain ⟨hsymbols, -⟩ := gives_expect _ r _ _ rfl rfl hsemicolon
    exact ⟨r, hs, hsymbols.symm⟩
  · cases h

/-- Subprograms add their symbols to the scope that they are declared in. -/
theorem extends_of_rounds {p q : Parser} {ss : List Subprogram}
    (h : Rounds (nextSubprogram? subprogram) p ss q) :
    ∃ routines, p.symbols.Extends routines q.symbols ∧
      List.Forall₂ Subprogram.Declares ss routines := by
  induction h with
  | nil => exact ⟨[], .refl _, .nil⟩
  | cons hstep _ ih =>
    obtain ⟨added, hextends, -, -, hadded⟩ :=
      declares_nextSubprogram? declares_subprogram _ _ _ hstep
    obtain ⟨symbol, rfl, hdeclares⟩ := hadded _ rfl
    obtain ⟨routines, hextends', hroutines⟩ := ih
    exact ⟨_, hextends.trans hextends', .cons hdeclares hroutines⟩

/-- Subprograms that are read one after the other add their names. -/
theorem grows_of_rounds {p q : Parser} {ss : List Subprogram}
    (h : Rounds (nextSubprogram? subprogram) p ss q) :
    p.symbols.Grows (ss.map Subprogram.name) q.symbols := by
  obtain ⟨routines, hextends, hroutines⟩ := extends_of_rounds h
  rw [← Scope.names_of_forall₂ (fun _ _ h => h.heads.name) hroutines]
  exact hextends.grows

/-- The parser comes to a subprogram after those before it, and the symbols of those after it follow
the symbol of the subprogram. -/
theorem passes_of_rounds {p q : Parser} {s : Subprogram} {before after : List Subprogram}
    (h : Rounds (nextSubprogram? subprogram) p (before ++ s :: after) q) :
    ∃ (start front body rest : Parser) (symbol : Symbol) (later : Scope),
      Rounds (nextSubprogram? subprogram) p before start ∧
      Passes subprogram s start front body rest symbol ∧
      q.symbols.scopes = (start.symbols.current ++
        { symbol with locals := some body.symbols.current } :: later) :: start.symbols.outer ∧
      later.names = after.map Subprogram.name ∧
      (∀ symbol ∈ later, body.symbols.nextId ≤ symbol.id) ∧
      body.symbols.nextId ≤ q.symbols.nextId := by
  obtain ⟨start, hbefore, h⟩ := h.split
  obtain ⟨r, hstep, hafter⟩ := h.uncons
  obtain ⟨rest, hsub, hsymbols⟩ := of_nextSubprogram? hstep
  obtain ⟨front, body, symbol, hpasses⟩ := subprogram_passes hsub
  have hgrows := grows_of_rounds hafter
  rw [← hsymbols] at hgrows
  obtain ⟨later, hscopes, hnames, hids⟩ := hgrows.scopes
  have hnext := hgrows.nextId
  rw [hpasses.nextId] at hnext hids
  rw [SymbolTable.current_eq hpasses.scopes, SymbolTable.outer_eq hpasses.scopes,
    List.append_assoc, List.singleton_append] at hscopes
  exact ⟨start, front, body, rest, symbol, later, hbefore, hpasses, hscopes, hnames,
    fun symbol hs => (hids symbol hs).1, hnext⟩

/-- After the last subprogram the parser has not moved. -/
theorem rounds_of_subprograms {p q : Parser} {ss : List Subprogram}
    (h : subprograms p = .ok ss q) : Rounds (nextSubprogram? subprogram) p ss q := by
  obtain ⟨r, hrounds, hend⟩ := rounds_of_many h
  obtain ⟨token, r', hcurrent, hend⟩ := bind_eq_ok.1 hend
  cases hcurrent
  split at hend
  · obtain ⟨_, _, _, hend⟩ := bind_eq_ok.1 hend
    obtain ⟨_, _, _, hend⟩ := bind_eq_ok.1 hend
    cases hend
  · cases hend
    exact hrounds

/-! ## Programs -/

/-- A program up to its variables. -/
def programHead : Parse Program := do
  let _ ← expect (.keyword .program)
  let name ← expect .identifier
  let _ ← expect (.punct .semicolon)
  declare name .program
  let vars ← varSections
  return {
    name := name.lexeme
    vars := vars
    subprograms := []
    body := []
    location := name.location }

theorem program_eq :
    program = do
      let head ← programHead
      let subs ← subprograms
      let body ← compound
      let _ ← expect (.punct .period)
      let _ ← expect .eof
      return { head with subprograms := subs, body := body } := by
  simp only [program, programHead, bind_assoc, pure_bind]

/-- The head of a program declares the program and its variables. -/
theorem declares_programHead : Declares programHead fun added p =>
    ∃ own vars, added = own :: vars ∧ (own.name = p.name ∧ own.binding = .program ∧
      own.locals = none) ∧ List.Forall₂ Variable.Declares p.vars vars := by
  refine declares_after (fun _ _ => gives_expect _) fun _ _ => ?_
  refine declares_after (fun _ _ => gives_expect _) fun name _ => ?_
  refine declares_after (fun _ _ => gives_expect _) fun _ _ => ?_
  refine declares_bind (declares_declare name .program) fun _ _ ⟨own, hown, hname⟩ => ?_
  refine declares_bind declares_varSections fun vars _ hvars => declares_pure ?_
  obtain ⟨hname, hlocals, hbinding⟩ := hname
  exact ⟨own, vars, by rw [hown, List.append_nil]; rfl, ⟨hname, hbinding, hlocals⟩, hvars⟩

/-- The way of the parser through a program: the states in front of its subprograms and of its body.
The table stays as it is after the subprograms. -/
theorem of_program {p q : Parser} {program : Program} (h : Parse.program p = .ok program q) :
    ∃ head front body rest, programHead p = .ok head front ∧
      subprograms front = .ok program.subprograms body ∧ compound body = .ok program.body rest ∧
        q.symbols = body.symbols ∧ program.name = head.name ∧ program.vars = head.vars := by
  rw [program_eq] at h
  obtain ⟨head, front, hhead, h⟩ := bind_eq_ok.1 h
  obtain ⟨subs, body, hsubs, h⟩ := bind_eq_ok.1 h
  obtain ⟨statements, rest, hbody, h⟩ := bind_eq_ok.1 h
  obtain ⟨_, r, hperiod, h⟩ := bind_eq_ok.1 h
  obtain ⟨_, r', hend, h⟩ := bind_eq_ok.1 h
  obtain ⟨rfl, rfl⟩ := pure_eq_ok.1 h
  obtain ⟨hs, he, -⟩ := gives_compound body _ _ rfl rfl hbody
  obtain ⟨hs', he', -⟩ := gives_expect _ rest _ _ hs he hperiod
  obtain ⟨hs'', -⟩ := gives_expect _ r _ _ hs' he' hend
  exact ⟨head, front, body, rest, hhead, hsubs, hbody, hs'', rfl, rfl⟩

/-- A program adds its own symbol and those of its variables and subprograms. -/
theorem extends_of_program {p q : Parser} {program : Program}
    (h : Parse.program p = .ok program q) :
    ∃ own vars routines, p.symbols.Extends (own :: (vars ++ routines)) q.symbols ∧
      program.Declares own vars routines := by
  obtain ⟨head, front, body, rest, hhead, hsubs, -, hsymbols, hname, hvars⟩ := of_program h
  obtain ⟨_, hfront, -, own, vars, rfl, hown, hdeclared⟩ := declares_programHead p head front hhead
  obtain ⟨routines, hextends, hroutines⟩ := extends_of_rounds (rounds_of_subprograms hsubs)
  refine ⟨own, vars, routines, ?_, ⟨hname ▸ hown, hvars ▸ hdeclared, hroutines⟩⟩
  rw [hsymbols]
  exact hfront.trans hextends

/-- A program that was read is declared in the table. -/
theorem declared_of_program {p q : Parser} {program : Program}
    (h : Parse.program p = .ok program q) (hp : p.symbols = .empty) :
    ∃ own vars routines, q.symbols.scopes = [own :: (vars ++ routines)] ∧
      program.Declares own vars routines ∧ q.symbols.WellFormed ∧ q.symbols.Distinct := by
  obtain ⟨own, vars, routines, hextends, hdeclares⟩ := extends_of_program h
  rw [hp] at hextends
  have hscopes : q.symbols.scopes = [own :: (vars ++ routines)] := hextends.scopes
  refine ⟨own, vars, routines, hscopes, hdeclares, hextends.wellFormed .empty, ?_⟩
  unfold SymbolTable.Distinct SymbolTable.ids
  rw [hscopes, List.flatMap_singleton]
  exact hextends.nodup

end Parse

end PascalMips
