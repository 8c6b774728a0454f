import PascalMips.Program.Source
import PascalMips.Proofs.Program.Reading
import PascalMips.Proofs.Program.Writing

/-!
# Names resolve alike when a program is read and when it is written

A parser reads the body of a block with scopes that are still growing: the subprograms after the
block are not declared yet. The generator writes the same body with the finished scopes. The two
stacks differ by those later subprograms alone (`Grown`), so a name means the same to both unless
one of them takes it in a scope inside the one where the parser had found it (`Nesting.Hides`).

A block of a program is given by its nesting, from the inside out. `Parse.toBody` and
`Generator.aroundBody?` follow the parser and the generator to its body.
-/

namespace PascalMips

/-! ## Blocks of a program -/

/-- A subprogram and its siblings: those declared before it and after it in the same block. -/
structure Level where
  before : List Subprogram
  sub : Subprogram
  after : List Subprogram

/-- The subprograms that a block is nested in, its own first. The block of the program itself is
nested in none. -/
abbrev Nesting := List Level

namespace Nesting

/-- The names of the subprograms that a block is nested in, the outermost first. -/
def path : Nesting → List String
  | [] => []
  | level :: outer => path outer ++ [level.sub.name]

/-- The name `x`, read in a block before the subprograms `later` of that block, comes to be hidden:
one of them takes it, or the block does not declare it and it comes to be hidden around the block,
where the subprograms after this one are still to follow. Around the block of the program there is
nothing to hide. -/
def Hides (x : String) : List Subprogram → Nesting → Prop
  | _, [] => False
  | later, level :: outer =>
    x ∈ later.map Subprogram.name ∨ x ∉ level.sub.declared ∧ Hides x level.after outer

instance decidableHides (x : String) : ∀ later n, Decidable (Hides x later n)
  | _, [] => .isFalse id
  | later, level :: outer =>
    have := decidableHides x level.after outer
    inferInstanceAs (Decidable
      (x ∈ later.map Subprogram.name ∨ x ∉ level.sub.declared ∧ Hides x level.after outer))

end Nesting

namespace Program

/-- The subprograms declared in a block. -/
def subprogramsAt (p : Program) : Nesting → List Subprogram
  | [] => p.subprograms
  | level :: _ => level.sub.subprograms

/-- The body of a block. -/
def bodyAt (p : Program) : Nesting → List Statement
  | [] => p.body
  | level :: _ => level.sub.body

/-- The program has a block that is nested so. -/
def Has (p : Program) : Nesting → Prop
  | [] => True
  | level :: outer =>
    p.subprogramsAt outer = level.before ++ level.sub :: level.after ∧ p.Has outer

instance decidableHas (p : Program) : ∀ n, Decidable (p.Has n)
  | [] => .isTrue trivial
  | level :: outer =>
    have := decidableHas p outer
    inferInstanceAs (Decidable
      (p.subprogramsAt outer = level.before ++ level.sub :: level.after ∧ p.Has outer))

end Program

/-! ## The way to a body -/

namespace Parse

/-- Reads as many subprograms as are given. -/
def skip : List Subprogram → Parse Unit
  | [] => pure ()
  | _ :: rest => do
    let _ ← nextSubprogram? subprogram
    skip rest

/-- Reads up to the subprograms of a block. -/
def toFront : Nesting → Parse Unit
  | [] => do
    let _ ← programHead
  | level :: outer => do
    toFront outer
    skip level.before
    let _ ← subprogramHead

/-- Reads up to the body of a block. -/
def toBody (n : Nesting) : Parse Unit := do
  toFront n
  let _ ← subprograms

/-- Subprograms that were read can be skipped in the same way. -/
theorem skip_of_rounds {p q : Parser} {ss : List Subprogram}
    (h : Rounds (nextSubprogram? subprogram) p ss q) : skip ss p = .ok () q := by
  induction h with
  | nil => rfl
  | cons hstep _ ih => exact bind_eq_ok.2 ⟨_, _, hstep, ih⟩

end Parse

namespace Generator

/-- The generators before and after the body of a block is written, where there is a symbol with a
scope for each subprogram that it is nested in. -/
def aroundBody? (p : Program) (symbols : SymbolTable) : Nesting → Option (Generator × Generator)
  | [] =>
    let g := ((new symbols).write (.directive .data)).emitData p.vars
    some (g, g.run (mainPart p.body))
  | level :: outer => do
    let (_, g) ← aroundBody? p symbols outer
    let g := g.emitSubprograms level.before
    let (depth, symbol) ← g.symbols.lookupWithDepth? level.sub.name
    let (scope, symbols) ← g.symbols.detach? level.sub.name
    let start := Lower.routineLabel g.context.path depth level.sub.name
    let entered := g.enter level.sub.name scope symbols
    return (entered, entered.emitRoutine start symbol.id level.sub)

/-- The generator enters a subprogram that the innermost scope declares: with the scope of that
subprogram on top, and without it at its symbol. -/
theorem exists_aroundBody?_cons {p : Program} {symbols : SymbolTable} {level : Level}
    {outer : Nesting} {g h : Generator} {first second inner : Scope} {rest : List Scope}
    {symbol : Symbol} (haround : aroundBody? p symbols outer = some (g, h)) (hresumes : g.Resumes h)
    (hformed : g.symbols.WellFormed)
    (hscopes : g.symbols.scopes =
      (first ++ { symbol with locals := some inner } :: second) :: rest)
    (hname : symbol.name = level.sub.name) (hlocals : symbol.locals = none) :
    ∃ g' h', aroundBody? p symbols (level :: outer) = some (g', h') ∧ g'.Resumes h' ∧
      g'.context.path = g.context.path ++ [level.sub.name] ∧ g'.symbols.WellFormed ∧
      g'.symbols.scopes = inner :: (first ++ symbol :: second) :: rest := by
  have hbefore := hresumes.trans
    (resumes_emitSubprograms level.before (hresumes.symbols ▸ hformed))
  have hnodup := (hformed _ (hscopes ▸ List.mem_cons_self)).nodup
  rw [Scope.names_append] at hnodup
  rw [← hbefore.symbols] at hformed hscopes
  have hfirst : symbol.name ∉ first.names := fun hmem =>
    List.disjoint_of_nodup_append hnodup hmem List.mem_cons_self
  have hsecond : symbol.name ∉ second.names :=
    (List.nodup_cons.1 (List.nodup_append.1 hnodup).2.1).1
  obtain ⟨u, hdetach, hu⟩ := SymbolTable.detach?_innermost hscopes hfirst hsecond rfl
  change _ = some (inner, u) at hdetach
  have hlookup : (h.emitSubprograms level.before).symbols.lookupWithDepth? symbol.name =
      some (rest.length + 1, { symbol with locals := some inner }) := by
    rw [SymbolTable.lookupWithDepth?, hscopes]
    exact SymbolTable.findIn_innermost hfirst
  have hopen : { { symbol with locals := some inner } with locals := none } = symbol := by
    rcases symbol with ⟨id, name, binding, locals⟩
    cases hlocals
    rfl
  rw [hopen] at hu
  rw [hname] at hdetach hlookup
  obtain ⟨houter, hinner⟩ := hformed.of_detach? hdetach
  have hcons : aroundBody? p symbols (level :: outer) = some
      ((h.emitSubprograms level.before).enter level.sub.name inner u,
        ((h.emitSubprograms level.before).enter level.sub.name inner u).emitRoutine
          (Lower.routineLabel (h.emitSubprograms level.before).context.path (rest.length + 1)
            level.sub.name) symbol.id level.sub) := by
    simp only [aroundBody?, haround, Option.bind_eq_bind, Option.bind_some, hlookup, hdetach]
    rfl
  refine ⟨_, _, hcons, resumes_emitRoutine _ _ _ _, ?_, houter.push hinner, ?_⟩
  · rw [← hbefore.path]
    rfl
  · rw [← hu]
    rfl

/-- Leaves a block, once all is written that is in it, and writes what follows it in the blocks
around. -/
def finish : Nesting → Generator → Generator
  | [], g => g
  | level :: outer, g => finish outer ((g.leave level.sub.name).emitSubprograms level.after)

/-- The generator comes by the states around each body: from there it writes the subprograms of the
block and finishes. -/
theorem emitProgram_eq_finish {p : Program} {symbols : SymbolTable} : ∀ {n : Nesting}
    {g h : Generator}, p.Has n → aroundBody? p symbols n = some (g, h) →
      (new symbols).emitProgram p = finish n (h.emitSubprograms (p.subprogramsAt n))
  | [], _, _, _, haround => by
    cases haround
    rfl
  | ⟨before, ⟨kind, name, returns, args, vars, subprograms, body, location⟩, after⟩ :: outer,
      g, h, ⟨hsplit, houter⟩, haround => by
    simp only [aroundBody?, Option.bind_eq_bind, Option.bind_eq_some_iff, Prod.exists,
      Option.pure_def, Option.some.injEq, Prod.mk.injEq] at haround
    obtain ⟨g₀, h₀, haround, depth, symbol, hlookup, scope, symbols', hdetach, rfl, rfl⟩ := haround
    rw [emitProgram_eq_finish houter haround, hsplit, emitSubprograms_append, emitSubprograms,
      emitSubprogram, hlookup]
    simp only [hdetach]
    rfl

end Generator

/-! ## Scopes that have grown -/

/-- The scope `full` is `scope` and the symbols of the subprograms `later`, numbered from `bound`
on. -/
structure Scope.GrownBy (bound : Nat) (later : List Subprogram) (scope full : Scope) : Prop where
  added : ∃ added : Scope, full = scope ++ added ∧
    added.names = later.map Subprogram.name ∧ ∀ symbol ∈ added, bound ≤ symbol.id
  nodup : full.names.Nodup

namespace Scope.GrownBy

variable {bound : Nat} {later : List Subprogram} {scope full : Scope} {x : String}

/-- A scope has grown by nothing. -/
theorem refl (h : scope.WellFormed) : scope.GrownBy bound [] scope :=
  ⟨⟨[], (List.append_nil _).symm, rfl, nofun⟩, h.nodup⟩

theorem eq_of_nil (h : scope.GrownBy bound [] full) : full = scope := by
  obtain ⟨added, rfl, hnames, -⟩ := h.added
  rw [List.map_eq_nil_iff.1 hnames, List.append_nil]

theorem mono {bound' : Nat} (h : scope.GrownBy bound later full) (hle : bound' ≤ bound) :
    scope.GrownBy bound' later full := by
  obtain ⟨⟨added, hfull, hnames, hids⟩, hnodup⟩ := h
  exact ⟨⟨added, hfull, hnames, fun symbol hs => Nat.le_trans hle (hids symbol hs)⟩, hnodup⟩

/-- A grown scope has its names and those of the later subprograms. -/
theorem mem_names_iff (h : scope.GrownBy bound later full) :
    x ∈ full.names ↔ x ∈ scope.names ∨ x ∈ later.map Subprogram.name := by
  obtain ⟨added, rfl, hnames, -⟩ := h.added
  rw [Scope.names_append, List.mem_append, hnames]

/-- What a scope declares stays as it is. -/
theorem lookup?_of_mem (h : scope.GrownBy bound later full) (hx : x ∈ scope.names) :
    full.lookup? x = scope.lookup? x := by
  obtain ⟨added, rfl, -⟩ := h.added
  exact Scope.lookup?_append_of_mem hx

/-- The name of a later subprogram is new to the scope, and so is the number of its symbol. -/
theorem exists_lookup?_of_mem_later (h : scope.GrownBy bound later full)
    (hx : x ∈ later.map Subprogram.name) :
    ∃ symbol, full.lookup? x = some symbol ∧ bound ≤ symbol.id := by
  obtain ⟨⟨added, rfl, hnames, hids⟩, hnodup⟩ := h
  rw [← hnames] at hx
  have hnew : x ∉ scope.names := by
    rw [Scope.names_append] at hnodup
    exact fun hmem => List.disjoint_of_nodup_append hnodup hmem hx
  obtain ⟨symbol, hlookup⟩ := Scope.exists_lookup? hx
  refine ⟨symbol, ?_, hids symbol (Scope.mem_of_lookup? hlookup)⟩
  rw [Scope.lookup?_append_of_notMem hnew, hlookup]

end Scope.GrownBy

/-- The scopes `full` are `scopes`, those open in a block, with the subprograms that are declared
later in each: `later` in the block itself, and around it those after the subprogram it belongs
to. -/
inductive Grown (bound : Nat) : List Subprogram → Nesting → List Scope → List Scope → Prop
  | program {later : List Subprogram} {scope full : Scope} (h : scope.GrownBy bound later full) :
      Grown bound later [] [scope] [full]
  | subprogram {later : List Subprogram} {level : Level} {outer : Nesting} {scope full : Scope}
      {scopes fulls : List Scope} (h : scope.GrownBy bound later full)
      (hnames : full.names = level.sub.declared)
      (houter : Grown bound level.after outer scopes fulls) :
      Grown bound later (level :: outer) (scope :: scopes) (full :: fulls)

namespace Grown

variable {bound bound' : Nat} {later : List Subprogram} {n : Nesting} {scopes fulls : List Scope}

theorem length_eq (h : Grown bound later n scopes fulls) : scopes.length = fulls.length := by
  induction h with
  | program => rfl
  | subprogram _ _ _ ih => exact congrArg (· + 1) ih

theorem mono (h : Grown bound later n scopes fulls) (hle : bound' ≤ bound) :
    Grown bound' later n scopes fulls := by
  induction h with
  | program h => exact .program (h.mono hle)
  | subprogram h hnames _ ih => exact .subprogram (h.mono hle) hnames ih

/-- The same stack with another innermost scope of the same names, which has grown by `all`. -/
theorem replace {scope full scope' full' : Scope} {all : List Subprogram}
    (h : Grown bound later n (scope :: scopes) (full :: fulls))
    (hgrown : scope'.GrownBy bound all full') (hnames : full'.names = full.names) :
    Grown bound all n (scope' :: scopes) (full' :: fulls) := by
  cases h with
  | program => exact .program hgrown
  | subprogram _ hdeclared houter => exact .subprogram hgrown (hnames.trans hdeclared) houter

/-- Where no subprograms are to follow, the innermost scope is the same. -/
theorem head_eq {scope : Scope} (h : Grown bound [] n (scope :: scopes) fulls) :
    ∃ rest, fulls = scope :: rest := by
  cases h with
  | program h => exact ⟨[], by rw [h.eq_of_nil]⟩
  | subprogram h _ _ => exact ⟨_, by rw [h.eq_of_nil]⟩

/-- Inside a subprogram, whose symbol is `opened` while its block is read and `closed` after that,
the scope around it has still to grow by the subprograms after it. -/
theorem enter {level : Level} {first later inner : Scope} {opened closed : Symbol}
    (h : Grown bound [] n ((first ++ closed :: later) :: scopes)
      ((first ++ closed :: later) :: fulls))
    (hclosed : Scope.WellFormed (first ++ closed :: later)) (hname : opened.name = closed.name)
    (hinner : inner.WellFormed) (hdeclared : inner.names = level.sub.declared)
    (hlater : later.names = level.after.map Subprogram.name)
    (hids : ∀ symbol ∈ later, bound' ≤ symbol.id) (hle : bound' ≤ bound) :
    Grown bound' [] (level :: n) (inner :: (first ++ [opened]) :: scopes)
      (inner :: (first ++ opened :: later) :: fulls) := by
  have hnames :
      Scope.names (first ++ opened :: later) = Scope.names (first ++ closed :: later) := by
    rw [Scope.names_append, Scope.names_append]
    exact congrArg (fun name => first.names ++ name :: later.names) hname
  refine .subprogram (.refl hinner) hdeclared ((h.mono hle).replace ⟨⟨later, ?_, hlater, hids⟩, ?_⟩
    hnames)
  · rw [List.append_assoc, List.singleton_append]
  · exact hnames ▸ hclosed.nodup

/-- A name found in the open scopes is found in the grown ones: another symbol if the name comes to
be hidden, the same at the same depth if not. -/
theorem findIn_grown {x : String} {depth : Nat} {symbol : Symbol}
    (h : Grown bound later n scopes fulls)
    (hids : ∀ scope ∈ scopes, ∀ symbol ∈ scope, symbol.id < bound)
    (hfind : SymbolTable.findIn scopes x = some (depth, symbol)) :
    ∃ depth' symbol', SymbolTable.findIn fulls x = some (depth', symbol') ∧
      (n.Hides x later → symbol'.id ≠ symbol.id) ∧
      (¬n.Hides x later → depth' = depth ∧ symbol' = symbol) := by
  induction h with
  | @program later scope full h =>
    obtain ⟨found, hfound, hlookup⟩ := SymbolTable.mem_of_findIn hfind
    cases List.mem_singleton.1 hfound
    have hsame := h.lookup?_of_mem (Scope.mem_names_of_lookup? hlookup)
    refine ⟨depth, symbol, ?_, nofun, fun _ => ⟨rfl, rfl⟩⟩
    rw [SymbolTable.findIn_cons_of_mem hlookup] at hfind
    rw [SymbolTable.findIn_cons_of_mem (hsame.trans hlookup)]
    exact hfind
  | @subprogram later level outer scope full scopes fulls h hnames houter ih =>
    obtain ⟨-, hscopes⟩ := List.forall_mem_cons.1 hids
    have hlength := houter.length_eq
    by_cases hlater : x ∈ later.map Subprogram.name
    · -- one of the later subprograms takes the name
      obtain ⟨symbol', hlookup, hlate⟩ := h.exists_lookup?_of_mem_later hlater
      have hold : symbol.id < bound := by
        obtain ⟨found, hfound, hfoundLookup⟩ := SymbolTable.mem_of_findIn hfind
        exact hids found hfound symbol (Scope.mem_of_lookup? hfoundLookup)
      exact ⟨_, symbol', SymbolTable.findIn_cons_of_mem hlookup, fun _ => by omega,
        fun hn => absurd (.inl hlater) hn⟩
    · by_cases hx : x ∈ scope.names
      · -- the block has declared the name, for both
        obtain ⟨symbol', hlookup⟩ := Scope.exists_lookup? hx
        rw [SymbolTable.findIn_cons_of_mem hlookup] at hfind
        cases hfind
        have hdeclared : x ∈ level.sub.declared := hnames ▸ h.mem_names_iff.2 (.inl hx)
        refine ⟨_, symbol, SymbolTable.findIn_cons_of_mem ((h.lookup?_of_mem hx).trans hlookup),
          ?_, fun _ => ⟨by omega, rfl⟩⟩
        rintro (hhides | ⟨hhides, -⟩)
        · exact absurd hhides hlater
        · exact absurd hdeclared hhides
      · -- the block does not declare the name, now or later
        have hfull : x ∉ full.names := fun hmem => (h.mem_names_iff.1 hmem).elim hx hlater
        have hhides : Nesting.Hides x later (level :: outer) ↔ outer.Hides x level.after := by
          simp only [Nesting.Hides, ← hnames, hlater, hfull, not_false_eq_true, true_and,
            false_or]
        rw [SymbolTable.findIn_cons_of_notMem hx] at hfind
        rw [SymbolTable.findIn_cons_of_notMem hfull, hhides]
        exact ih hscopes hfind

end Grown

/-! ## The parser and the generator at one block -/

/-- Where the parser that starts at `start` and the generator with the names `symbols` are at the
block `n` of `p`: the parser in front of the subprograms and of the body, the generator before and
after the body. -/
structure Meets (start : Parser) (p : Program) (symbols : SymbolTable) (n : Nesting)
    (front body : Parser) (g h : Generator) : Prop where
  comes : Parse.toFront n start = .ok () front
  subprograms : Parse.subprograms front = .ok (p.subprogramsAt n) body
  statements : ∃ rest, Parse.compound body = .ok (p.bodyAt n) rest
  formed : front.symbols.WellFormed
  numbered : front.symbols.Numbered
  around : Generator.aroundBody? p symbols n = some (g, h)
  resumes : g.Resumes h
  path : g.context.path = n.path
  generated : g.symbols.WellFormed
  grown : Grown body.symbols.nextId [] n body.symbols.scopes g.symbols.scopes

/-- The parser and the generator meet at the block of the program. -/
theorem meets_program {start q : Parser} {p : Program} (h : Parse.program start = .ok p q)
    (hstart : start.symbols = .empty) :
    ∃ front body g g', Meets start p q.symbols [] front body g g' := by
  obtain ⟨head, front, body, rest, hhead, hsubs, hbody, hsymbols, -⟩ := Parse.of_program h
  obtain ⟨added, hextends, -⟩ := Parse.declares_programHead start head front hhead
  have hfront := hextends.grows
  have hgrows := Parse.grows_of_rounds (Parse.rounds_of_subprograms hsubs)
  rw [hstart] at hfront
  have hformed := hfront.wellFormed .empty
  have hscopes : body.symbols.scopes = [body.symbols.current] := by
    rw [body.symbols.scopes_eq, (hfront.trans hgrows).outer]
    rfl
  have hw : body.symbols.WellFormed := hgrows.wellFormed hformed
  have hdata := Generator.resumes_emitData p.vars
    ((Generator.new q.symbols).write (.directive .data))
  refine ⟨front, body, _, _, {
    comes := Parse.bind_eq_ok.2 ⟨_, _, hhead, rfl⟩
    subprograms := hsubs
    statements := ⟨rest, hbody⟩
    formed := hformed
    numbered := hfront.numbered .empty
    around := rfl
    resumes := Generator.resumes_run _ _
    path := hdata.path
    generated := ?_
    grown := ?_ }⟩
  · rw [hdata.symbols]
    exact hsymbols ▸ hw
  · rw [hdata.symbols]
    show Grown _ _ _ body.symbols.scopes q.symbols.scopes
    rw [hsymbols, hscopes]
    exact .program (.refl (hw _ (by rw [hscopes]; exact List.mem_singleton_self _)))

/-- If they meet at a block, they meet at the block of each of its subprograms. The parser has read
the subprograms before it and the generator has them all, so the scope of the block has grown by the
later ones. -/
theorem Meets.descend {start : Parser} {p : Program} {symbols : SymbolTable} {level : Level}
    {outer : Nesting} {front body : Parser} {g h : Generator}
    (hmeets : Meets start p symbols outer front body g h)
    (hsplit : p.subprogramsAt outer = level.before ++ level.sub :: level.after) :
    ∃ front' body' g' h', Meets start p symbols (level :: outer) front' body' g' h' := by
  have hrounds := Parse.rounds_of_subprograms hmeets.subprograms
  rw [hsplit] at hrounds
  obtain ⟨q, front', body', _, symbol, later, hbefore, hpasses, hbody, hlater, hids, hnext⟩ :=
    Parse.passes_of_rounds hrounds
  have hqgrows := Parse.grows_of_rounds hbefore
  have hfront := hpasses.frontFormed (hqgrows.wellFormed hmeets.formed)
  -- the innermost scope of the generator is the finished one, which holds the scope to enter
  have hgrown := hmeets.grown
  rw [hbody] at hgrown
  obtain ⟨fulls, hfulls⟩ := hgrown.head_eq
  rw [hfulls] at hgrown
  obtain ⟨g', h', haround, hresumes, hpath, hformed, hscopes⟩ := Generator.exists_aroundBody?_cons
    hmeets.around hmeets.resumes hmeets.generated hfulls hpasses.heads.name hpasses.locals
  refine ⟨front', body', g', h', {
    comes := Parse.bind_eq_ok.2 ⟨_, _, hmeets.comes, Parse.bind_eq_ok.2
      ⟨_, _, Parse.skip_of_rounds hbefore, Parse.bind_eq_ok.2 ⟨_, _, hpasses.head, rfl⟩⟩⟩
    subprograms := hpasses.subprograms
    statements := hpasses.statements
    formed := hfront
    numbered := hpasses.frontNumbered (hqgrows.numbered hmeets.numbered)
    around := haround
    resumes := hresumes
    path := by rw [hpath, hmeets.path]; rfl
    generated := hformed
    grown := ?_ }⟩
  rw [hscopes, body'.symbols.scopes_eq, hpasses.bodyOuter]
  refine hgrown.enter (hmeets.generated _ (hfulls ▸ List.mem_cons_self)) rfl ?_ hpasses.bodyNames
    hlater hids hnext
  refine hpasses.bodyFormed hfront _ ?_
  rw [SymbolTable.scopes_eq]
  exact List.mem_cons_self

/-- They meet at every block, by induction over the nesting. -/
theorem exists_meets {start q : Parser} {p : Program} (h : Parse.program start = .ok p q)
    (hstart : start.symbols = .empty) : ∀ {n : Nesting}, p.Has n →
      ∃ front body g g', Meets start p q.symbols n front body g g'
  | [], _ => meets_program h hstart
  | _ :: _, ⟨hsplit, houter⟩ => by
    obtain ⟨front, body, g, g', hmeets⟩ := exists_meets h hstart houter
    exact hmeets.descend hsplit

/-! ## Programs from source texts -/

/-- Reading a text is cutting it into tokens and running the parser of programs on them. -/
theorem of_parse {source : String} {program : Program} {symbols : SymbolTable}
    (h : parse source = .ok (program, symbols)) :
    ∃ tokens rest, TokenStream.ofSource source = .ok tokens ∧
      Parse.program ⟨tokens, .empty, []⟩ = .ok program rest ∧ rest.symbols = symbols := by
  unfold parse Program.ofSource at h
  split at h
  · next hsource =>
    cases h
    split at hsource
    · next tokens htokens =>
      unfold Program.ofTokens at hsource
      split at hsource
      · next program' rest hprogram =>
        cases hsource
        exact ⟨tokens, rest, htokens, hprogram, rfl⟩
      · cases hsource
      · next hexhausted => exact absurd hexhausted (Parse.program_ne_exhausted _)
    · cases hsource
  · cases h

/-- Reading `source`, the parser is at `body` when it reads the body of the block `n` of `p`, and
its names stay the same up to the end of that body. -/
def Parse.ReadsBody (source : String) (p : Program) (n : Nesting) (body : Parser) : Prop :=
  ∃ tokens rest, TokenStream.ofSource source = .ok tokens ∧
    toBody n ⟨tokens, .empty, []⟩ = .ok () body ∧
    compound body = .ok (p.bodyAt n) rest ∧ rest.symbols = body.symbols

/-- Writing `p` with the names `symbols`, the generator is at `g` when it writes the body of the
block `n`, in the subprograms that the block is nested in, and its names stay the same up to the end
of that body. -/
def Generator.WritesBody (p : Program) (symbols : SymbolTable) (n : Nesting) (g : Generator) :
    Prop :=
  ∃ g', aroundBody? p symbols n = some (g, g') ∧ g'.symbols = g.symbols ∧
    g.context.path = n.path ∧
    (new symbols).emitProgram p = finish n (g'.emitSubprograms (p.subprogramsAt n))

/-- Parser and generator come to every body, and there the scopes of the generator are those of the
parser, grown. -/
theorem exists_body_states {source : String} {program : Program} {symbols : SymbolTable}
    (h : parse source = .ok (program, symbols)) {n : Nesting} (hn : program.Has n) :
    ∃ body g, Parse.ReadsBody source program n body ∧ Generator.WritesBody program symbols n g ∧
      body.symbols.Numbered ∧
      Grown body.symbols.nextId [] n body.symbols.scopes g.symbols.scopes := by
  obtain ⟨tokens, q, htokens, hprogram, rfl⟩ := of_parse h
  obtain ⟨front, body, g, g', hmeets⟩ := exists_meets hprogram rfl hn
  obtain ⟨rest, hrest⟩ := hmeets.statements
  obtain ⟨hsymbols, -⟩ := Parse.gives_compound body _ _ rfl rfl hrest
  have hgrows := Parse.grows_of_rounds (Parse.rounds_of_subprograms hmeets.subprograms)
  refine ⟨body, g, ⟨tokens, rest, htokens, ?_, hrest, hsymbols⟩, ⟨g', hmeets.around,
    hmeets.resumes.symbols, hmeets.path, Generator.emitProgram_eq_finish hn hmeets.around⟩,
    hgrows.numbered hmeets.numbered, hmeets.grown⟩
  exact Parse.bind_eq_ok.2 ⟨_, _, hmeets.comes, Parse.bind_eq_ok.2 ⟨_, _, hmeets.subprograms, rfl⟩⟩

/-- What the generator at `g` makes of the name `x` in the block `n`, where the parser found
`symbol` at `depth`: the same, exactly if the name does not come to be hidden, and otherwise a
symbol with another number. If it is the same, code in the block calls the subprogram, or uses the
place, of the symbol that the parser found. -/
def Generator.Resolves (g : Generator) (n : Nesting) (x : String) (depth : Nat) (symbol : Symbol) :
    Prop :=
  ∃ written, g.symbols.lookupWithDepth? x = some written ∧
    (written = (depth, symbol) ↔ ¬n.Hides x []) ∧ (written.2.id = symbol.id ↔ ¬n.Hides x []) ∧
    (¬n.Hides x [] → ∀ ctx c, ctx.symbols = g.symbols → ctx.path = n.path →
      (Lower.routine? x ctx c).value =
        some (Lower.routineLabel n.path depth x, symbol.binding.params?.getD []) ∧
      (Lower.find? x ctx c).value = some (symbol, ctx.storage.get? symbol.id))

/-- In grown scopes a name is found where it was, or hidden by a later subprogram. -/
theorem Grown.resolves {n : Nesting} {t : SymbolTable} {g : Generator} {x : String} {depth : Nat}
    {symbol : Symbol} (h : Grown t.nextId [] n t.scopes g.symbols.scopes) (ht : t.Numbered)
    (hfind : t.lookupWithDepth? x = some (depth, symbol)) : g.Resolves n x depth symbol := by
  obtain ⟨depth', symbol', hfind', hhidden, hsame⟩ := h.findIn_grown ht hfind
  refine ⟨(depth', symbol'), hfind', ⟨?_, ?_⟩, ⟨?_, ?_⟩, ?_⟩
  · exact fun heq hhides => hhidden hhides (congrArg (·.2.id) heq)
  · exact fun hn => Prod.ext (hsame hn).1 (hsame hn).2
  · exact fun heq hhides => hhidden hhides heq
  · exact fun hn => congrArg Symbol.id (hsame hn).2
  · intro hn ctx c hctx hpath
    obtain ⟨rfl, rfl⟩ := hsame hn
    have hctx' : ctx.symbols.lookupWithDepth? x = some (depth', symbol') := hctx ▸ hfind'
    constructor
    · simp [Lower.routine?, hctx', hpath]
    · simp [Lower.find?, SymbolTable.lookup?, hctx']

/-- In every body of a program read from a text, every name that occurs there was found by the
parser, and the generator resolves it alike exactly if it does not come to be hidden. -/
theorem Program.resolved_alike_iff {source : String} {program : Program} {symbols : SymbolTable}
    (h : parse source = .ok (program, symbols)) {n : Nesting} (hn : program.Has n) :
    ∃ body g, Parse.ReadsBody source program n body ∧ Generator.WritesBody program symbols n g ∧
      ∀ x ∈ Statement.namesAll (program.bodyAt n), ∃ depth symbol,
        body.symbols.lookupWithDepth? x = some (depth, symbol) ∧ g.Resolves n x depth symbol := by
  obtain ⟨body, g, hread, hwritten, hnumbered, hgrown⟩ := exists_body_states h hn
  refine ⟨body, g, hread, hwritten, fun x hx => ?_⟩
  obtain ⟨tokens, rest, -, -, hbody, -⟩ := hread
  obtain ⟨-, -, hchecked⟩ := Parse.gives_compound body _ _ rfl rfl hbody
  obtain ⟨symbol, hlookup⟩ :=
    Option.isSome_iff_exists.1 (Statement.visible_of_mem_namesAll hchecked hx)
  obtain ⟨depth, hfind⟩ := SymbolTable.lookup?_eq_some hlookup
  exact ⟨depth, symbol, hfind, hgrown.resolves hnumbered hfind⟩

/-! ### A name that comes to be hidden -/

/-- The state after a success. -/
def Outcome.rest? {α : Type} : Outcome α → Option Parser
  | .ok _ rest => some rest
  | .error _ _ => none
  | .exhausted => none

/-- In the body of `c` the parser knows one `a`, the first. When `c` is written, the `a` declared
after `c` hides it. -/
def hidingSource : String :=
  "program p; procedure a; begin end; procedure b; procedure c; begin a end; " ++
  "procedure a; begin end; begin c end; begin b end."

/-- A procedure without parameters and variables, whose name stands at a column of the first
line. -/
def plainProcedure (name : String) (column : Nat) (subprograms : List Subprogram)
    (body : List Statement) : Subprogram :=
  ⟨.procedure, name, none, [], [], subprograms, body, ⟨1, column⟩⟩

def hidingOuter : Subprogram :=
  plainProcedure "b" 46
    [plainProcedure "c" 59 [] [.call "a" []], plainProcedure "a" 85 [] []] [.call "c" []]

def hidingProgram : Program :=
  ⟨"p", [], [plainProcedure "a" 22 [] [], hidingOuter], [.call "b" []], ⟨1, 9⟩⟩

/-- The block of `c`. -/
def hidingNesting : Nesting :=
  [⟨[], plainProcedure "c" 59 [] [.call "a" []], [plainProcedure "a" 85 [] []]⟩,
    ⟨[plainProcedure "a" 22 [] []], hidingOuter, []⟩]

theorem parse_hidingSource : ∃ symbols, parse hidingSource = .ok (hidingProgram, symbols) := by
  have h : (parse hidingSource).toOption.map Prod.fst = some hidingProgram := by decide +kernel
  obtain ⟨_, symbols, hparse, rfl⟩ := exists_of_parse_map h
  exact ⟨symbols, hparse⟩

theorem hidingProgram_resolved : ∃ symbols, parse hidingSource = .ok (hidingProgram, symbols) ∧
    hidingProgram.Has hidingNesting ∧ ∃ body g,
      Parse.ReadsBody hidingSource hidingProgram hidingNesting body ∧
      Generator.WritesBody hidingProgram symbols hidingNesting g ∧
      ∀ x ∈ Statement.namesAll (hidingProgram.bodyAt hidingNesting), ∃ depth symbol,
        body.symbols.lookupWithDepth? x = some (depth, symbol) ∧
          g.Resolves hidingNesting x depth symbol := by
  obtain ⟨symbols, h⟩ := parse_hidingSource
  have hn : hidingProgram.Has hidingNesting := by decide
  exact ⟨symbols, h, hn, Program.resolved_alike_iff h hn⟩

/-- The call of `a` in `c` was read as one of the first `a`, number 1, and is written as one of the
`a` in `b`, number 4. -/
theorem hidingProgram_resolved_apart :
    ∃ symbols body g, parse hidingSource = .ok (hidingProgram, symbols) ∧
      hidingProgram.Has hidingNesting ∧
      Parse.ReadsBody hidingSource hidingProgram hidingNesting body ∧
      Generator.WritesBody hidingProgram symbols hidingNesting g ∧
      "a" ∈ Statement.namesAll (hidingProgram.bodyAt hidingNesting) ∧
      (body.symbols.lookup? "a").map Symbol.id = some 1 ∧
      (g.symbols.lookup? "a").map Symbol.id = some 4 := by
  obtain ⟨symbols, h⟩ := parse_hidingSource
  have hn : hidingProgram.Has hidingNesting := by decide
  obtain ⟨body, g, hread, hwritten, -⟩ := exists_body_states h hn
  refine ⟨symbols, body, g, h, hn, hread, hwritten, by decide, ?_, ?_⟩
  · obtain ⟨tokens, rest, htokens, hbody, -⟩ := hread
    have hid : ((TokenStream.ofSource hidingSource).toOption.bind fun tokens =>
        (Parse.toBody hidingNesting ⟨tokens, .empty, []⟩).rest?.bind fun body =>
          (body.symbols.lookup? "a").map Symbol.id) = some 1 := by decide +kernel
    rw [htokens] at hid
    simpa [Except.toOption, hbody, Outcome.rest?] using hid
  · obtain ⟨g', haround, -⟩ := hwritten
    have hid : ((parse hidingSource).toOption.bind fun parsed =>
        (Generator.aroundBody? parsed.1 parsed.2 hidingNesting).bind fun around =>
          (around.1.symbols.lookup? "a").map Symbol.id) = some 4 := by decide +kernel
    rw [h] at hid
    simpa [Except.toOption, haround] using hid

end PascalMips
