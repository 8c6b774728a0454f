import PascalMips.Proofs.Program.Routines

/-!
# The finished table mirrors the program

After a program was read, one scope is left, and at every level of nesting a scope holds the names
that its block declares and no others (`Subprogram.Mirrored`, `Program.Mirrors`). The symbol of a
subprogram is found in the scope around it, tells its kind, its results and its parameters, and
holds the scope of its block. Symbols are numbered from zero, without gaps, in the order in which
the text declares them.

This is read off `Subprogram.Declares`, which pairs the symbols of a scope with the items of a block
one by one; here they are found by name, which is all that the generator does.
-/

namespace PascalMips

/-- The role of the name of a subprogram. -/
def RoutineKind.role : RoutineKind → Role
  | function => .function
  | procedure => .procedure

/-- If the symbol is an array, its bounds are in order. -/
def Symbol.Ordered (symbol : Symbol) : Prop :=
  ∀ type bounds, symbol.binding = .array type bounds → bounds.lo ≤ bounds.hi

/-- A scope with the given names, in this order and all different, and with the bounds of its arrays
in order. -/
structure Scope.Holds (scope : Scope) (declared : List String) : Prop where
  names : scope.names = declared
  nodup : declared.Nodup
  ordered : ∀ symbol ∈ scope, symbol.Ordered

/-- A subprogram is found in the scope around it as what it is, with a scope that mirrors its
block. -/
inductive Subprogram.Mirrored : Scope → Subprogram → Prop
  | mk {around inner : Scope} {s : Subprogram} {symbol : Symbol}
      (found : around.lookup? s.name = some symbol)
      (role : symbol.binding.role = s.kind.role)
      (type : symbol.binding.type? = s.returns)
      (params : symbol.binding.params? = some (s.args.map Variable.type))
      (locals : symbol.locals = some inner)
      (names : inner.Holds s.declared)
      (nested : ∀ t ∈ s.subprograms, Mirrored inner t) : Mirrored around s

/-- The names that the main part of a program declares: its own, its variables and its
subprograms. -/
def Program.declared (p : Program) : List String :=
  p.name :: (p.vars.map Variable.name ++ p.subprograms.map Subprogram.name)

/-- A table with the names of a program and no others. -/
structure Program.Mirrors (p : Program) (t : SymbolTable) : Prop where
  depth : t.depth = 1
  names : t.global.Holds p.declared
  own : ∃ symbol, t.global.lookup? p.name = some symbol ∧ symbol.binding = .program
  nested : ∀ s ∈ p.subprograms, s.Mirrored t.global
  numbers : t.global.ids = List.range t.nextId

/-! ## What a name of a subprogram stands for -/

namespace RoutineKind.Binds

variable {returns : Option ValueType} {args : List Variable} {kind : RoutineKind} {b : Binding}

theorem role_eq (h : kind.Binds returns args b) : b.role = kind.role := by
  rcases h.kind_cases with ⟨type, rfl, -, rfl⟩ | ⟨rfl, -, rfl⟩ <;> rfl

theorem type?_eq (h : kind.Binds returns args b) : b.type? = returns := by
  rcases h.kind_cases with ⟨type, -, rfl, rfl⟩ | ⟨-, rfl, rfl⟩ <;> rfl

end RoutineKind.Binds

/-! ## Scopes of blocks -/

theorem Symbol.ordered_of_bounds? {symbol : Symbol} (h : symbol.binding.bounds? = none) :
    symbol.Ordered := by
  intro type bounds hbinding
  rw [hbinding] at h
  cases h

theorem Variable.DeclaresParam.ordered {v : Variable} {symbol : Symbol}
    (h : v.DeclaresParam symbol) : symbol.Ordered :=
  Symbol.ordered_of_bounds? (by rw [h.binding]; rfl)

theorem Variable.Declares.ordered {v : Variable} {symbol : Symbol} (h : v.Declares symbol) :
    symbol.Ordered := by
  intro type bounds hbinding
  rcases h.binding with hscalar | ⟨declared, harray, hvalid⟩
  · rw [hscalar] at hbinding
    cases hbinding
  · rw [harray] at hbinding
    cases hbinding
    exact hvalid.ordered

/-- What the items of a list declare in a scope holds of every symbol of the scope. -/
theorem Scope.forall_of_forall₂ {α : Type} {R : α → Symbol → Prop} {P : Symbol → Prop}
    (hR : ∀ a symbol, R a symbol → P symbol) {as : List α} {scope : Scope}
    (h : List.Forall₂ R as scope) : ∀ symbol ∈ scope, P symbol := by
  induction h with
  | nil => exact nofun
  | cons ha _ ih => exact List.forall_mem_cons.2 ⟨hR _ _ ha, ih⟩

namespace Subprogram

variable {args vars : List Variable} {ss : List Subprogram} {params locals routines : Scope}

/-- The scope of a block has the names of its parameters, variables and subprograms in this order.
-/
theorem BlockOf.names_eq (h : BlockOf args vars ss params locals routines) :
    Scope.names (params ++ (locals ++ routines)) =
      args.map Variable.name ++ vars.map Variable.name ++ ss.map Subprogram.name := by
  rw [Scope.names_append, Scope.names_append, Scope.names_of_forall₂ (fun _ _ h => h.name) h.params,
    Scope.names_of_forall₂ (fun _ _ h => h.name) h.locals,
    Scope.names_of_forall₂ (fun _ _ h => h.heads.name) h.routines, List.append_assoc]

theorem BlockOf.ordered (h : BlockOf args vars ss params locals routines) :
    ∀ symbol ∈ params ++ (locals ++ routines), symbol.Ordered := by
  refine List.forall_mem_append.2 ⟨?_, List.forall_mem_append.2 ⟨?_, ?_⟩⟩
  · exact Scope.forall_of_forall₂ (fun _ _ h => h.ordered) h.params
  · exact Scope.forall_of_forall₂ (fun _ _ h => h.ordered) h.locals
  · exact Scope.forall_of_forall₂
      (fun _ _ h => Symbol.ordered_of_bounds? h.heads.bounds?_eq_none) h.routines

/-! ## Subprograms -/

mutual

/-- A subprogram whose symbol was declared in a well-formed scope is found there. -/
theorem Declares.mirrored : ∀ {s : Subprogram} {symbol : Symbol} {around : Scope},
    s.Declares symbol → around.WellFormed → symbol ∈ around → s.Mirrored around
  | ⟨kind, name, returns, args, vars, subprograms, body, location⟩, symbol, around, h, hw, hs => by
    obtain ⟨hheads, params, locals, routines, hlocals, hblock⟩ := declares_iff.1 h
    have hfound : around.lookup? symbol.name = some symbol := Scope.lookup?_of_mem hw.nodup hs
    obtain ⟨-, -, hinner⟩ := hw
    have hformed : Scope.WellFormed (params ++ (locals ++ routines)) := hinner symbol hs _ hlocals
    have hholds : Scope.Holds (params ++ (locals ++ routines))
        (args.map Variable.name ++ vars.map Variable.name ++ subprograms.map Subprogram.name) :=
      ⟨hblock.names_eq, hblock.names_eq ▸ hformed.nodup, hblock.ordered⟩
    refine .mk (hheads.name ▸ hfound) hheads.binding.role_eq hheads.binding.type?_eq
      hheads.binding.params? hlocals hholds ?_
    refine DeclaresAll.mirrored (declaresAll_iff.2 hblock.routines) hformed fun routine hr => ?_
    exact List.mem_append_right _ (List.mem_append_right _ hr)

/-- Every subprogram of a block is mirrored by its symbol, with those inside by the same recursion.
-/
theorem DeclaresAll.mirrored : ∀ {ss : List Subprogram} {routines around : Scope},
    DeclaresAll ss routines → around.WellFormed → (∀ symbol ∈ routines, symbol ∈ around) →
      ∀ s ∈ ss, s.Mirrored around
  | [], _, _, _, _, _ => nofun
  | s :: ss, routines, around, h, hw, hsub => by
    rw [DeclaresAll] at h
    obtain ⟨symbol, rest, rfl, hs, hss⟩ := h
    obtain ⟨hsymbol, hrest⟩ := List.forall_mem_cons.1 hsub
    exact List.forall_mem_cons.2 ⟨hs.mirrored hw hsymbol, hss.mirrored hw hrest⟩

end

end Subprogram

/-! ## Programs -/

namespace Program

/-- The global scope of a program holds the names of its main part. -/
theorem Declares.holds {p : Program} {own : Symbol} {vars routines : Scope}
    (h : p.Declares own vars routines) (hw : Scope.WellFormed (own :: (vars ++ routines))) :
    Scope.Holds (own :: (vars ++ routines)) p.declared := by
  obtain ⟨hname, hown, -⟩ := h.own
  have hblock : Subprogram.BlockOf [] p.vars p.subprograms [] vars routines :=
    ⟨.nil, h.vars, h.routines⟩
  have hnames : Scope.names (own :: (vars ++ routines)) = p.declared :=
    congrArg₂ List.cons hname hblock.names_eq
  refine ⟨hnames, hnames ▸ hw.nodup, List.forall_mem_cons.2 ⟨?_, hblock.ordered⟩⟩
  exact Symbol.ordered_of_bounds? (by rw [hown]; rfl)

/-- The table that is left after a program was read from a text mirrors the program. -/
theorem mirrors_of_parse {source : String} {program : Program} {symbols : SymbolTable}
    (h : parse source = .ok (program, symbols)) : program.Mirrors symbols := by
  obtain ⟨tokens, rest, -, hprogram, rfl⟩ := of_parse h
  obtain ⟨own, vars, routines, hextends, hdeclares⟩ := Parse.extends_of_program hprogram
  have htable : rest.symbols = ⟨[], own :: (vars ++ routines), rest.symbols.nextId⟩ :=
    SymbolTable.eq_of_scopes hextends.scopes rfl
  have hformed := hextends.wellFormed .empty
  have hnumbers := hextends.numbers
  rw [htable] at hformed ⊢
  have hglobal : Scope.WellFormed (own :: (vars ++ routines)) := hformed _ List.mem_cons_self
  obtain ⟨hname, hown, -⟩ := hdeclares.own
  refine ⟨rfl, hdeclares.holds hglobal, ⟨own, ?_, hown⟩, ?_, ?_⟩
  · exact hname ▸ Scope.lookup?_of_mem hglobal.nodup List.mem_cons_self
  · refine (Subprogram.declaresAll_iff.2 hdeclares.routines).mirrored hglobal fun symbol hs => ?_
    exact List.mem_cons_of_mem _ (List.mem_append_right _ hs)
  · exact hnumbers.trans List.range_eq_range'.symm

/-- A procedure with a parameter of its own name, and a function with a function of its own name
in it. -/
def namesakesSource : String :=
  "program p; var a: array [-1:3] of real; procedure f(f: integer); begin write(f) end; " ++
  "function g(x: real): real; var f: integer; function g: real; begin g := x end; " ++
  "begin f := 1; g := g end; begin f(2); a[0] := g(1.5) end."

theorem namesakesSource_mirrors :
    ∃ program symbols, parse namesakesSource = .ok (program, symbols) ∧
      (program.declared, program.subprograms.map Subprogram.declared, symbols.global.ids) =
        (["p", "a", "f", "g"], [["f"], ["x", "f", "g"]], [0, 1, 2, 3, 4, 5, 6, 7]) ∧
      program.Mirrors symbols := by
  have hnames : (parse namesakesSource).toOption.map (fun parsed =>
      (parsed.1.declared, parsed.1.subprograms.map Subprogram.declared, parsed.2.global.ids)) =
        some (["p", "a", "f", "g"], [["f"], ["x", "f", "g"]], [0, 1, 2, 3, 4, 5, 6, 7]) := by
    decide +kernel
  obtain ⟨program, symbols, hparse, hnames⟩ := exists_of_parse_map hnames
  exact ⟨program, symbols, hparse, hnames, mirrors_of_parse hparse⟩

end Program

end PascalMips
