import Mathlib.Data.List.Forall2
import PascalMips.Literal
import PascalMips.Program.Fold
import PascalMips.Proofs.Symbol.Numbers

/-!
# Which symbols a program declares

A finished table mirrors the program it was made for: the scope of a block holds its parameters, its
variables and its subprograms in this order, and the symbol of a subprogram holds the scope of its
block (`Subprogram.Declares`). Folding changes none of this.

While a subprogram is open its symbol holds no scope; what is left of the relation then is
`Subprogram.Heads`.
-/

namespace PascalMips

/-- Symbols that go with the items of a list have their names. -/
theorem Scope.names_of_forall₂ {α : Type} {R : α → Symbol → Prop} {name : α → String}
    (hR : ∀ a symbol, R a symbol → symbol.name = name a) {as : List α} {scope : Scope}
    (h : List.Forall₂ R as scope) : scope.names = as.map name := by
  induction h with
  | nil => rfl
  | cons ha _ ih => exact congrArg₂ List.cons (hR _ _ ha) ih

/-- Bounds that an array can be declared with: in order, and of 32 bits. -/
structure Bounds.Valid (b : Bounds) : Prop where
  ordered : b.lo ≤ b.hi
  lo : Literal.InRange b.lo
  hi : Literal.InRange b.hi

/-- A symbol of a variable: a scalar or an array of its type. -/
structure Variable.Declares (v : Variable) (symbol : Symbol) : Prop where
  name : symbol.name = v.name
  locals : symbol.locals = none
  binding : symbol.binding = .scalar v.type ∨
    ∃ bounds, symbol.binding = .array v.type bounds ∧ bounds.Valid

/-- A symbol of a parameter, which is a scalar. -/
structure Variable.DeclaresParam (v : Variable) (symbol : Symbol) : Prop where
  name : symbol.name = v.name
  locals : symbol.locals = none
  binding : symbol.binding = .scalar v.type

/-- What the name of a subprogram of this kind, with these results and parameters, stands for. A
procedure has no results. -/
def RoutineKind.Binds (returns : Option ValueType) (args : List Variable) :
    RoutineKind → Binding → Prop
  | function, b => ∃ type, returns = some type ∧ b = .function type (args.map Variable.type)
  | procedure, b => returns = none ∧ b = .procedure (args.map Variable.type)

namespace RoutineKind.Binds

variable {returns : Option ValueType} {args : List Variable} {kind : RoutineKind} {b : Binding}

/-- A function is bound with its type and its parameters, and a procedure with its parameters. -/
theorem kind_cases (h : kind.Binds returns args b) :
    (∃ type, kind = .function ∧ returns = some type ∧
      b = .function type (args.map Variable.type)) ∨
    kind = .procedure ∧ returns = none ∧ b = .procedure (args.map Variable.type) := by
  cases kind with
  | function =>
    obtain ⟨type, hreturns, hb⟩ := h
    exact .inl ⟨type, rfl, hreturns, hb⟩
  | procedure => exact .inr ⟨rfl, h⟩

theorem isRoutine (h : kind.Binds returns args b) : b.isRoutine = true := by
  rcases h.kind_cases with ⟨type, -, -, rfl⟩ | ⟨-, -, rfl⟩ <;> rfl

theorem params? (h : kind.Binds returns args b) : b.params? = some (args.map Variable.type) := by
  rcases h.kind_cases with ⟨type, -, -, rfl⟩ | ⟨-, -, rfl⟩ <;> rfl

end RoutineKind.Binds

namespace Subprogram

/-- A symbol with the name of a subprogram that stands for it, whatever scope it holds. -/
structure Heads (s : Subprogram) (symbol : Symbol) : Prop where
  name : symbol.name = s.name
  binding : s.kind.Binds s.returns s.args symbol.binding

mutual

/-- The symbol of a finished subprogram, with the scope of its block. -/
def Declares : Subprogram → Symbol → Prop
  | ⟨kind, name, returns, args, vars, subprograms, _, _⟩, symbol =>
    symbol.name = name ∧ kind.Binds returns args symbol.binding ∧
      ∃ params locals routines, symbol.locals = some (params ++ (locals ++ routines)) ∧
        List.Forall₂ Variable.DeclaresParam args params ∧
        List.Forall₂ Variable.Declares vars locals ∧ DeclaresAll subprograms routines

def DeclaresAll : List Subprogram → Scope → Prop
  | [], scope => scope = []
  | s :: ss, scope => ∃ symbol rest, scope = symbol :: rest ∧ Declares s symbol ∧ DeclaresAll ss rest

end

theorem declaresAll_iff {ss : List Subprogram} {scope : Scope} :
    DeclaresAll ss scope ↔ List.Forall₂ Declares ss scope := by
  induction ss generalizing scope with
  | nil => rw [DeclaresAll, List.forall₂_nil_left_iff]
  | cons s ss ih =>
    rw [DeclaresAll, List.forall₂_cons_left_iff]
    constructor
    · rintro ⟨symbol, rest, rfl, hs, hss⟩
      exact ⟨symbol, rest, hs, ih.1 hss, rfl⟩
    · rintro ⟨symbol, rest, hs, hss, rfl⟩
      exact ⟨symbol, rest, rfl, hs, ih.2 hss⟩

/-- The scope of a block: parameters, variables and finished subprograms. -/
structure BlockOf (args vars : List Variable) (ss : List Subprogram)
    (params locals routines : Scope) : Prop where
  params : List.Forall₂ Variable.DeclaresParam args params
  locals : List.Forall₂ Variable.Declares vars locals
  routines : List.Forall₂ Declares ss routines

/-- A symbol is declared by a subprogram if it heads it and holds the scope of its block. -/
theorem declares_iff {s : Subprogram} {symbol : Symbol} :
    s.Declares symbol ↔ s.Heads symbol ∧ ∃ params locals routines,
      symbol.locals = some (params ++ (locals ++ routines)) ∧
        BlockOf s.args s.vars s.subprograms params locals routines := by
  rcases s with ⟨kind, name, returns, args, vars, subprograms, body, location⟩
  rw [Declares]
  constructor
  · rintro ⟨hname, hbinds, params, locals, routines, hlocals, hparams, hvars, hsubs⟩
    exact ⟨⟨hname, hbinds⟩, params, locals, routines, hlocals,
      ⟨hparams, hvars, declaresAll_iff.1 hsubs⟩⟩
  · rintro ⟨⟨hname, hbinds⟩, params, locals, routines, hlocals, hparams, hvars, hsubs⟩
    exact ⟨hname, hbinds, params, locals, routines, hlocals, hparams, hvars,
      declaresAll_iff.2 hsubs⟩

theorem Declares.heads {s : Subprogram} {symbol : Symbol} (h : s.Declares symbol) :
    s.Heads symbol :=
  (declares_iff.1 h).1

theorem Heads.isRoutine {s : Subprogram} {symbol : Symbol} (h : s.Heads symbol) :
    symbol.binding.isRoutine = true :=
  h.binding.isRoutine

/-! ## Folding -/

theorem foldAll_eq_map (ss : List Subprogram) : foldAll ss = ss.map fold := by
  induction ss with
  | nil => rw [foldAll]; rfl
  | cons s ss ih => rw [foldAll, ih]; rfl

mutual

/-- A folded subprogram is declared by the same symbol. -/
theorem Declares.fold : ∀ {s : Subprogram} {symbol : Symbol}, s.Declares symbol →
    s.fold.Declares symbol
  | ⟨kind, name, returns, args, vars, subprograms, body, location⟩, symbol, h => by
    rw [Declares] at h
    obtain ⟨hname, hbinds, params, locals, routines, hlocals, hparams, hvars, hsubs⟩ := h
    rw [Subprogram.fold, Declares]
    exact ⟨hname, hbinds, params, locals, routines, hlocals, hparams, hvars,
      DeclaresAll.foldAll hsubs⟩

theorem DeclaresAll.foldAll : ∀ {ss : List Subprogram} {scope : Scope}, DeclaresAll ss scope →
    DeclaresAll (foldAll ss) scope
  | [], _, h => h
  | s :: ss, scope, h => by
    rw [DeclaresAll] at h
    obtain ⟨symbol, rest, rfl, hs, hss⟩ := h
    rw [Subprogram.foldAll, DeclaresAll]
    exact ⟨symbol, rest, rfl, hs.fold, hss.foldAll⟩

end

end Subprogram

/-- The global scope of a program: its own name, its variables and its subprograms. -/
structure Program.Declares (p : Program) (own : Symbol) (vars routines : Scope) : Prop where
  own : own.name = p.name ∧ own.binding = .program ∧ own.locals = none
  vars : List.Forall₂ Variable.Declares p.vars vars
  routines : List.Forall₂ Subprogram.Declares p.subprograms routines

theorem Program.Declares.fold {p : Program} {own : Symbol} {vars routines : Scope}
    (h : p.Declares own vars routines) : p.fold.Declares own vars routines :=
  ⟨h.own, h.vars, Subprogram.declaresAll_iff.1 (Subprogram.declaresAll_iff.2 h.routines).foldAll⟩

end PascalMips
