import Mathlib.Logic.Relation
import PascalMips.Proofs.Parser.Congruence
import PascalMips.Proofs.Symbol.Scopes

/-!
# What parsers do to their state

A parser changes its state in four ways: it reads a token, declares a name, or opens or closes the
scope of a subprogram (`Parser.Move`). Every parser of the grammar comes to its end by such moves,
whether that end is a success or a fault (`Parse.Travels`, `congruence_travels`). What each move
keeps is therefore kept by all parsing: a well-formed table stays well formed (`Move.wellFormed`),
and what is left to read is the end of what there was to read (`Move.suffix`).
-/

namespace PascalMips

namespace Parser

/-- A change of the state of a parser. -/
inductive Move : Parser → Parser → Prop
  | advance {p : Parser} : Move p { p with tokens := p.tokens.advance }
  | declare {p : Parser} {name : String} {binding : Binding} {symbols : SymbolTable}
      (h : p.symbols.declare? name binding = some symbols) : Move p { p with symbols := symbols }
  | enter {p : Parser} {name : String} :
      Move p { p with symbols := p.symbols.enter, enclosing := name :: p.enclosing }
  | leave {p : Parser} {name : String} {scope : Scope} {symbols : SymbolTable}
      (h : p.symbols.exit? = some (scope, symbols)) :
      Move p { p with
        symbols := (symbols.attach? name scope).getD symbols, enclosing := p.enclosing.tail }
  | leaveGlobal {p : Parser} (h : p.symbols.exit? = none) :
      Move p { p with enclosing := p.enclosing.tail }

/-- Any number of moves. -/
abbrev Moves : Parser → Parser → Prop := Relation.ReflTransGen Move

/-! ## What moves keep -/

/-- Each move keeps the table well formed. -/
theorem Move.wellFormed {p q : Parser} (h : p.Move q) (hp : p.symbols.WellFormed) :
    q.symbols.WellFormed := by
  cases h with
  | advance => exact hp
  | declare h => exact hp.of_declare? h
  | enter => exact hp.push .nil
  | @leave name scope symbols h =>
    obtain ⟨hsymbols, hscope⟩ := hp.of_exit? h
    cases hattach : symbols.attach? name scope with
    | none => simpa only [hattach, Option.getD_none] using hsymbols
    | some attached =>
      simpa only [hattach, Option.getD_some] using hsymbols.of_attach? hscope hattach
  | leaveGlobal => exact hp

theorem Moves.wellFormed {p q : Parser} (h : p.Moves q) (hp : p.symbols.WellFormed) :
    q.symbols.WellFormed := by
  induction h with
  | refl => exact hp
  | tail _ hmove ih => exact hmove.wellFormed ih

theorem Move.suffix {p q : Parser} (h : p.Move q) : q.tokens.pending <:+ p.tokens.pending := by
  cases h with
  | advance => exact List.tail_suffix _
  | declare | enter | leave | leaveGlobal => exact List.suffix_refl _

theorem Moves.suffix {p q : Parser} (h : p.Moves q) : q.tokens.pending <:+ p.tokens.pending := by
  induction h with
  | refl => exact List.suffix_refl _
  | tail _ hmove ih => exact hmove.suffix.trans ih

end Parser

/-- The state at the end, unless the outcome is exhaustion, satisfies `P`. -/
def Outcome.EndsIn {α : Type} (P : Parser → Prop) : Outcome α → Prop
  | .ok _ q => P q
  | .error _ q => P q
  | .exhausted => True

theorem Outcome.EndsIn.mono {α : Type} {P Q : Parser → Prop} {o : Outcome α} (h : o.EndsIn P)
    (hPQ : ∀ q, P q → Q q) : o.EndsIn Q := by
  cases o with
  | ok a q => exact hPQ q h
  | error e q => exact hPQ q h
  | exhausted => trivial

namespace Parse

variable {α β : Type}

/-- From every state the parser comes to its end by moves. -/
def Travels (x : Parse α) : Prop := ∀ p : Parser, (x p).EndsIn p.Moves

/-- One parser after the other travels, also if it fails on the way. -/
theorem travels_bind {x : Parse α} {f : α → Parse β} (hx : Travels x) (hf : ∀ a, Travels (f a)) :
    Travels (x >>= f) := by
  intro p
  have hp := hx p
  rw [bind_apply]
  cases hxp : x p with
  | ok a q =>
    rw [hxp] at hp
    have hpq : p.Moves q := hp
    exact (hf a q).mono fun r hqr => hpq.trans hqr
  | error e q =>
    rw [hxp] at hp
    exact hp
  | exhausted => trivial

/-- The basic parsers make one move at most. -/
theorem travels_of_basic {x : Parse α} (h : Basic x) : Travels x := by
  intro p
  cases h with
  | pure | fail | current | isEnclosing => exact .refl
  | advance => exact .single .advance
  | declare name binding =>
    unfold declare
    split
    · next h => exact .single (.declare h)
    · exact .refl
  | resolve name =>
    unfold resolve
    split
    · exact .refl
    · exact .refl
  | procedure? name =>
    unfold procedure?
    split
    · exact .refl
    · exact .refl
  | openScope name => exact .single .enter
  | closeScope name =>
    unfold closeScope
    cases hexit : p.symbols.exit? with
    | none => exact .single (.leaveGlobal hexit)
    | some left => exact .single (.leave hexit)

theorem travels_pure (a : α) : Travels (pure a) := travels_of_basic (.pure a)

/-- A repetition travels from round to round, by induction on the budget. -/
theorem travels_many {step : Parse (Option α)} (h : Travels step) : Travels (many step) := by
  have within : ∀ budget, Travels (manyWithin step budget) := by
    intro budget
    induction budget with
    | zero => exact fun _ => trivial
    | succ budget ih =>
      refine travels_bind h fun a? => ?_
      cases a? with
      | none => exact travels_pure _
      | some a => exact travels_bind ih fun _ => travels_pure _
  exact fun p => within _ p

theorem travels_nest {level : Parse α → Parse α}
    (h : ∀ inner, Travels inner → Travels (level inner)) : Travels (nest level) := by
  have within : ∀ budget, Travels (nestWithin level budget) := by
    intro budget
    induction budget with
    | zero => exact fun _ => trivial
    | succ budget ih => exact h _ ih
  exact fun p => within _ p

/-- Travelling is a congruence, so the whole parser does it. -/
theorem congruence_travels : Congruence fun _ x _ => Travels x where
  basic := travels_of_basic
  bind := travels_bind
  many := travels_many
  nest h := travels_nest fun inner => h inner inner

theorem travels_expression : Travels expression := related_expression congruence_travels

theorem travels_program : Travels program := related_program congruence_travels

end Parse

end PascalMips
