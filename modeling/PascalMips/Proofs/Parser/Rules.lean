import PascalMips.Parser.Progress
import PascalMips.Proofs.Parser.Congruence

/-!
# Reasoning about parsers

What the success of a parser says about its parts: a sequence comes apart into its steps
(`bind_eq_ok`), a repetition into its rounds (`Rounds`), and what each level of a nested parser
guarantees holds of the whole (`nest_induct`). `Gives` is such a guarantee for parsers that declare
nothing.

A nested parser also satisfies the equation of its recursion (`nest_eq`). The budget does not matter
there: with more of it no outcome changes but exhaustion (`Refines`), and each level leaves enough
for the levels below it.
-/

namespace PascalMips.Parse

variable {α β : Type}

/-! ## Sequences -/

/-- A sequence succeeds exactly if its steps do, one from where the other ends. -/
theorem bind_eq_ok {x : Parse α} {f : α → Parse β} {p r : Parser} {b : β} :
    (x >>= f) p = .ok b r ↔ ∃ a q, x p = .ok a q ∧ f a q = .ok b r := by
  rw [bind_apply]
  cases x p with
  | ok a q =>
    constructor
    · exact fun h => ⟨a, q, rfl, h⟩
    · rintro ⟨a', q', h, hf⟩
      cases h
      exact hf
  | error e q => simp
  | exhausted => simp

theorem pure_eq_ok {a b : α} {p q : Parser} :
    (pure a : Parse α) p = .ok b q ↔ a = b ∧ p = q := by
  rw [pure_apply, Outcome.ok.injEq]

instance : LawfulMonad Parse :=
  LawfulMonad.mk' Parse
    (fun x => by
      funext p
      show (x >>= fun a => pure (id a)) p = x p
      rw [bind_apply]
      cases x p <;> rfl)
    (fun _ _ => rfl)
    (fun x f g => by
      funext p
      simp only [bind_apply]
      cases x p <;> rfl)

/-! ## Repetition -/

/-- Rounds of `step` that each give something, from one state to another. -/
inductive Rounds (step : Parse (Option α)) : Parser → List α → Parser → Prop
  | nil {p : Parser} : Rounds step p [] p
  | cons {p q r : Parser} {a : α} {as : List α} (hstep : step p = .ok (some a) q)
      (hrest : Rounds step q as r) : Rounds step p (a :: as) r

/-- A repetition that succeeds has gone through rounds and ended in one that found nothing. -/
theorem rounds_of_manyWithin {step : Parse (Option α)} :
    ∀ {budget : Nat} {p q : Parser} {as : List α}, manyWithin step budget p = .ok as q →
      ∃ r, Rounds step p as r ∧ step r = .ok none q
  | 0, _, _, _, h => nomatch h
  | budget + 1, p, q, as, h => by
    obtain ⟨a?, p', hstep, h⟩ := bind_eq_ok.1 h
    cases a? with
    | none =>
      obtain ⟨rfl, rfl⟩ := pure_eq_ok.1 h
      exact ⟨p, .nil, hstep⟩
    | some a =>
      obtain ⟨as', q', hrest, h⟩ := bind_eq_ok.1 h
      obtain ⟨rfl, rfl⟩ := pure_eq_ok.1 h
      obtain ⟨r, hrounds, hend⟩ := rounds_of_manyWithin hrest
      exact ⟨r, .cons hstep hrounds, hend⟩

/-- A repetition is a number of rounds and one more that gives nothing. -/
theorem rounds_of_many {step : Parse (Option α)} {p q : Parser} {as : List α}
    (h : many step p = .ok as q) : ∃ r, Rounds step p as r ∧ step r = .ok none q :=
  rounds_of_manyWithin h

/-- One more item of a list, after a separator. -/
def nextItem? (separator : Kind) (item : Parse α) : Parse (Option α) := do
  if ← accept separator then return some (← item) else return none

/-- A list with separators is an item and a repetition. -/
theorem sepBy_eq (separator : Kind) (item : Parse α) :
    sepBy separator item = do
      let first ← item
      let others ← many (nextItem? separator item)
      return first :: others :=
  rfl

theorem Rounds.uncons {step : Parse (Option α)} {p r : Parser} {a : α} {as : List α} :
    Rounds step p (a :: as) r → ∃ q, step p = .ok (some a) q ∧ Rounds step q as r
  | .cons hstep hrest => ⟨_, hstep, hrest⟩

/-- Rounds for two lists come apart at the state between them. -/
theorem Rounds.split {step : Parse (Option α)} {bs : List α} {r : Parser} :
    ∀ {as : List α} {p : Parser}, Rounds step p (as ++ bs) r →
      ∃ q, Rounds step p as q ∧ Rounds step q bs r
  | [], p, h => ⟨p, .nil, h⟩
  | _ :: _, _, .cons hstep h => by
    obtain ⟨q, has, hbs⟩ := h.split
    exact ⟨q, .cons hstep has, hbs⟩

/-! ## Nesting -/

/-- What every level guarantees of its success, given that the levels below do, holds of the nested
parser. -/
theorem nest_induct {level : Parse α → Parse α} {Q : Parser → α → Parser → Prop}
    (h : ∀ inner : Parse α, (∀ p a q, inner p = .ok a q → Q p a q) →
      ∀ p a q, level inner p = .ok a q → Q p a q) :
    ∀ p a q, nest level p = .ok a q → Q p a q := by
  have within : ∀ budget p a q, nestWithin level budget p = .ok a q → Q p a q := by
    intro budget
    induction budget with
    | zero => intro p a q hp; nomatch hp
    | succ budget ih => exact h _ ih
  exact fun p a q hp => within _ p a q hp

/-! ## Parsers that declare nothing -/

section Gives

variable {t : SymbolTable} {enclosing : List String}

/-- Where `t` is known and the bodies of `enclosing` are open, a success of `x` leaves both as they
are and gives something that satisfies `Q`. -/
def Gives (t : SymbolTable) (enclosing : List String) (x : Parse α) (Q : α → Prop) : Prop :=
  ∀ p a q, p.symbols = t → p.enclosing = enclosing → x p = .ok a q →
    q.symbols = t ∧ q.enclosing = enclosing ∧ Q a

theorem Gives.mono {x : Parse α} {Q R : α → Prop} (h : Gives t enclosing x Q)
    (hQR : ∀ a, Q a → R a) : Gives t enclosing x R := by
  intro p a q hp he hx
  obtain ⟨hq, hqe, ha⟩ := h p a q hp he hx
  exact ⟨hq, hqe, hQR a ha⟩

theorem gives_pure {a : α} {Q : α → Prop} (h : Q a) : Gives t enclosing (pure a) Q := by
  intro p b q hp he hx
  obtain ⟨rfl, rfl⟩ := pure_eq_ok.1 hx
  exact ⟨hp, he, h⟩

/-- One parser after the other, where the second may use what the first guarantees. -/
theorem gives_bind {x : Parse α} {f : α → Parse β} {Q : α → Prop} {R : β → Prop}
    (hx : Gives t enclosing x Q) (hf : ∀ a, Q a → Gives t enclosing (f a) R) :
    Gives t enclosing (x >>= f) R := by
  intro p b r hp he h
  obtain ⟨a, q, hxa, hfb⟩ := bind_eq_ok.1 h
  obtain ⟨hq, hqe, ha⟩ := hx p a q hp he hxa
  exact hf a ha q b r hq hqe hfb

theorem gives_fail {fault : ParseFault} {location : Location} {Q : α → Prop} :
    Gives t enclosing (fail fault location) Q :=
  fun _ _ _ _ _ h => nomatch h

/-- A choice guarantees what both branches do, each under its condition. -/
theorem gives_ite {c : Prop} [Decidable c] {x y : Parse α} {Q : α → Prop}
    (hx : c → Gives t enclosing x Q) (hy : ¬c → Gives t enclosing y Q) :
    Gives t enclosing (if c then x else y) Q := by
  by_cases hc : c
  · rw [if_pos hc]
    exact hx hc
  · rw [if_neg hc]
    exact hy hc

theorem gives_current : Gives t enclosing current fun _ => True := by
  intro p a q hp he h
  cases h
  exact ⟨hp, he, trivial⟩

theorem gives_advance : Gives t enclosing advance fun _ => True := by
  intro p a q hp he h
  cases h
  exact ⟨hp, he, trivial⟩

theorem gives_unexpected {expected : Expected} {Q : α → Prop} :
    Gives t enclosing (unexpected expected) Q :=
  gives_bind gives_current fun _ _ => gives_fail

theorem gives_check (kind : Kind) : Gives t enclosing (check kind) fun _ => True :=
  gives_bind gives_current fun _ _ => gives_pure trivial

theorem gives_accept (kind : Kind) : Gives t enclosing (accept kind) fun _ => True :=
  gives_bind (gives_check kind) fun _ _ => gives_ite
    (fun _ => gives_bind gives_advance fun _ _ => gives_pure trivial)
    (fun _ => gives_pure trivial)

theorem gives_expect (kind : Kind) : Gives t enclosing (expect kind) fun _ => True :=
  gives_bind (gives_check kind) fun _ _ => gives_ite (fun _ => gives_advance)
    (fun _ => gives_unexpected)

/-- A name that resolves is declared as what it resolves to. -/
theorem gives_resolve (name : Token) : Gives t enclosing (resolve name) fun binding =>
    ∃ symbol, t.lookup? name.lexeme = some symbol ∧ symbol.binding = binding := by
  intro p binding q hp he h
  unfold resolve at h
  split at h
  · next symbol hlookup =>
    cases h
    exact ⟨hp, he, symbol, hp ▸ hlookup, rfl⟩
  · cases h

/-- Only names of open bodies are found among them. -/
theorem gives_isEnclosing (name : String) : Gives t enclosing (isEnclosing name) fun found =>
    found = true → name ∈ enclosing := by
  intro p found q hp he h
  cases h
  refine ⟨hp, he, fun hfound => ?_⟩
  rw [← he]
  exact List.contains_iff_mem.1 hfound

/-- A repetition guarantees of each thing what its rounds guarantee, by induction over the rounds.
-/
theorem gives_many {step : Parse (Option α)} {Q : α → Prop}
    (h : Gives t enclosing step fun a? => ∀ a, a? = some a → Q a) :
    Gives t enclosing (many step) fun as => ∀ a ∈ as, Q a := by
  intro p as q hp he hmany
  obtain ⟨r, hrounds, hend⟩ := rounds_of_many hmany
  have hall : r.symbols = t ∧ r.enclosing = enclosing ∧ ∀ a ∈ as, Q a := by
    clear hmany
    induction hrounds with
    | nil => exact ⟨hp, he, nofun⟩
    | cons hstep _ ih =>
      obtain ⟨hq, hqe, ha⟩ := h _ _ _ hp he hstep
      obtain ⟨hr, hre, has⟩ := ih hq hqe hend
      exact ⟨hr, hre, List.forall_mem_cons.2 ⟨ha _ rfl, has⟩⟩
  obtain ⟨hq, hqe, -⟩ := h r none q hall.1 hall.2.1 hend
  exact ⟨hq, hqe, hall.2.2⟩

theorem gives_sepBy {separator : Kind} {item : Parse α} {Q : α → Prop}
    (h : Gives t enclosing item Q) :
    Gives t enclosing (sepBy separator item) fun as => ∀ a ∈ as, Q a := by
  refine gives_bind h fun first hfirst => ?_
  refine gives_bind (gives_many ?_) fun others hothers =>
    gives_pure (List.forall_mem_cons.2 ⟨hfirst, hothers⟩)
  refine gives_bind (gives_accept separator) fun _ _ => gives_ite (fun _ => ?_) fun _ => ?_
  · exact gives_bind h fun a ha => gives_pure fun _ h => Option.some.inj h ▸ ha
  · exact gives_pure nofun

/-- What one level guarantees, given that the levels below do, is guaranteed by nesting. -/
theorem gives_nest {level : Parse α → Parse α} {Q : α → Prop}
    (h : ∀ inner, Gives t enclosing inner Q → Gives t enclosing (level inner) Q) :
    Gives t enclosing (nest level) Q := by
  refine fun p a q hp he hx => nest_induct (Q := fun p a q => p.symbols = t →
    p.enclosing = enclosing → q.symbols = t ∧ q.enclosing = enclosing ∧ Q a) ?_ p a q hx hp he
  intro inner hinner p a q hx hp he
  exact h inner (fun p a q hp he hx => hinner p a q hx hp he) p a q hp he hx

end Gives

/-! ## The equation of nesting -/

/-- The parser `x` does as `y` unless it is exhausted. -/
def Refines (x y : Parse α) : Prop := ∀ p, x p = .exhausted ∨ x p = y p

theorem Refines.refl (x : Parse α) : Refines x x := fun _ => .inr rfl

/-- Refinement goes through sequences: if the first part is exhausted, so is the whole. -/
theorem refines_bind {x y : Parse α} {f g : α → Parse β} (hxy : Refines x y)
    (hfg : ∀ a, Refines (f a) (g a)) : Refines (x >>= f) (y >>= g) := by
  intro p
  rw [bind_apply, bind_apply]
  rcases hxy p with h | h
  · exact .inl (by rw [h])
  · rw [← h]
    cases x p with
    | ok a q => exact hfg a q
    | error e q => exact .inr rfl
    | exhausted => exact .inl rfl

/-- Refinement goes through repetition, by induction on the budget. -/
theorem refines_many {x y : Parse (Option α)} (h : Refines x y) : Refines (many x) (many y) := by
  have within : ∀ budget, Refines (manyWithin x budget) (manyWithin y budget) := by
    intro budget
    induction budget with
    | zero => exact Refines.refl _
    | succ budget ih =>
      refine refines_bind h fun a? => ?_
      cases a? with
      | none => exact Refines.refl _
      | some a => exact refines_bind ih fun _ => Refines.refl _
  exact fun p => within _ p

/-- Refinement is a congruence, so it goes through every production of the grammar. -/
theorem congruence_refines : Congruence fun _ x y => Refines x y where
  basic _ := .refl _
  bind := refines_bind
  many := refines_many
  nest _ := .refl _

section Equation

variable {level : Parse α → Parse α}
  (hmono : ∀ {x y : Parse α}, Refines x y → Refines (level x) (level y))
  (hsettles : ∀ (n : Nat) (inner : Parse α), Settles n inner → Settles (n + 1) (level inner))

include hmono in
/-- With a larger budget, nesting does the same unless the smaller one was exhausted. -/
theorem refines_nestWithin_add (budget more : Nat) :
    Refines (nestWithin level budget) (nestWithin level (budget + more)) := by
  induction budget with
  | zero => exact fun _ => .inl rfl
  | succ budget ih =>
    rw [Nat.succ_add]
    exact hmono ih

include hsettles in
/-- A budget above the number of tokens left is never exhausted. -/
theorem nestWithin_ne_exhausted {budget : Nat} {p : Parser} (hp : p.tokens.size < budget) :
    nestWithin level budget p ≠ .exhausted := by
  intro h
  have := settles_nestWithin hsettles budget p hp
  rw [h] at this
  exact this

include hmono hsettles in
/-- The budget that nesting takes is enough, so any other does the same or is exhausted. -/
theorem refines_nest (budget : Nat) : Refines (nestWithin level budget) (nest level) := by
  intro p
  rcases Nat.le_total budget (p.tokens.size + 1) with hle | hle
  · obtain ⟨more, hmore⟩ := Nat.le.dest hle
    have := refines_nestWithin_add hmono budget more p
    rwa [hmore] at this
  · obtain ⟨more, rfl⟩ := Nat.le.dest hle
    rcases refines_nestWithin_add hmono (p.tokens.size + 1) more p with h | h
    · exact absurd h (nestWithin_ne_exhausted hsettles (Nat.lt_succ_self _))
    · exact .inr h.symm

include hmono hsettles in
/-- A nested parser is its level over itself. -/
theorem nest_eq : nest level = level (nest level) := by
  funext p
  rcases hmono (refines_nest hmono hsettles p.tokens.size) p with h | h
  · exact absurd h (nestWithin_ne_exhausted hsettles (Nat.lt_succ_self _))
  · exact h

end Equation

end PascalMips.Parse
