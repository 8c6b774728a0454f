import PascalMips.Parser.Basic

/-!
# Parsers come to an end

`Settles n x`: started with fewer than `n` tokens left, the parser `x` is not exhausted and leaves
no more tokens than it found. `Reads n x`: it also leaves fewer if it succeeds. Repetition settles
if each round reads a token (`settles_many`), nesting if each level does (`settles_nest`).
-/

namespace PascalMips

/-- The outcome is not exhaustion, and a success leaves at most `k` tokens. -/
def Outcome.Leaves {α : Type} (k : Nat) : Outcome α → Prop
  | .ok _ rest => rest.tokens.size ≤ k
  | .error _ _ => True
  | .exhausted => False

namespace Parse

variable {α β : Type} {n : Nat}

/-- From fewer than `n` tokens, `x` comes to an end and leaves no more. -/
def Settles (n : Nat) (x : Parse α) : Prop :=
  ∀ p : Parser, p.tokens.size < n → (x p).Leaves p.tokens.size

/-- From fewer than `n` tokens, `x` comes to an end and, if it succeeds, leaves fewer. -/
def Reads (n : Nat) (x : Parse α) : Prop :=
  ∀ p : Parser, p.tokens.size < n → (x p).Leaves (p.tokens.size - 1) ∧
    ∀ a q, x p = .ok a q → 0 < p.tokens.size

theorem Reads.settles {x : Parse α} (h : Reads n x) : Settles n x := by
  intro p hp
  have := (h p hp).1
  cases hx : x p with
  | ok a q => rw [hx] at this; exact Nat.le_trans this (Nat.sub_le ..)
  | error e q => trivial
  | exhausted => rw [hx] at this; exact this

theorem Settles.mono {x : Parse α} {m : Nat} (h : Settles n x) (hm : m ≤ n) : Settles m x :=
  fun p hp => h p (Nat.lt_of_lt_of_le hp hm)

/-! ## Sequencing -/

theorem settles_pure (a : α) : Settles n (pure a : Parse α) := fun _ _ => Nat.le_refl _

theorem settles_fail (fault : ParseFault) (loc : Location) : Settles n (fail fault loc : Parse α) :=
  fun _ _ => trivial

/-- Parsers that settle, one after the other, settle: the second starts with no more tokens than the
first. -/
theorem settles_bind {x : Parse α} {f : α → Parse β} (hx : Settles n x)
    (hf : ∀ a, Settles n (f a)) : Settles n (x >>= f) := by
  intro p hp
  have h := hx p hp
  rw [bind_apply]
  cases hxp : x p with
  | ok a q =>
    rw [hxp] at h
    have hq : q.tokens.size ≤ p.tokens.size := h
    have h' := hf a q (by omega)
    show (f a q).Leaves _
    cases hfq : f a q with
    | ok b r => rw [hfq] at h'; exact Nat.le_trans h' hq
    | error e r => trivial
    | exhausted => rw [hfq] at h'; exact h'
  | error e q => trivial
  | exhausted => rw [hxp] at h; exact h

/-- After a token was read, what follows has one token less to go. -/
theorem reads_bind {x : Parse α} {f : α → Parse β} (hx : Reads (n + 1) x)
    (hf : ∀ a, Settles n (f a)) : Reads (n + 1) (x >>= f) := by
  intro p hp
  obtain ⟨h, hpos⟩ := hx p hp
  rw [bind_apply]
  cases hxp : x p with
  | ok a q =>
    rw [hxp] at h
    have hq : q.tokens.size ≤ p.tokens.size - 1 := h
    have hpos := hpos a q hxp
    have h' := hf a q (by omega)
    refine ⟨?_, fun _ _ _ => hpos⟩
    show (f a q).Leaves _
    cases hfq : f a q with
    | ok b r => rw [hfq] at h'; exact Nat.le_trans h' hq
    | error e r => trivial
    | exhausted => rw [hfq] at h'; exact h'
  | error e q => exact ⟨trivial, fun _ _ h => by cases h⟩
  | exhausted => rw [hxp] at h; exact h.elim

/-- A parser that reads, followed by one that settles, reads. -/
theorem reads_bind_of_settles {x : Parse α} {f : α → Parse β} (hx : Reads n x)
    (hf : ∀ a, Settles n (f a)) : Reads n (x >>= f) := by
  cases n with
  | zero => exact fun p hp => absurd hp (Nat.not_lt_zero _)
  | succ n => exact reads_bind hx fun a => (hf a).mono (Nat.le_succ n)

/-- A parser that settles, followed by one that reads, reads. -/
theorem reads_of_settles_bind {x : Parse α} {f : α → Parse β} (hx : Settles n x)
    (hf : ∀ a, Reads n (f a)) : Reads n (x >>= f) := by
  intro p hp
  have h := hx p hp
  rw [bind_apply]
  cases hxp : x p with
  | ok a q =>
    rw [hxp] at h
    have hq : q.tokens.size ≤ p.tokens.size := h
    obtain ⟨h', hpos⟩ := hf a q (by omega)
    refine ⟨?_, fun b r hr => Nat.lt_of_lt_of_le (hpos b r hr) hq⟩
    show (f a q).Leaves _
    cases hfq : f a q with
    | ok b r =>
      rw [hfq] at h'
      have : r.tokens.size ≤ q.tokens.size - 1 := h'
      show r.tokens.size ≤ _
      omega
    | error e r => trivial
    | exhausted => rw [hfq] at h'; exact h'
  | error e q => exact ⟨trivial, fun _ _ h => by cases h⟩
  | exhausted => rw [hxp] at h; exact h.elim

theorem settles_ite {c : Prop} [Decidable c] {x y : Parse α} (hx : Settles n x) (hy : Settles n y) :
    Settles n (if c then x else y) := by
  split <;> assumption

/-! ## Tokens and names -/

theorem settles_current : Settles n current := fun _ _ => Nat.le_refl _

theorem settles_advance : Settles n advance := fun p _ => p.tokens.size_advance_le

theorem settles_unexpected (expected : Expected) : Settles n (unexpected expected : Parse α) :=
  settles_bind settles_current fun _ => settles_fail _ _

theorem settles_check (kind : Kind) : Settles n (check kind) :=
  settles_bind settles_current fun _ => settles_pure _

theorem settles_accept (kind : Kind) : Settles n (accept kind) :=
  settles_bind (settles_check kind) fun _ =>
    settles_ite (settles_bind settles_advance fun _ => settles_pure _) (settles_pure _)

/-- An expected token is read, or there is a complaint at its position. -/
theorem expect_apply (kind : Kind) (p : Parser) :
    expect kind p =
      if p.tokens.current.kind = kind then
        .ok p.tokens.current { p with tokens := p.tokens.advance }
      else .error ⟨.mismatch (.kind kind) p.tokens.current.kind p.tokens.current.lexeme,
        p.tokens.current.location⟩ p := by
  by_cases h : p.tokens.current.kind = kind <;>
    simp [expect, check, bind_apply, current, pure_apply, h, advance, unexpected, fail]

theorem settles_expect (kind : Kind) : Settles n (expect kind) :=
  settles_bind (settles_check kind) fun _ => settles_ite settles_advance (settles_unexpected _)

/-- Any token but the end token is read for good. -/
theorem reads_expect {kind : Kind} (hk : kind ≠ .eof) : Reads n (expect kind) := by
  intro p _
  rw [expect_apply]
  split
  · rename_i h
    have := TokenStream.size_advance_lt (s := p.tokens) (by rw [h]; exact hk)
    exact ⟨by show p.tokens.advance.size ≤ p.tokens.size - 1; omega, fun _ _ _ => by omega⟩
  · exact ⟨trivial, fun _ _ h => by cases h⟩

theorem accept_apply (kind : Kind) (p : Parser) :
    accept kind p =
      if p.tokens.current.kind = kind then .ok true { p with tokens := p.tokens.advance }
      else .ok false p := by
  by_cases h : p.tokens.current.kind = kind <;>
    simp [accept, check, bind_apply, current, pure_apply, h, advance]

/-- Where a token was accepted, what follows has one token less to go. -/
theorem reads_accept_bind {kind : Kind} (hk : kind ≠ .eof) {f : Bool → Parse β}
    (hf : Settles n (f true)) {p : Parser} (hp : p.tokens.size < n + 1)
    (ha : p.tokens.current.kind = kind) :
    ((accept kind >>= f) p).Leaves (p.tokens.size - 1) ∧ 0 < p.tokens.size := by
  have hlt := TokenStream.size_advance_lt (s := p.tokens) (by rw [ha]; exact hk)
  rw [bind_apply, accept_apply, if_pos ha]
  have h := hf { p with tokens := p.tokens.advance } (by show p.tokens.advance.size < n; omega)
  refine ⟨?_, by omega⟩
  show (f true _).Leaves _
  cases hfq : f true { p with tokens := p.tokens.advance } with
  | ok b r =>
    rw [hfq] at h
    have : r.tokens.size ≤ p.tokens.advance.size := h
    show r.tokens.size ≤ _
    omega
  | error e r => trivial
  | exhausted => rw [hfq] at h; exact h

/-- Where the next token is not the end token, what follows it has one token less to go. -/
theorem leaves_advance_bind {f : Token → Parse β} (hf : ∀ a, Settles n (f a)) {p : Parser}
    (hp : p.tokens.size < n + 1) (hk : p.tokens.current.kind ≠ .eof) :
    ((advance >>= f) p).Leaves (p.tokens.size - 1) := by
  have hlt := TokenStream.size_advance_lt hk
  have h := hf p.tokens.current { p with tokens := p.tokens.advance }
    (by show p.tokens.advance.size < n; omega)
  rw [bind_apply]
  show (f _ _).Leaves _
  cases hfq : f p.tokens.current { p with tokens := p.tokens.advance } with
  | ok b r =>
    rw [hfq] at h
    have : r.tokens.size ≤ p.tokens.advance.size := h
    show r.tokens.size ≤ _
    omega
  | error e r => trivial
  | exhausted => rw [hfq] at h; exact h

theorem settles_declare (name : Token) (binding : Binding) : Settles n (declare name binding) := by
  intro p _
  unfold declare
  split
  · exact Nat.le_refl _
  · trivial

theorem settles_resolve (name : Token) : Settles n (resolve name) := by
  intro p _
  unfold resolve
  split
  · exact Nat.le_refl _
  · trivial

theorem settles_isEnclosing (name : String) : Settles n (isEnclosing name) :=
  fun _ _ => Nat.le_refl _

/-! ## Repetition -/

/-- From fewer than `n` tokens, `step` comes to an end, and leaves fewer tokens if it gives
something. -/
structure Steps (n : Nat) (step : Parse (Option α)) : Prop where
  settles : Settles n step
  reads : ∀ p a q, p.tokens.size < n → step p = .ok (some a) q → q.tokens.size < p.tokens.size

/-- A repetition does not run out of a budget above the number of tokens, because each round reads
one. -/
theorem settles_manyWithin {step : Parse (Option α)} (h : Steps n step) :
    ∀ (budget : Nat) (p : Parser), p.tokens.size < n → p.tokens.size < budget →
      (manyWithin step budget p).Leaves p.tokens.size := by
  intro budget
  induction budget with
  | zero => intro p _ hb; exact absurd hb (Nat.not_lt_zero _)
  | succ budget ih =>
    intro p hp hb
    have hs := h.settles p hp
    simp only [manyWithin, bind_apply]
    cases hstep : step p with
    | ok a q =>
      rw [hstep] at hs
      cases a with
      | none => exact hs
      | some a =>
        have hlt := h.reads p a q hp hstep
        have hm := ih q (by omega) (by omega)
        simp only [bind_apply]
        cases hmq : manyWithin step budget q with
        | ok as r =>
          rw [hmq] at hm
          have : r.tokens.size ≤ q.tokens.size := hm
          show r.tokens.size ≤ _
          omega
        | error e r => trivial
        | exhausted => rw [hmq] at hm; exact hm
    | error e q => trivial
    | exhausted => rw [hstep] at hs; exact hs

/-- Repetition comes to an end if each round reads a token. -/
theorem settles_many {step : Parse (Option α)} (h : Steps n step) : Settles n (many step) :=
  fun p hp => settles_manyWithin h (p.tokens.size + 1) p hp (Nat.lt_succ_self _)

/-- A round that starts with a token of its own reads one. -/
theorem steps_accept {kind : Kind} (hk : kind ≠ .eof) {x : Parse (Option α)} (hx : Settles n x) :
    Steps n (do if ← accept kind then x else return none) where
  settles := settles_bind (settles_accept kind) fun _ => settles_ite hx (settles_pure _)
  reads := by
    intro p a q hp h
    by_cases hc : p.tokens.current.kind = kind
    · have := reads_accept_bind (f := fun b => if b = true then x else return none) hk
        (by simpa using hx) (p := p) (by omega) hc
      rw [h] at this
      have hle : q.tokens.size ≤ p.tokens.size - 1 := this.1
      omega
    · rw [bind_apply, accept_apply, if_neg hc] at h
      simp [pure_apply] at h

/-- A round that always reads a token. -/
theorem steps_of_reads {x : Parse (Option α)} (hx : Reads n x) : Steps n x where
  settles := hx.settles
  reads := by
    intro p a q hp h
    obtain ⟨hl, hpos⟩ := hx p hp
    have := hpos _ _ h
    rw [h] at hl
    have hle : q.tokens.size ≤ p.tokens.size - 1 := hl
    omega

/-- A round that may give nothing without reading. -/
theorem steps_ite {c : Prop} [Decidable c] {x : Parse (Option α)} (hx : Steps n x) :
    Steps n (if c then x else return none) where
  settles := settles_ite hx.settles (settles_pure _)
  reads := by
    intro p a q hp h
    split at h
    · exact hx.reads p a q hp h
    · cases h

/-- A round that first looks at the next token. -/
theorem steps_current_bind {f : Token → Parse (Option α)} (hf : ∀ a, Steps n (f a)) :
    Steps n (current >>= f) where
  settles := settles_bind settles_current fun a => (hf a).settles
  reads := fun p a q hp h => (hf p.tokens.current).reads p a q hp h

/-- A list with separators settles, because each further item is behind a separator that is read. -/
theorem settles_sepBy {separator : Kind} (hk : separator ≠ .eof) {item : Parse α}
    (hi : Settles n item) : Settles n (sepBy separator item) :=
  settles_bind hi fun _ =>
    settles_bind (settles_many (steps_accept hk (settles_bind hi fun _ => settles_pure _)))
      fun _ => settles_pure _

theorem steps_check_bind {kind : Kind} {f : Bool → Parse (Option α)} (hf : ∀ b, Steps n (f b)) :
    Steps n (check kind >>= f) where
  settles := settles_bind (settles_check kind) fun b => (hf b).settles
  reads := fun p a q hp h => (hf (p.tokens.current.kind = kind)).reads p a q hp h

/-! ## Nesting -/

/-- Nesting settles within its budget, because each level reads a token before it comes to the next.
-/
theorem settles_nestWithin {level : Parse α → Parse α}
    (h : ∀ (n : Nat) (inner : Parse α), Settles n inner → Settles (n + 1) (level inner)) :
    ∀ budget : Nat, Settles budget (nestWithin level budget)
  | 0 => fun _ hp => absurd hp (Nat.not_lt_zero _)
  | budget + 1 => h budget _ (settles_nestWithin h budget)

/-- Nesting comes to an end if each level reads a token. -/
theorem settles_nest {level : Parse α → Parse α}
    (h : ∀ (n : Nat) (inner : Parse α), Settles n inner → Settles (n + 1) (level inner)) :
    Settles n (nest level) :=
  fun p _ => settles_nestWithin h (p.tokens.size + 1) p (Nat.lt_succ_self _)

end Parse

end PascalMips
