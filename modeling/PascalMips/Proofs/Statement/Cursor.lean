import PascalMips.Proofs.Lower.Cursor
import PascalMips.Proofs.Statement.Uses

/-!
# The cursor while statements are written

Each time registers are given back, and each point between statements, is an event
(`Statement.traceAll`). An event is sound if as many registers are given back as were taken, so that
the cursor comes back to its base, and if at rest it is at the first register.

A call evaluates no more arguments than its subprogram has parameters, and gives back a register for
each argument. It is fed if it has no more arguments than parameters. In code that starts at rest all
calls are fed exactly if all events are sound, and exactly if no more is given back than was taken
(`Statement.moves_traceAll`).
-/

namespace PascalMips

/-- What happens to the cursor: it is at rest before or after a statement, or `count` registers are
given back when it has reached `reached` from `base`, after operands or an index or at the end of a
call of the subprogram `name` with `params` parameters. -/
inductive CursorEvent where
  | rest (cursor : Nat)
  | release (base reached count : Nat)
  | call (name : String) (base reached count params : Nat)
deriving DecidableEq

namespace CursorEvent

/-- Giving back leads exactly to the base; at rest the cursor is zero. -/
def Sound : CursorEvent → Prop
  | rest cursor => cursor = 0
  | release base reached count => reached = base + count
  | call _ base reached count _ => reached = base + count

/-- The subprogram of a call has a parameter for each argument. -/
def Fed : CursorEvent → Prop
  | rest _ => True
  | release _ _ _ => True
  | call _ _ _ count params => count ≤ params

instance : DecidablePred Sound
  | rest cursor => inferInstanceAs (Decidable (cursor = 0))
  | release base reached count => inferInstanceAs (Decidable (reached = base + count))
  | call _ base reached count _ => inferInstanceAs (Decidable (reached = base + count))

instance : DecidablePred Fed
  | rest _ => .isTrue trivial
  | release _ _ _ => .isTrue trivial
  | call _ _ _ count params => inferInstanceAs (Decidable (count ≤ params))

end CursorEvent

/-! ## Traces -/

namespace Expr

/-- The events of an expression that is evaluated one register above the cursor, and of the way
back. -/
def traceAbove (ctx : Context) (e : Expr) (c : Counters) (events : List CursorEvent) :
    List CursorEvent :=
  events ++ [.release c.cursor (e.lower ctx (c.take 1)).counters.cursor 1]

/-- The events of a call, whose arguments have the events given for the parameters. -/
def traceCall (ctx : Context) (name : String) (args : List Expr) (c : Counters)
    (events : List ValueType → List CursorEvent) : List CursorEvent :=
  match ctx.callee? name args.length with
  | none => []
  | some (_, params) => events params ++ [.call name c.cursor
      (lowerArgs args params ctx c).counters.cursor args.length params.length]

mutual

/-- The events of an expression that is lowered with the counters `c`. -/
def trace (ctx : Context) : Expr → Counters → List CursorEvent
  | literal _ _, _ => []
  | var _ _, _ => []
  | element _ _ index, c => traceAbove ctx index c (index.trace ctx (c.take 1))
  | call name _ args, c => traceCall ctx name args c fun params => traceArgs ctx args params c
  | binary _ left right _, c =>
    let second := (left.lower ctx (c.take 1)).counters.take 1
    left.trace ctx (c.take 1) ++ (right.trace ctx second ++
      [.release c.cursor (right.lower ctx second).counters.cursor 2])
  | unary _ operand _, c => traceAbove ctx operand c (operand.trace ctx (c.take 1))

/-- The events of the arguments that are evaluated for parameters. -/
def traceArgs (ctx : Context) : List Expr → List ValueType → Counters → List CursorEvent
  | [], _, _ => []
  | _ :: _, [], _ => []
  | arg :: args, _ :: params, c =>
    arg.trace ctx (c.take 1) ++ traceArgs ctx args params (arg.lower ctx (c.take 1)).counters

end

end Expr

/-- The events of storing a value. -/
def Target.trace (ctx : Context) : Target → Counters → List CursorEvent
  | var _ _, _ => []
  | element _ _ index, c => Expr.traceAbove ctx index c (index.trace ctx (c.take 1))

namespace Statement

/-- The events of a statement with those in it: at rest before and after it. -/
def traceAround (ctx : Context) (s : Statement) (c : Counters) (events : List CursorEvent) :
    List CursorEvent :=
  .rest c.cursor :: (events ++ [.rest (s.lower ctx c).counters.cursor])

mutual

/-- The events in a statement that is lowered with the counters `c`. -/
def trace (ctx : Context) : Statement → Counters → List CursorEvent
  | assign target value, c =>
    value.trace ctx c ++ target.trace ctx (value.lower ctx c).counters
  | compound body, c => traceAll ctx body c
  | branch test yes no, c =>
    let first := (test.lower ctx { c with ifs := c.ifs + 1 }).counters
    let second := (yes.lower ctx first).counters
    test.trace ctx { c with ifs := c.ifs + 1 } ++
      (traceAround ctx yes first (yes.trace ctx first) ++
        traceAround ctx no second (no.trace ctx second))
  | loop test body, c =>
    let first := (test.lower ctx { c with loops := c.loops + 1 }).counters
    test.trace ctx { c with loops := c.loops + 1 } ++
      traceAround ctx body first (body.trace ctx first)
  | call name args, c =>
    Expr.traceCall ctx name args c fun params => Expr.traceArgs ctx args params c
  | read target, c => target.trace ctx c
  | write value, c => value.trace ctx c

/-- The events of statements, one after the other. -/
def traceAll (ctx : Context) : List Statement → Counters → List CursorEvent
  | [], _ => []
  | s :: ss, c =>
    traceAround ctx s c (s.trace ctx c) ++ traceAll ctx ss (s.lower ctx c).counters

end

end Statement

/-! ## Calls are calls that occur -/

/-- The event is not a call, or it is one of a use in `uses`, made to the subprogram that the context
has for it. -/
def CursorEvent.From (ctx : Context) (uses : List Use) : CursorEvent → Prop
  | rest _ => True
  | release _ _ _ => True
  | call name _ _ count params => Use.call name count ∈ uses ∧
      ∃ found, ctx.symbols.lookupWithDepth? name = some found ∧
        params = (found.2.binding.params?.getD []).length

section

variable {ctx : Context} {c : Counters} {event : CursorEvent} {uses uses' : List Use}

/-- An event of some uses is one of more. -/
theorem CursorEvent.From.mono (h : event.From ctx uses) (hsub : uses ⊆ uses') :
    event.From ctx uses' := by
  cases event with
  | rest => trivial
  | release => trivial
  | call name base reached count params => exact ⟨hsub h.1, h.2⟩

/-- What happens around an expression that is evaluated above happens in it or is no call. -/
theorem Expr.from_of_mem_traceAbove {e : Expr} {events : List CursorEvent}
    (h : event ∈ events → event.From ctx uses) (hmem : event ∈ traceAbove ctx e c events) :
    event.From ctx uses := by
  rcases List.mem_append.1 hmem with hmem | hmem
  · exact h hmem
  · rw [List.mem_singleton.1 hmem]
    trivial

/-- The events of a call are those of its arguments and the call itself, for which the name is a
use. -/
theorem Expr.from_of_mem_traceCall {name : String} {args : List Expr}
    {events : List ValueType → List CursorEvent}
    (h : ∀ params, event ∈ events params → event.From ctx (usesAll args))
    (hmem : event ∈ traceCall ctx name args c events) :
    event.From ctx (.call name args.length :: usesAll args) := by
  unfold traceCall at hmem
  cases hcallee : ctx.callee? name args.length with
  | none =>
    rw [hcallee] at hmem
    cases hmem
  | some callee =>
    rw [hcallee] at hmem
    rcases List.mem_append.1 hmem with hmem | hmem
    · exact (h _ hmem).mono fun _ hu => List.mem_cons_of_mem _ hu
    · rw [List.mem_singleton.1 hmem]
      unfold Context.callee? at hcallee
      split at hcallee
      · cases hcallee
      · obtain ⟨found, hfound, rfl⟩ := Option.map_eq_some_iff.1 hcallee
        exact ⟨List.mem_cons_self, found, hfound, rfl⟩

mutual

/-- Every call in the trace of an expression is one of its uses, by induction over expressions. -/
theorem Expr.from_of_mem_trace : ∀ {e : Expr} {c : Counters}, event ∈ e.trace ctx c →
    event.From ctx e.uses
  | literal .., _, h => by rw [trace] at h; cases h
  | var .., _, h => by rw [trace] at h; cases h
  | element name _ index, c, h => by
    rw [trace] at h
    rw [uses]
    exact (from_of_mem_traceAbove from_of_mem_trace h).mono
      fun _ hu => List.mem_cons_of_mem _ hu
  | call name _ args, c, h => by
    rw [trace] at h
    rw [uses]
    exact from_of_mem_traceCall (fun _ => from_of_mem_traceArgs) h
  | binary _ left right _, c, h => by
    rw [trace] at h
    rw [uses]
    rcases List.mem_append.1 h with h | h
    · exact (from_of_mem_trace h).mono (List.subset_append_left _ _)
    · rcases List.mem_append.1 h with h | h
      · exact (from_of_mem_trace h).mono (List.subset_append_right _ _)
      · rw [List.mem_singleton.1 h]
        trivial
  | unary _ operand _, c, h => by
    rw [trace] at h
    rw [uses]
    exact from_of_mem_traceAbove from_of_mem_trace h

theorem Expr.from_of_mem_traceArgs : ∀ {args : List Expr} {params : List ValueType} {c : Counters},
    event ∈ traceArgs ctx args params c → event.From ctx (usesAll args)
  | [], _, _, h => by rw [traceArgs] at h; cases h
  | _ :: _, [], _, h => by rw [traceArgs] at h; cases h
  | arg :: args, _ :: params, c, h => by
    rw [traceArgs] at h
    rw [usesAll]
    rcases List.mem_append.1 h with h | h
    · exact (from_of_mem_trace h).mono (List.subset_append_left _ _)
    · exact (from_of_mem_traceArgs h).mono (List.subset_append_right _ _)

end

theorem Target.from_of_mem_trace {target : Target} (h : event ∈ target.trace ctx c) :
    event.From ctx target.uses := by
  cases target with
  | var => cases h
  | element name type index =>
    exact (Expr.from_of_mem_traceAbove Expr.from_of_mem_trace h).mono
      fun _ hu => List.mem_cons_of_mem _ hu

/-- What happens around a statement is no call. -/
theorem Statement.from_of_mem_traceAround {s : Statement} {events : List CursorEvent}
    (h : event ∈ events → event.From ctx uses) (hmem : event ∈ traceAround ctx s c events) :
    event.From ctx uses := by
  rcases List.mem_cons.1 hmem with rfl | hmem
  · trivial
  · rcases List.mem_append.1 hmem with hmem | hmem
    · exact h hmem
    · rw [List.mem_singleton.1 hmem]
      trivial

mutual

/-- Every call in the trace of a statement is one of its uses, by induction over statements. -/
theorem Statement.from_of_mem_trace : ∀ {s : Statement} {c : Counters}, event ∈ s.trace ctx c →
    event.From ctx s.uses
  | assign target value, c, h => by
    rw [trace] at h
    rw [uses]
    rcases List.mem_append.1 h with h | h
    · exact (Expr.from_of_mem_trace h).mono (List.subset_append_left _ _)
    · exact (Target.from_of_mem_trace h).mono (List.subset_append_right _ _)
  | compound body, c, h => by
    rw [trace] at h
    rw [uses]
    exact from_of_mem_traceAll h
  | branch test yes no, c, h => by
    rw [trace] at h
    rw [uses]
    rcases List.mem_append.1 h with h | h
    · exact (Expr.from_of_mem_trace h).mono (List.subset_append_left _ _)
    · rcases List.mem_append.1 h with h | h
      · exact (from_of_mem_traceAround from_of_mem_trace h).mono
          (List.Subset.trans (List.subset_append_left _ _) (List.subset_append_right _ _))
      · exact (from_of_mem_traceAround from_of_mem_trace h).mono
          (List.Subset.trans (List.subset_append_right _ _) (List.subset_append_right _ _))
  | loop test body, c, h => by
    rw [trace] at h
    rw [uses]
    rcases List.mem_append.1 h with h | h
    · exact (Expr.from_of_mem_trace h).mono (List.subset_append_left _ _)
    · exact (from_of_mem_traceAround from_of_mem_trace h).mono
        (List.subset_append_right _ _)
  | call name args, c, h => by
    rw [trace] at h
    rw [uses]
    exact Expr.from_of_mem_traceCall (fun _ => Expr.from_of_mem_traceArgs) h
  | read target, c, h => by
    rw [trace] at h
    rw [uses]
    exact Target.from_of_mem_trace h
  | write value, c, h => by
    rw [trace] at h
    rw [uses]
    exact Expr.from_of_mem_trace h

/-- Calls in the events of statements come from calls in the statements. -/
theorem Statement.from_of_mem_traceAll : ∀ {ss : List Statement} {c : Counters},
    event ∈ traceAll ctx ss c → event.From ctx (usesAll ss)
  | [], _, h => by rw [traceAll] at h; cases h
  | s :: ss, c, h => by
    rw [traceAll] at h
    rw [usesAll]
    rcases List.mem_append.1 h with h | h
    · exact (from_of_mem_traceAround from_of_mem_trace h).mono
        (List.subset_append_left _ _)
    · exact (from_of_mem_traceAll h).mono (List.subset_append_right _ _)

end

end

/-! ## How the cursor moves -/

/-- How code moves the cursor, from the counters `c` to `d`, that takes `count` registers for values
and keeps them, with the events on the way. -/
structure CursorMoves (c d : Counters) (count : Nat) (events : List CursorEvent) : Prop where
  /-- The cursor does not rise further. -/
  le : d.cursor ≤ c.cursor + count
  /-- What is overdrawn stays so. -/
  solvent : d.overdrawn = false → c.overdrawn = false
  /-- If it rises so far and nothing is overdrawn, calls are fed. -/
  fed : d.overdrawn = false → d.cursor = c.cursor + count → ∀ event ∈ events, event.Fed
  /-- If calls are fed, it rises so far and nothing comes to be overdrawn. -/
  kept : (∀ event ∈ events, event.Fed) →
    d.cursor = c.cursor + count ∧ d.overdrawn = c.overdrawn
  sound_iff : (∀ event ∈ events, event.Sound) ↔ ∀ event ∈ events, event.Fed

namespace CursorMoves

variable {c c' d e : Counters} {m n k : Nat} {xs ys : List CursorEvent} {event : CursorEvent}

theorem refl (c : Counters) : CursorMoves c c 0 [] where
  le := Nat.le_refl _
  solvent := id
  fed _ _ := nofun
  kept _ := ⟨rfl, rfl⟩
  sound_iff := ⟨fun _ => nofun, fun _ => nofun⟩

/-- The numbers of choices and loops do not matter. -/
theorem of_eq (h : CursorMoves c' d n xs) (hcursor : c'.cursor = c.cursor)
    (hoverdrawn : c'.overdrawn = c.overdrawn) : CursorMoves c d n xs where
  le := hcursor ▸ h.le
  solvent := hoverdrawn ▸ h.solvent
  fed := hcursor ▸ h.fed
  kept := hcursor ▸ hoverdrawn ▸ h.kept
  sound_iff := h.sound_iff

/-- Code that starts with a register taken. -/
theorem of_take (h : CursorMoves (c.take m) d n xs) : CursorMoves c d (m + n) xs where
  le := by
    have := h.le
    rw [Counters.cursor_take] at this
    omega
  solvent := h.solvent
  fed hd hcursor := h.fed hd (by rw [hcursor, Counters.cursor_take, Nat.add_assoc])
  kept hfed := by
    obtain ⟨hcursor, hoverdrawn⟩ := h.kept hfed
    exact ⟨by rw [hcursor, Counters.cursor_take, Nat.add_assoc], hoverdrawn⟩
  sound_iff := h.sound_iff

/-- One way after the other. If the whole rises as far as both ways can and nothing is overdrawn, so
it is with each of them. -/
theorem append (h₁ : CursorMoves c d m xs) (h₂ : CursorMoves d e n ys) :
    CursorMoves c e (m + n) (xs ++ ys) where
  le := by
    have hfirst := h₁.le
    have hsecond := h₂.le
    omega
  solvent he := h₁.solvent (h₂.solvent he)
  fed he hcursor := by
    -- both parts rise as far as they can, or the whole would not
    have hfirst := h₁.le
    have hsecond := h₂.le
    exact List.forall_mem_append.2
      ⟨h₁.fed (h₂.solvent he) (by omega), h₂.fed he (by omega)⟩
  kept hfed := by
    obtain ⟨hxs, hys⟩ := List.forall_mem_append.1 hfed
    obtain ⟨hcursor, hoverdrawn⟩ := h₁.kept hxs
    obtain ⟨hcursor', hoverdrawn'⟩ := h₂.kept hys
    exact ⟨by omega, hoverdrawn'.trans hoverdrawn⟩
  sound_iff := by rw [List.forall_mem_append, List.forall_mem_append, h₁.sound_iff, h₂.sound_iff]

/-- Code that gives back `n` registers where at most `k` of them were taken. -/
theorem giveBack (h : CursorMoves c d (min n k) xs) (hfed : event.Fed ↔ n ≤ k)
    (hsound : event.Sound ↔ d.cursor = c.cursor + n) :
    CursorMoves c (d.release n) 0 (xs ++ [event]) where
  le := by
    have := h.le
    rw [Counters.cursor_release]
    omega
  solvent hd := h.solvent (Counters.overdrawn_release.1 hd).1
  fed hd hcursor := by
    obtain ⟨hsolvent, hn⟩ := Counters.overdrawn_release.1 hd
    have hle := h.le
    rw [Counters.cursor_release] at hcursor
    refine List.forall_mem_append.2 ⟨h.fed hsolvent (by omega), List.forall_mem_singleton.2 ?_⟩
    exact hfed.2 (by omega)
  kept hall := by
    obtain ⟨hxs, hevent⟩ := List.forall_mem_append.1 hall
    have hnk := hfed.1 (List.forall_mem_singleton.1 hevent)
    obtain ⟨hcursor, hoverdrawn⟩ := h.kept hxs
    rw [Counters.overdrawn_release_of_le (by omega), Counters.cursor_release]
    exact ⟨by omega, hoverdrawn⟩
  sound_iff := by
    rw [List.forall_mem_append, List.forall_mem_append, List.forall_mem_singleton,
      List.forall_mem_singleton, h.sound_iff, hfed, hsound]
    refine and_congr_right fun hxs => ?_
    have hcursor := (h.kept hxs).1
    omega

/-- Operands or an index: all registers that were taken are given back. -/
theorem release (h : CursorMoves c d n xs) :
    CursorMoves c (d.release n) 0 (xs ++ [.release c.cursor d.cursor n]) := by
  rw [← Nat.min_self n] at h
  exact h.giveBack ⟨fun _ => Nat.le_refl n, fun _ => trivial⟩ Iff.rfl

/-- From the first register the cursor can go nowhere but there. -/
theorem rests (h : CursorMoves c d 0 xs) (hc : c.cursor = 0) : d.cursor = 0 := by
  have := h.le
  omega

/-- The cursor is at rest before and after a statement. -/
theorem around (h : CursorMoves c d 0 xs) (hc : c.cursor = 0) :
    CursorMoves c d 0 (.rest c.cursor :: (xs ++ [.rest d.cursor])) where
  le := h.le
  solvent := h.solvent
  fed hd hcursor := List.forall_mem_cons.2 ⟨trivial, List.forall_mem_append.2
    ⟨h.fed hd hcursor, List.forall_mem_singleton.2 trivial⟩⟩
  kept hall := h.kept (List.forall_mem_append.1 (List.forall_mem_cons.1 hall).2).1
  sound_iff := by
    have hd := h.rests hc
    rw [List.forall_mem_cons, List.forall_mem_cons, List.forall_mem_append, List.forall_mem_append,
      List.forall_mem_singleton, List.forall_mem_singleton, h.sound_iff]
    exact ⟨fun hall => ⟨trivial, hall.2.1, trivial⟩, fun hall => ⟨hc, hall.2.1, hd⟩⟩

/-- From the first register on, nothing is overdrawn exactly if calls are fed. -/
theorem overdrawn_iff (h : CursorMoves c d 0 xs) (hc : c.cursor = 0)
    (hsolvent : c.overdrawn = false) :
    d.overdrawn = false ↔ ∀ event ∈ xs, event.Fed :=
  ⟨fun hd => h.fed hd ((h.rests hc).trans hc.symm), fun hfed => (h.kept hfed).2.trans hsolvent⟩

end CursorMoves

section

variable {ctx : Context}

/-- An argument is evaluated one register above, which it keeps. -/
theorem Expr.counters_lowerArgs_cons (arg : Expr) (args : List Expr) (param : ValueType)
    (params : List ValueType) (c : Counters) : (lowerArgs (arg :: args) (param :: params) ctx
      c).counters = (lowerArgs args params ctx (arg.lower ctx (c.take 1)).counters).counters := by
  simp only [lowerArgs, Lower.bind_apply, Lower.take_apply, Lower.cursor_apply,
    Lower.still_register _ _ _, Lower.still_convert _ _ _ _ _]

theorem Expr.counters_call (name : String) (type : ValueType) (args : List Expr) (c : Counters) :
    ((call name type args).lower ctx c).counters =
      (Lower.call name args.length (lowerArgs args) ctx c).counters := by
  rw [lower, Lower.counters_callValue]

/-- A call evaluates an argument for each parameter, as far as there are both. -/
theorem Expr.moves_traceCall {name : String} {args : List Expr} {c : Counters}
    {events : List ValueType → List CursorEvent}
    (h : ∀ params : List ValueType, CursorMoves c (lowerArgs args params ctx c).counters
      (min args.length params.length) (events params)) :
    CursorMoves c (Lower.call name args.length (lowerArgs args) ctx c).counters 0
      (traceCall ctx name args c events) := by
  unfold traceCall
  cases hcallee : ctx.callee? name args.length with
  | none =>
    obtain ⟨d, hcall⟩ := Lower.call_of_none (c := c) (lowerArgs args) hcallee
    rw [hcall]
    exact .refl c
  | some callee =>
    rw [Lower.call_of_some (lowerArgs args) hcallee]
    exact (h callee.2).giveBack Iff.rfl Iff.rfl

mutual

/-- The way of the cursor through an expression, by induction over expressions: it comes back to
where it was if all calls in it are fed. -/
theorem Expr.moves_trace : ∀ (e : Expr) (c : Counters),
    CursorMoves c (e.lower ctx c).counters 0 (e.trace ctx c)
  | literal .., c => by
    rw [lower, Lower.still_literal, trace]
    exact .refl c
  | var .., c => by
    rw [lower, Lower.still_variableValue, trace]
    exact .refl c
  | element _ _ index, c => by
    rw [lower, Lower.counters_elementValue, trace]
    exact (moves_trace index (c.take 1)).of_take.release
  | call name type args, c => by
    rw [counters_call, trace]
    exact moves_traceCall fun params => moves_traceArgs args params c
  | binary _ left right _, c => by
    rw [lower, Lower.counters_binary, trace, ← List.append_assoc]
    exact ((moves_trace left (c.take 1)).of_take.append (moves_trace right _).of_take).release
  | unary _ operand _, c => by
    rw [lower, Lower.counters_unary, trace]
    exact (moves_trace operand (c.take 1)).of_take.release

/-- Arguments take a register each, as long as there are parameters. -/
theorem Expr.moves_traceArgs : ∀ (args : List Expr) (params : List ValueType) (c : Counters),
    CursorMoves c (lowerArgs args params ctx c).counters (min args.length params.length)
      (traceArgs ctx args params c)
  | [], params, c => by
    rw [lowerArgs, Lower.still_pure, traceArgs, List.length_nil, Nat.zero_min]
    exact .refl c
  | _ :: _, [], c => by
    rw [lowerArgs, Lower.still_pure, traceArgs, List.length_nil, Nat.min_zero]
    exact .refl c
  | arg :: args, _ :: params, c => by
    rw [counters_lowerArgs_cons, traceArgs, List.length_cons, List.length_cons,
      Nat.add_min_add_right, Nat.add_comm]
    exact (moves_trace arg (c.take 1)).of_take.append (moves_traceArgs args params _)

end

/-- The cursor does not rise. -/
theorem Expr.cursor_lower_le (e : Expr) (ctx : Context) (c : Counters) :
    (e.lower ctx c).counters.cursor ≤ c.cursor :=
  (e.moves_trace c).le

/-- From zero, an expression leaves the cursor at zero, fed or not. -/
theorem Expr.rests_lower (e : Expr) (ctx : Context) {c : Counters} (hc : c.cursor = 0) :
    (e.lower ctx c).counters.cursor = 0 :=
  (e.moves_trace c).rests hc

/-- A store evaluates the index of its place, if there is one. -/
theorem Target.moves_trace (target : Target) (source : Reg) (c : Counters) :
    CursorMoves c (Lower.store target source ctx c).counters 0 (target.trace ctx c) := by
  cases target with
  | var name type =>
    rw [Lower.counters_store_var]
    exact .refl c
  | element name type index =>
    rw [Lower.counters_store_element]
    exact (Expr.moves_trace index (c.take 1)).of_take.release

mutual

/-- The way of the cursor through a statement from zero, by induction over statements. Between
statements the cursor is zero even after an overdraft, which is why the way can go on. -/
theorem Statement.moves_trace : ∀ (s : Statement) {c : Counters}, c.cursor = 0 →
    CursorMoves c (s.lower ctx c).counters 0 (s.trace ctx c)
  | assign target value, c, _ => by
    obtain ⟨source, hassign⟩ := Lower.counters_assign target value ctx c
    rw [lower, hassign, trace]
    exact (Expr.moves_trace value c).append (Target.moves_trace target source _)
  | compound body, c, hc => by
    rw [lower, trace]
    exact moves_traceAll body hc
  | branch test yes no, c, hc => by
    have hc₁ := test.rests_lower ctx (c := { c with ifs := c.ifs + 1 }) hc
    have hyes := moves_trace yes hc₁
    have hc₂ := hyes.rests hc₁
    have hcounters : ((branch test yes no).lower ctx c).counters = (no.lower ctx (yes.lower ctx
        (test.lower ctx { c with ifs := c.ifs + 1 }).counters).counters).counters := by
      rw [lower, ← Lower.counters_branchUnless test (.otherwise c.ifs)]
      rfl
    rw [hcounters, trace]
    exact ((test.moves_trace _).append ((hyes.around hc₁).append
      ((moves_trace no hc₂).around hc₂))).of_eq rfl rfl
  | loop test body, c, hc => by
    have hc₁ := test.rests_lower ctx (c := { c with loops := c.loops + 1 }) hc
    have hcounters : ((loop test body).lower ctx c).counters = (body.lower ctx
        (test.lower ctx { c with loops := c.loops + 1 }).counters).counters := by
      rw [lower, ← Lower.counters_branchUnless test (.endLoop c.loops)]
      rfl
    rw [hcounters, trace]
    exact ((test.moves_trace _).append ((moves_trace body hc₁).around hc₁)).of_eq rfl rfl
  | call name args, c, _ => by
    rw [lower, Lower.counters_callProcedure, trace]
    exact Expr.moves_traceCall fun params => Expr.moves_traceArgs args params c
  | read target, c, _ => by
    obtain ⟨source, hread⟩ := Lower.counters_read target ctx c
    rw [lower, hread, trace]
    exact Target.moves_trace target source c
  | write value, c, _ => by
    rw [lower, Lower.counters_write, trace]
    exact Expr.moves_trace value c

/-- How statements that start at rest move the cursor. -/
theorem Statement.moves_traceAll : ∀ (ss : List Statement) {c : Counters}, c.cursor = 0 →
    CursorMoves c (lowerAll ss ctx c).counters 0 (traceAll ctx ss c)
  | [], c, _ => by
    rw [lowerAll, traceAll]
    exact .refl c
  | s :: ss, c, hc => by
    have hs := moves_trace s hc
    rw [lowerAll, traceAll]
    exact (hs.around hc).append (moves_traceAll ss (hs.rests hc))

end

theorem Statement.rests_lower (s : Statement) (ctx : Context) {c : Counters} (hc : c.cursor = 0) :
    (s.lower ctx c).counters.cursor = 0 :=
  (s.moves_trace hc).rests hc

end

end PascalMips
