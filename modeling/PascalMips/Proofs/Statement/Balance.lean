import PascalMips.Program.Lower
import PascalMips.Proofs.Lower.Labels
import PascalMips.Proofs.Statement.Cursor

/-!
# What a statement leaves of the generator's state

A statement whose calls are fed, with no more arguments than their subprograms have parameters,
leaves the cursor where it was, wherever that is, and draws one number for each choice and each loop
in it (`Statement.counters_lower`). The labels of its code are those with the numbers that it draws
(`Statement.fills_lower`), each of them once. So writing a statement only adds lines and raises the
two counters (`Generator.emitStatement_frame`).
-/

namespace PascalMips

/-- A call to a visible symbol has no more arguments than the symbol has parameters. -/
def Use.Fed (t : SymbolTable) : Use → Prop
  | element _ => True
  | call name count => ∀ symbol ∈ t.lookup? name, count ≤ (symbol.binding.params?.getD []).length

instance (t : SymbolTable) : DecidablePred (Use.Fed t)
  | .element _ => .isTrue trivial
  | .call name count => inferInstanceAs (Decidable (∀ symbol ∈ t.lookup? name,
      count ≤ (symbol.binding.params?.getD []).length))

/-! ## Expressions keep the counters -/

section

variable {ctx : Context}

/-- A call that is made to the subprogram of a fed use has a parameter for each argument. -/
theorem Context.length_le_of_callee? {name : String} {count : Nat} {label : Label}
    {params : List ValueType} (h : ctx.callee? name count = some (label, params))
    (hfed : (Use.call name count).Fed ctx.symbols) : count ≤ params.length := by
  unfold callee? at h
  split at h
  · cases h
  · obtain ⟨found, hfound, heq⟩ := Option.map_eq_some_iff.1 h
    cases heq
    refine hfed found.2 ?_
    rw [SymbolTable.lookup?, hfound]
    rfl

/-- A call that is fed gives back the registers of its arguments. -/
theorem Lower.counters_call_of_fed {name : String} {args : List Expr} {c : Counters}
    (hfed : (Use.call name args.length).Fed ctx.symbols)
    (hargs : ∀ params : List ValueType, args.length ≤ params.length →
      (Expr.lowerArgs args params ctx c).counters = c.take args.length) :
    (call name args.length (Expr.lowerArgs args) ctx c).counters = c := by
  cases hcallee : ctx.callee? name args.length with
  | none =>
    obtain ⟨d, hcall⟩ := call_of_none (Expr.lowerArgs args) hcallee
    rw [hcall]
  | some callee =>
    rw [call_of_some (Expr.lowerArgs args) hcallee]
    simp [hargs _ (ctx.length_le_of_callee? hcallee hfed)]

mutual

/-- Evaluating an expression brings the cursor back, wherever it was. -/
theorem Expr.counters_lower : ∀ (e : Expr) (c : Counters),
    (∀ u ∈ e.uses, u.Fed ctx.symbols) → (e.lower ctx c).counters = c
  | literal .., c, _ => by rw [lower, Lower.still_literal]
  | var .., c, _ => by rw [lower, Lower.still_variableValue]
  | element _ _ index, c, h => by
    rw [uses, List.forall_mem_cons] at h
    rw [lower, Lower.counters_elementValue, counters_lower index _ h.2, Counters.release_take]
  | call _ _ args, c, h => by
    rw [uses, List.forall_mem_cons] at h
    rw [counters_call]
    exact Lower.counters_call_of_fed h.1 fun params hle => counters_lowerArgs args params c h.2 hle
  | binary _ left right _, c, h => by
    rw [uses, List.forall_mem_append] at h
    rw [lower, Lower.counters_binary, counters_lower left _ h.1, counters_lower right _ h.2,
      Counters.take_take, Counters.release_take]
  | unary _ operand _, c, h => by
    rw [uses] at h
    rw [lower, Lower.counters_unary, counters_lower operand _ h, Counters.release_take]

/-- Arguments with a parameter each take a register each. -/
theorem Expr.counters_lowerArgs : ∀ (args : List Expr) (params : List ValueType) (c : Counters),
    (∀ u ∈ usesAll args, u.Fed ctx.symbols) → args.length ≤ params.length →
      (lowerArgs args params ctx c).counters = c.take args.length
  | [], _, c, _, _ => by
    rw [lowerArgs, Lower.still_pure]
    exact c.take_zero.symm
  | _ :: _, [], _, _, hle => by cases hle
  | arg :: args, param :: params, c, h, hle => by
    rw [usesAll, List.forall_mem_append] at h
    rw [counters_lowerArgs_cons, counters_lower arg _ h.1,
      counters_lowerArgs args params _ h.2 (Nat.le_of_succ_le_succ hle), Counters.take_take,
      List.length_cons, Nat.add_comm]

end

theorem Lower.counters_store {target : Target} {c : Counters} (source : Reg)
    (h : ∀ u ∈ target.uses, u.Fed ctx.symbols) : (store target source ctx c).counters = c := by
  cases target with
  | var name type => rw [counters_store_var]
  | element name type index =>
    rw [Target.uses, List.forall_mem_cons] at h
    rw [counters_store_element, Expr.counters_lower index _ h.2, Counters.release_take]

end

/-! ## Statements draw a number for each choice and each loop -/

namespace Statement

mutual

/-- A statement and the statements in it. -/
def nodes : Statement → List Statement
  | assign target value => [assign target value]
  | compound body => compound body :: nodesAll body
  | branch test yes no => branch test yes no :: (yes.nodes ++ no.nodes)
  | loop test body => loop test body :: body.nodes
  | call name args => [call name args]
  | read target => [read target]
  | write value => [write value]

def nodesAll : List Statement → List Statement
  | [] => []
  | s :: ss => s.nodes ++ nodesAll ss

end

def isBranch : Statement → Bool
  | branch .. => true
  | _ => false

def isLoop : Statement → Bool
  | loop .. => true
  | _ => false

end Statement

/-- Counters after as many choices and loops as there are among `nodes`. -/
def Counters.draw (c : Counters) (nodes : List Statement) : Counters :=
  { c with ifs := c.ifs + nodes.countP Statement.isBranch,
           loops := c.loops + nodes.countP Statement.isLoop }

theorem Counters.draw_append (c : Counters) (first later : List Statement) :
    c.draw (first ++ later) = (c.draw first).draw later := by
  simp only [draw, List.countP_append, Nat.add_assoc]

theorem Counters.draw_cons (c : Counters) (s : Statement) (later : List Statement) :
    c.draw (s :: later) = (c.draw [s]).draw later := c.draw_append [s] later

section

variable {ctx : Context}

mutual

/-- A statement brings the cursor back, and draws a number for each choice and each loop in it. -/
theorem Statement.counters_lower : ∀ (s : Statement) (c : Counters),
    (∀ u ∈ s.uses, u.Fed ctx.symbols) → (s.lower ctx c).counters = c.draw s.nodes
  | assign target value, c, h => by
    rw [uses, List.forall_mem_append] at h
    obtain ⟨source, hstore⟩ := Lower.counters_assign target value ctx c
    rw [lower, hstore, value.counters_lower _ h.1, Lower.counters_store source h.2, nodes]
    rfl
  | compound body, c, h => by
    rw [uses] at h
    rw [lower, counters_lowerAll body c h, nodes]
    rfl
  | branch test yes no, c, h => by
    rw [uses, List.forall_mem_append, List.forall_mem_append] at h
    have hcounters : (Lower.branch test yes.lower no.lower ctx c).counters =
        (no.lower ctx (yes.lower ctx (Lower.branchUnless test (.otherwise c.ifs) ctx
          { c with ifs := c.ifs + 1 }).counters).counters).counters := rfl
    rw [lower, hcounters, Lower.counters_branchUnless, test.counters_lower _ h.1,
      counters_lower yes _ h.2.1, counters_lower no _ h.2.2, nodes, Counters.draw_cons,
      Counters.draw_append]
    rfl
  | loop test body, c, h => by
    rw [uses, List.forall_mem_append] at h
    have hcounters : (Lower.loop test body.lower ctx c).counters =
        (body.lower ctx (Lower.branchUnless test (.endLoop c.loops) ctx
          { c with loops := c.loops + 1 }).counters).counters := rfl
    rw [lower, hcounters, Lower.counters_branchUnless, test.counters_lower _ h.1,
      counters_lower body _ h.2, nodes, Counters.draw_cons]
    rfl
  | call name args, c, h => by
    rw [uses, List.forall_mem_cons] at h
    rw [lower, Lower.counters_callProcedure, nodes]
    exact Lower.counters_call_of_fed h.1 fun params hle =>
      Expr.counters_lowerArgs args params c h.2 hle
  | read target, c, h => by
    rw [uses] at h
    obtain ⟨source, hstore⟩ := Lower.counters_read target ctx c
    rw [lower, hstore, Lower.counters_store source h, nodes]
    rfl
  | write value, c, h => by
    rw [uses] at h
    rw [lower, Lower.counters_write, value.counters_lower _ h, nodes]
    rfl

/-- Statements whose calls are fed draw a number for each choice and each loop, and leave the cursor
where it was. -/
theorem Statement.counters_lowerAll : ∀ (ss : List Statement) (c : Counters),
    (∀ u ∈ usesAll ss, u.Fed ctx.symbols) → (lowerAll ss ctx c).counters = c.draw (nodesAll ss)
  | [], c, _ => by
    rw [lowerAll, nodesAll]
    rfl
  | s :: ss, c, h => by
    rw [usesAll, List.forall_mem_append] at h
    rw [lowerAll, nodesAll, Counters.draw_append, ← counters_lower s c h.1,
      ← counters_lowerAll ss _ h.2]
    rfl

end

end

/-! ## Every number that is drawn defines its labels -/

namespace Label

variable {c c' d : Counters} {l : Label}

theorem DrawnBetween.split (h : l.DrawnBetween c d) (c' : Counters) :
    l.DrawnBetween c c' ∨ l.DrawnBetween c' d := by
  cases l <;> simp only [DrawnBetween] at h ⊢ <;> omega

theorem not_drawnBetween_of_eq (hifs : c'.ifs = c.ifs) (hloops : c'.loops = c.loops) :
    ¬ l.DrawnBetween c c' := by
  intro h
  cases l <;> simp only [DrawnBetween] at h <;> omega

end Label

namespace Lower

variable {α β : Type}

/-- The code defines every label with a number that it draws, in any context. -/
def Fills (x : Lower α) : Prop :=
  ∀ ctx c l, Label.DrawnBetween c (x ctx c).counters l → l ∈ labelsOf (x ctx c).lines

theorem Plain.fills {x : Lower α} (h : Plain x) : Fills x := fun ctx c _ hl =>
  absurd hl (Label.not_drawnBetween_of_eq (h.ifs ctx c) (h.loops ctx c))

theorem Fills.bind {x : Lower α} {f : α → Lower β} (hx : Fills x) (hf : ∀ a, Fills (f a)) :
    Fills (x >>= f) := by
  intro ctx c l hl
  rw [bind_apply, labelsOf_append, List.mem_append]
  rcases hl.split (x ctx c).counters with hl | hl
  · exact .inl (hx ctx c l hl)
  · exact .inr (hf _ ctx _ l hl)

/-- A choice defines both labels with the number that it draws. -/
theorem fills_branch (test : Expr) {yes no : Lower Unit} (hyes : Fills yes) (hno : Fills no) :
    Fills (branch test yes no) := by
  intro ctx c l hl
  obtain ⟨c₂, hifs, hloops, hlabels, hcount⟩ := labels_branch test yes no ctx c
  rw [hcount] at hl
  simp only [hlabels, List.mem_append, List.mem_cons, List.not_mem_nil, or_false]
  -- The first number is that of the choice itself.
  rcases hl.split c₂ with hl | hl
  · cases l <;> simp only [Label.DrawnBetween, hifs, hloops] at hl
    case otherwise n => exact .inr (.inl (congrArg _ (by omega)))
    case endIf n => exact .inr (.inr (.inr (congrArg _ (by omega))))
    all_goals omega
  · rcases hl.split (yes ctx c₂).counters with hl | hl
    · exact .inl (hyes ctx c₂ l hl)
    · exact .inr (.inr (.inl (hno ctx _ l hl)))

/-- A loop defines both labels with the number that it draws. -/
theorem fills_loop (test : Expr) {body : Lower Unit} (hbody : Fills body) :
    Fills (loop test body) := by
  intro ctx c l hl
  obtain ⟨c₂, hifs, hloops, hlabels, hcount⟩ := labels_loop test body ctx c
  rw [hcount] at hl
  simp only [hlabels, List.mem_append, List.mem_cons, List.not_mem_nil, or_false]
  rcases hl.split c₂ with hl | hl
  · cases l <;> simp only [Label.DrawnBetween, hifs, hloops] at hl
    case loop n => exact .inl (congrArg _ (by omega))
    case endLoop n => exact .inr (.inr (congrArg _ (by omega)))
    all_goals omega
  · exact .inr (.inl (hbody ctx c₂ l hl))

end Lower

namespace Statement

open Lower

mutual

/-- Every number that a statement draws defines its labels, by induction over statements. -/
theorem fills_lower : ∀ s : Statement, Fills s.lower
  | assign target value => by rw [lower]; exact (plain_assign target value).fills
  | compound body => by rw [lower]; exact fills_lowerAll body
  | branch test yes no => by rw [lower]; exact fills_branch test (fills_lower yes) (fills_lower no)
  | loop test body => by rw [lower]; exact fills_loop test (fills_lower body)
  | call name args => by rw [lower]; exact (plain_callProcedure name args).fills
  | read target => by rw [lower]; exact (plain_read target).fills
  | write value => by rw [lower]; exact (plain_write value).fills

theorem fills_lowerAll : ∀ ss : List Statement, Fills (lowerAll ss)
  | [] => by rw [lowerAll]; exact (plain_pure ()).fills
  | s :: ss => by rw [lowerAll]; exact (fills_lower s).bind fun _ => fills_lowerAll ss

end

end Statement

/-! ## Writing a statement -/

namespace Generator

/-- Writing a statement with fed calls only adds lines and raises the counters of choices and loops,
by the number of each in the statement. The labels that are added are those with a number between
the old counters and the new ones, each of them once. -/
theorem emitStatement_frame (g : Generator) (s : Statement)
    (h : ∀ u ∈ s.uses, u.Fed g.symbols) :
    (g.emitStatement s).context = g.context ∧
      (g.emitStatement s).counters = ⟨g.counters.cursor,
        g.counters.ifs + s.nodes.countP Statement.isBranch,
        g.counters.loops + s.nodes.countP Statement.isLoop, g.counters.overdrawn⟩ ∧
      ∃ added, (g.emitStatement s).lines = g.lines ++ added ∧
        (g.emitStatement s).diagnostics = g.diagnostics ++ diagnosticsOf added ∧
        (labelsOf added).Nodup ∧
        ∀ l, l ∈ labelsOf added ↔ l.DrawnBetween g.counters (g.emitStatement s).counters := by
  have hdraws := s.draws_lower g.context g.counters
  refine ⟨rfl, s.counters_lower g.counters h, (s.lower g.context g.counters).lines, rfl, ?_,
    hdraws.nodup, fun l => ?_⟩
  · exact List.filterMap_append
  · exact ⟨hdraws.drawn l, s.fills_lower g.context g.counters l⟩

/-- A generator inside a subprogram `q`, above the first register and after some choices and loops,
that has marked an error. -/
def midway : Generator where
  context :=
    { symbols := ⟨[], [⟨0, "x", .scalar .integer, none⟩,
        ⟨1, "p", .procedure [.integer, .real], none⟩], 2⟩
      storage := ⟨[(0, .global (.ofVariable "x"))]⟩
      path := ["q"] }
  counters := ⟨2, 3, 1, false⟩
  lines := [.mark (.undeclared "z")]

/-- A choice in a loop, with an index on a simple variable, a call that lacks an argument, and calls
and variables of unknown names. -/
def confused : Statement :=
  .loop (.binary (.rel .lt) (.var "x" .integer) (.var "y" .real) .integer)
    (.branch (.call "p" .integer [.var "x" .integer])
      (.assign (.element "x" .integer (.literal "1" .integer)) (.literal "z" .real))
      (.compound [.call "p" [.unary .neg (.var "x" .integer) .integer],
        .call "w" (List.replicate 5 (.var "x" .integer))]))

theorem midway_emitStatement_confused : (∀ u ∈ confused.uses, u.Fed midway.symbols) ∧
    (midway.emitStatement confused).context = midway.context ∧
      (midway.emitStatement confused).counters = ⟨2, 4, 2, false⟩ ∧
      ∃ added, (midway.emitStatement confused).lines = midway.lines ++ added ∧
        (labelsOf added).Nodup ∧
        ∀ l, l ∈ labelsOf added ↔ l.DrawnBetween ⟨2, 3, 1, false⟩ ⟨2, 4, 2, false⟩ := by
  have hfed : ∀ u ∈ confused.uses, u.Fed midway.symbols := by decide
  obtain ⟨hcontext, hcounters, added, hlines, -, hnodup, hlabels⟩ :=
    emitStatement_frame midway confused hfed
  replace hcounters := hcounters.trans (show _ = (⟨2, 4, 2, false⟩ : Counters) by decide)
  rw [hcounters] at hlabels
  exact ⟨hfed, hcontext, hcounters, added, hlines, hnodup, hlabels⟩

end Generator

end PascalMips
