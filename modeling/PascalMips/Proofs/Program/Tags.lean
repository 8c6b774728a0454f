import PascalMips.Program.Source
import PascalMips.Proofs.Lower.Chunks
import PascalMips.Proofs.Machine.TagRuns
import PascalMips.Proofs.Program.Names
import PascalMips.Proofs.Statement.Tags

/-!
# Integers and reals in generated code

The code of an expression or a statement takes no integer for a real and no real for an integer, on
any path, if each call passes as many arguments as the subprogram has parameters; and every run of
the machine through the code takes such a path (`safe_of_lower`).

Calls pass as many arguments when they are read. But a subprogram that is declared later can hide the
one that was meant. If it has more parameters, it is called with whatever the argument registers
happen to hold (`misledSource_unsafe`).
-/

namespace PascalMips

/-! ## Code of a context -/

/-- Code in chunks whose targets are its own labels jumps nowhere else, and no chunk returns. -/
theorem Chunked.enclosed {ctx : Context} {uses : List Use} {lines : List Line}
    (h : Chunked ctx uses (· ∈ labelsOf lines) lines) : Enclosed lines := by
  obtain ⟨chunks, hchunks, hflat⟩ := h
  have hkinds : ∀ i, .instr i ∈ lines → i.IsStraight ∨
      (∃ l, i.jump? = some l ∧ l ∈ labelsOf lines) ∨ ∃ l, i = .jal l := by
    intro i hi
    rw [← hflat] at hi
    obtain ⟨xs, hxs, hmem⟩ := List.mem_flatten.1 hi
    rcases (hchunks xs hxs).kind_cases with
      hstraight | ⟨i', l, rfl, hjump, hown⟩ | ⟨_, _, l, _, rfl, -, -⟩
    · exact .inl (hstraight _ hmem)
    · cases List.mem_singleton.1 hmem
      exact .inr (.inl ⟨l, hjump, hown⟩)
    · cases List.mem_singleton.1 hmem
      exact .inr (.inr ⟨l, rfl⟩)
  constructor
  · intro i l hi hjump
    rcases hkinds i hi with hstraight | ⟨l', hjump', hown⟩ | ⟨l', rfl⟩
    · rw [hstraight.jump?_eq_none] at hjump
      cases hjump
    · cases hjump.symm.trans hjump'
      exact hown
    · cases hjump
  · intro rs hi
    rcases hkinds _ hi with hstraight | ⟨l, hjump, -⟩ | ⟨l, heq⟩
    · exact hstraight
    · cases hjump
    · cases heq

/-- The names of a context are words, as names in a source text are. -/
def Context.Worded (ctx : Context) : Prop :=
  (∀ x ∈ ctx.path, IsWord x) ∧ ∀ scope ∈ ctx.symbols.scopes, ∀ symbol ∈ scope, IsWord symbol.name

instance : DecidablePred Context.Worded := fun _ => inferInstanceAs (Decidable (_ ∧ _))

/-- A label of a visible subprogram ends in its name. -/
theorem Context.Worded.name_inj {ctx : Context} (h : ctx.Worded) {x y : String} {d e : Nat}
    {symbol symbol' : Symbol} (hx : ctx.symbols.lookupWithDepth? x = some (d, symbol))
    (hy : ctx.symbols.lookupWithDepth? y = some (e, symbol'))
    (heq : Lower.routineLabel ctx.path d x = Lower.routineLabel ctx.path e y) : x = y := by
  have hwords : ∀ {z n found}, ctx.symbols.lookupWithDepth? z = some (n, found) →
      ∀ w ∈ ctx.path.take (n - 1) ++ [z], IsWord w := by
    intro z n found hz w hw
    rcases List.mem_append.1 hw with hw | hw
    · exact h.1 w (List.mem_of_mem_take hw)
    · obtain ⟨scope, hscope, hlookup⟩ := SymbolTable.mem_of_findIn hz
      rw [List.mem_singleton.1 hw, ← SymbolTable.name_of_find hz]
      exact h.2 scope hscope found (Scope.mem_of_lookup? hlookup)
  have hpaths := Label.ofRoutine_inj (hwords hx) (hwords hy) (List.append_ne_nil_of_right_ne_nil _
    (List.cons_ne_nil _ _)) (List.append_ne_nil_of_right_ne_nil _ (List.cons_ne_nil _ _)) heq
  exact List.singleton_inj.1 (List.append_inj' hpaths rfl).2

theorem Context.Worded.agrees {ctx : Context} (h : ctx.Worded) : ctx.signature.Agrees := by
  rintro label params params' type type' ⟨x, d, symbol, hx, hlabel, -, htype⟩
    ⟨y, e, symbol', hy, hlabel', -, htype'⟩
  cases h.name_inj hx hy (hlabel.symm.trans hlabel')
  cases hx.symm.trans hy
  exact Option.some.inj (htype.trans htype'.symm)

/-! ## Safe code -/

/-- In code for a well-typed expression or statement that is lowered without a diagnostic and whose
calls pass as many arguments as the subprograms have parameters, on every path from sound tags,
every instruction reads words that represent what it computes with, arguments have the types of the
parameters, and all that is stored has the declared type. An expression leaves a word of its type in
the register at the cursor. Wherever the code stands in a program, every run through it has such a
path beside it. -/
theorem safe_of_lower (ctx : Context) (c : Counters) (s : Tagging) (hs : s.Sound ctx.signature) :
    (∀ e : Expr, e.TypedIn ctx.symbols → (∀ need ∈ e.needs, need.FedIn ctx.symbols) →
      Clean (e.lower ctx c).lines →
        (s.Safe ctx.signature (e.lower ctx c).lines fun s' =>
          (e.lower ctx c).counters = c ∧ s'.Holds c.cursor e.type) ∧
        (ctx.Worded → s.Follows ctx.signature (e.lower ctx c).lines)) ∧
    ∀ st : Statement, st.TypedIn ctx.symbols → (∀ need ∈ st.needs, need.FedIn ctx.symbols) →
      Clean (st.lower ctx c).lines →
        s.Safe ctx.signature (st.lower ctx c).lines (fun _ => True) ∧
        (ctx.Worded → s.Follows ctx.signature (st.lower ctx c).lines) := by
  refine ⟨fun e he hfed hclean => ?_, fun st hst hfed hclean => ?_⟩
  · have hleads := Expr.yields_lower he hfed c s hs hclean
    have hlabels := e.plain_lower.labels ctx c
    have hsafe := Tagging.safe_of_leads (fun s' h => h.2.1.sound)
      (anchored_of_labelsOf_eq_nil hlabels) hleads
    have hclosed : Lower.Closed ctx e.uses e.lower :=
      Lower.closed_of_emits fun _ => Expr.emits_lower fun _ hu => hu
    exact ⟨hsafe.mono fun s' h => ⟨h.1, h.2.2⟩,
      fun hworded => hsafe.follows (hclosed c).enclosed hworded.agrees⟩
  · have hsecure := Statement.secure_lower hst hfed
    have hsafe := Tagging.safe_of_leads (fun s' h => h) (hsecure.anchored c hclean)
      (hsecure.tagged c s hs hclean)
    have hclosed : Lower.Closed ctx st.uses st.lower := Statement.closed_lower fun _ hu => hu
    exact ⟨hsafe.mono fun _ _ => trivial,
      fun hworded => hsafe.follows (hclosed c).enclosed hworded.agrees⟩

/-- Tags for the words of places by their types; registers hold integers. -/
def Tagging.ofPlaces (types : Storage → ValueType) : Tagging where
  regs r := if r = .sp then .address (.stack 0) else .integer
  hi := .integer
  lo := .integer
  fregs _ := .integer
  memory place _ := types place

theorem Tagging.sound_ofPlaces {ctx : Context} {types : Storage → ValueType}
    (h : ∀ scope ∈ ctx.symbols.scopes, ∀ symbol ∈ scope,
      ∀ place ∈ ctx.storage.get? symbol.id, ∀ type ∈ symbol.binding.type?, types place = type) :
    (ofPlaces types).Sound ctx.signature := by
  refine ⟨?_, rfl⟩
  rintro place type ⟨scope, hscope, symbol, hsymbol, hplace, htype⟩ number
  exact h scope hscope symbol hsymbol place hplace type htype

/-! ## A statement with conversions -/

namespace Conversions

/-- In a procedure `q` with a variable `x` and an array `a` of reals, in a program with an integer
`k` and a function `f` from reals to integers. -/
def context : Context where
  symbols := ⟨[[⟨4, "x", .scalar .real, none⟩, ⟨5, "a", .array .real ⟨1, 3⟩, none⟩]],
    [⟨0, "p", .program, none⟩, ⟨1, "k", .scalar .integer, none⟩,
      ⟨2, "f", .function .integer [.real], none⟩, ⟨3, "q", .procedure [], none⟩], 6⟩
  storage := ⟨[(5, .stack 4), (4, .stack 0), (1, .global (.ofVariable "k"))]⟩
  path := ["q"]

/-- `(f(k) + x) * k` -/
def expression : Expr :=
  .binary .mul (.binary .add (.call "f" .integer [.var "k" .integer]) (.var "x" .real) .real)
    (.var "k" .integer) .real

/-- `while k < x do a[x] := f(k) + 1` -/
def statement : Statement :=
  .loop (.binary (.rel .lt) (.var "k" .integer) (.var "x" .real) .integer)
    (.assign (.element "a" .real (.var "x" .real))
      (.binary .add (.call "f" .integer [.var "k" .integer]) (.literal "1" .integer) .integer))

/-- The words of `k` are integers, those of `x` and `a` reals. -/
def tagging : Tagging :=
  .ofPlaces fun place => if place = .global (.ofVariable "k") then .integer else .real

end Conversions

section

open Conversions

theorem safe_conversions :
    tagging.Sound context.signature ∧ context.Worded ∧
    (expression.TypedIn context.symbols ∧
      (∀ need ∈ expression.needs, need.FedIn context.symbols) ∧
      Clean (expression.lower context .start).lines ∧
      (tagging.Safe context.signature (expression.lower context .start).lines fun s' =>
        (expression.lower context .start).counters = .start ∧ s'.Holds 0 .real) ∧
      tagging.Follows context.signature (expression.lower context .start).lines) ∧
    statement.TypedIn context.symbols ∧ (∀ need ∈ statement.needs, need.FedIn context.symbols) ∧
      Clean (statement.lower context .start).lines ∧
      tagging.Safe context.signature (statement.lower context .start).lines (fun _ => True) ∧
      tagging.Follows context.signature (statement.lower context .start).lines := by
  have hsound : tagging.Sound context.signature := Tagging.sound_ofPlaces (by decide)
  have hworded : context.Worded := by decide
  have hexpression : expression.TypedIn context.symbols := by decide
  have hfed : ∀ need ∈ expression.needs, need.FedIn context.symbols := by decide
  have hclean : Clean (expression.lower context .start).lines := by decide +kernel
  have hstatement : statement.TypedIn context.symbols := by decide
  have hfed' : ∀ need ∈ statement.needs, need.FedIn context.symbols := by decide
  have hclean' : Clean (statement.lower context .start).lines := by decide +kernel
  obtain ⟨hexpressions, hstatements⟩ := safe_of_lower context .start tagging hsound
  obtain ⟨hsafe, hfollows⟩ := hexpressions expression hexpression hfed hclean
  obtain ⟨hsafe', hfollows'⟩ := hstatements statement hstatement hfed' hclean'
  exact ⟨hsound, hworded, ⟨hexpression, hfed, hclean, hsafe, hfollows hworded⟩, hstatement, hfed',
    hclean', hsafe', hfollows' hworded⟩

end

/-! ## A call that passes too little -/

/-- When `c` is read, `f` is the function without parameters. When `c` is written, the `f` declared
after it, with a parameter, hides that one. -/
def misledSource : String :=
  "program p; var i: integer; function f: integer; begin f := 1 end; procedure b; " ++
  "procedure c; begin write(1); i := f end; " ++
  "function f(x: real): integer; begin write(x); f := 2 end; begin c end; begin b end."

namespace Misled

/-- The register that the cursor stands at. -/
def first : Reg := .s ⟨0, by decide⟩

/-- The code of the body of `c`. It writes 1 and the end of the line, which leaves the code of that
character in the first argument register, and calls `f`. -/
def lines : List Line :=
  instrLines [.li first 1, .move .a0 first, .li .v0 1, .syscall, .li .a0 10, .li .v0 11, .syscall,
    .jal (.ofRoutine ["b", "f"]), .move first .v0, .sw first (.label (.ofVariable "i"))]

/-- Whatever the tags are at the start, an integer comes to the call. -/
theorem path_lines (sig : Signature) (s : Tagging) :
    ∃ s', Tagging.Path sig lines (0, s) (7, s') ∧ s'.read .a0 = .constant 10 := by
  let s₁ := s.write first (.constant 1)
  let s₂ := s₁.write .a0 (s₁.read first)
  let s₃ := s₂.write .v0 (.constant 1)
  let s₄ := s₃.write .a0 (.constant 10)
  let s₅ := s₄.write .v0 (.constant 11)
  have hvalue : Tagging.Step sig lines (0, s) (1, s₁) := .next rfl rfl .li
  have hmove : Tagging.Step sig lines (1, s₁) (2, s₂) := .next rfl rfl .move
  have hcode : Tagging.Step sig lines (2, s₂) (3, s₃) := .next rfl rfl .li
  have hprint : Tagging.Step sig lines (3, s₃) (4, s₃.serve 1) := .next rfl rfl (.syscall rfl)
  have hnewline : Tagging.Step sig lines (4, s₃) (5, s₄) := .next rfl rfl .li
  have hcode' : Tagging.Step sig lines (5, s₄) (6, s₅) := .next rfl rfl .li
  have hprint' : Tagging.Step sig lines (6, s₅) (7, s₅.serve 11) := .next rfl rfl (.syscall rfl)
  exact ⟨s₅, .head hvalue (.head hmove (.head hcode (.head hprint (.head hnewline
    (.head hcode' (.single hprint')))))), rfl⟩

/-- The context is one in which `f`, from inside `c`, has a parameter that is a real. -/
def Hides (ctx : Context) : Prop :=
  ctx.Worded ∧ ctx.path = ["b", "c"] ∧ (ctx.symbols.lookupWithDepth? "f").map
    (fun found => (found.1, found.2.binding.params?)) = some (2, some [.real])

instance : DecidablePred Hides := fun _ => inferInstanceAs (Decidable (_ ∧ _ ∧ _))

/-- An integer does not fit the parameter. -/
theorem not_fits {ctx : Context} (h : Hides ctx) {s : Tagging} (hs : s.read .a0 = .constant 10) :
    ¬(Instr.jal (.ofRoutine ["b", "f"])).Fits ctx.signature s := by
  obtain ⟨hworded, hpath, hf⟩ := h
  obtain ⟨⟨depth, symbol⟩, hfind, heq⟩ := Option.map_eq_some_iff.1 hf
  obtain ⟨rfl, hparams⟩ := Prod.mk.inj heq
  rintro ⟨-, params, result, ⟨name, depth, other, hother, hlabel, hparams', -⟩, hpasses⟩
  have hname : "f" = name := hworded.name_inj hfind hother (by rw [← hlabel, hpath]; rfl)
  subst hname
  cases hfind.symm.trans hother
  cases hparams.symm.trans hparams'
  have hreal : (s.read .a0).type = .real := hpasses 0 .real rfl
  rw [hs] at hreal
  cases hreal

/-- The tags of a program in which all words are integers. -/
def tagging : Tagging := .ofPlaces fun _ => .integer

end Misled

section

open Misled

/-- The code of `c`, which is well typed with the names that are visible when it is written, passes an
integer to a parameter that is a real, whatever the tags are at its start. Nothing is marked. -/
theorem misledSource_unsafe :
    ∃ program symbols, parse misledSource = .ok (program, symbols) ∧
      (∃ out, program.generate symbols = .ok out) ∧
      ((Generator.new symbols).emitProgram program).diagnostics = [] ∧
      ∃ r ∈ program.routines symbols,
        (Statement.compound r.sub.body).TypedIn r.inside.symbols ∧
        Clean ((Statement.compound r.sub.body).lower r.inside .start).lines ∧
        ((Statement.compound r.sub.body).lower r.inside .start).lines <:+:
          ((Generator.new symbols).emitProgram program).lines ∧
        tagging.Sound r.inside.signature ∧
        ∀ s : Tagging, ¬s.Safe r.inside.signature
          ((Statement.compound r.sub.body).lower r.inside .start).lines fun _ => True := by
  have hwritten : (parse misledSource).toOption.map (fun parsed =>
      let g := (Generator.new parsed.2).emitProgram parsed.1
      decide (g.counters.overdrawn = false ∧ g.diagnostics = [] ∧ lines <:+: g.lines) &&
        (parsed.1.routines parsed.2).any fun r =>
          decide ((Statement.compound r.sub.body).TypedIn r.inside.symbols ∧
            ((Statement.compound r.sub.body).lower r.inside .start).lines = lines ∧
            (∀ scope ∈ r.inside.symbols.scopes, ∀ symbol ∈ scope,
              ∀ place ∈ r.inside.storage.get? symbol.id, ∀ type ∈ symbol.binding.type?,
                ValueType.integer = type) ∧ Hides r.inside)) = some true := by
    decide +kernel
  obtain ⟨program, symbols, hparse, hall⟩ := exists_of_parse_map hwritten
  simp only [Bool.and_eq_true, decide_eq_true_eq, List.any_eq_true] at hall
  obtain ⟨⟨hsolvent, hclean, hinfix⟩, r, hr, htyped, hlines, hintegers, hhides⟩ := hall
  refine ⟨program, symbols, hparse, Program.exists_generate_iff.2 hsolvent, hclean, r, hr, htyped,
    ?_, ?_, Tagging.sound_ofPlaces hintegers, fun s hsafe => ?_⟩
  · rw [hlines]
    decide
  · rw [hlines]
    exact hinfix
  · rw [hlines] at hsafe
    obtain ⟨s', hpath, hread⟩ := path_lines r.inside.signature s
    exact not_fits hhides hread ((hsafe 7 s' hpath).1 _ rfl)

end

end PascalMips
