import PascalMips.Proofs.Program.Reading

/-!
# The targets that the parser comes to

What holds at every target of a text, whether or not the text is read to its end, is said with a
second parser. It is the parser of programs with another reader of targets, and it hands that reader
the numbers of the subprograms that are being read (`programWith`; with the reader `target` it is
`program`, by `programWith_target`). A reader that gives up where a property fails makes the whole
parser give up, and nothing else does: so the property holds at each target that the parser comes to
if the parser with that reader comes to an end (`EachTarget`).

To show that, it is enough to find an invariant of the states in front of the targets
(`Invariant`, `eachTarget_of_invariant`): where the readers do the same in the states that satisfy
it, so do the parsers.
-/

namespace PascalMips

instance Outcome.decidableExhausted {α : Type} (o : Outcome α) : Decidable (o = .exhausted) :=
  match o with
  | .ok _ _ => .isFalse nofun
  | .error _ _ => .isFalse nofun
  | .exhausted => .isTrue rfl

namespace Parse

variable {α β : Type}

/-! ## Parsers over a reader of targets -/

section Readers

variable (read : Token → Parse Target)

def callOrAssignWith : Parse Statement := do
  let name ← expect .identifier
  match ← procedure? name.lexeme with
  | some params => return .call name.lexeme (← arguments expression name params)
  | none =>
    let place ← read name
    let _ ← expect (.punct .assign)
    return .assign place (← expression)

def readStatementWith : Parse Statement := do
  let _ ← expect (.keyword .read)
  let _ ← expect (.punct .lparen)
  let place ← read (← expect .identifier)
  let _ ← expect (.punct .rparen)
  return .read place

/-- A statement, over the statements nested in it. Only assignments and reads have targets of their
own. -/
def statementOfWith (inner : Parse Statement) : Parse Statement := do
  let kind := (← current).kind
  if kind = .identifier then callOrAssignWith read
  else if kind = .keyword .read then readStatementWith read
  else statementOf inner

def compoundWith : Parse (List Statement) := compoundOf (nest (statementOfWith read))

end Readers

/-- The number of the symbol that is declared next. -/
def nextNumber : Parse Nat := fun p => .ok p.symbols.nextId p

section Opened

variable (read : List Nat → Token → Parse Target)

/-- A subprogram, over those nested in it. The subprograms around it have the numbers `opened`; its
own number, which it is declared with, goes in front of them. -/
def subprogramOfWith (inner : List Nat → Parse Subprogram) (opened : List Nat) :
    Parse Subprogram := do
  let number ← nextNumber
  let s ← subprogramHead
  let subs ← many (nextSubprogram? (inner (number :: opened)))
  let body ← compoundWith (read (number :: opened))
  closeScope s.name
  return { s with subprograms := subs, body := body }

def subprogramWithin : Nat → List Nat → Parse Subprogram
  | 0 => fun _ _ => .exhausted
  | budget + 1 => subprogramOfWith read (subprogramWithin budget)

def subprogramWith (opened : List Nat) : Parse Subprogram := fun p =>
  subprogramWithin read (p.tokens.size + 1) opened p

def programWith : Parse Program := do
  let head ← programHead
  let subs ← many (nextSubprogram? (subprogramWith read []))
  let body ← compoundWith (read [])
  let _ ← expect (.punct .period)
  let _ ← expect .eof
  return { head with subprograms := subs, body := body }

end Opened

section EachTarget

variable (P : List Nat → Token → Parser → Prop) [∀ opened name p, Decidable (P opened name p)]

/-- The reader of targets that gives up at a target without `P`. -/
def targetIf (opened : List Nat) (name : Token) : Parse Target := fun p =>
  if P opened name p then target name p else .exhausted

/-- At each target that the parser comes to in the text, `P` holds of the numbers of the subprograms
being read, the innermost first, of the name there and of the state behind the name. -/
def EachTarget (source : String) : Prop :=
  ∀ tokens, TokenStream.ofSource source = .ok tokens →
    programWith (targetIf P) ⟨tokens, .empty, []⟩ ≠ .exhausted

instance (source : String) : Decidable (EachTarget P source) :=
  match h : TokenStream.ofSource source with
  | .ok tokens => decidable_of_iff (programWith (targetIf P) ⟨tokens, .empty, []⟩ ≠ .exhausted) (by
      simp only [EachTarget, h, Except.ok.injEq, forall_eq'])
  | .error cause => .isTrue (by
      simp only [EachTarget, h, reduceCtorEq, false_implies, implies_true])

end EachTarget

/-! ## Parsers that do the same -/

/-- From a state with `I`, the parsers do the same. -/
def SameFrom (I : Parser → Prop) (x y : Parse α) : Prop := ∀ p, I p → x p = y p

theorem SameFrom.refl {I : Parser → Prop} (x : Parse α) : SameFrom I x x := fun _ _ => rfl

/-- Parsers that do the same, one after the other, do so from the states that the first can leave.
-/
theorem sameFrom_bind {I : Parser → Prop} {J : α → Parser → Prop} {x y : Parse α}
    {f g : α → Parse β} (hxy : SameFrom I x y) (hy : ∀ p a q, I p → y p = .ok a q → J a q)
    (hfg : ∀ a, SameFrom (J a) (f a) (g a)) : SameFrom I (x >>= f) (y >>= g) := by
  intro p hp
  rw [bind_apply, bind_apply, hxy p hp]
  cases h : y p with
  | ok a q => exact hfg a q (hy p a q hp h)
  | error e q => rfl
  | exhausted => rfl

/-- A rest that the parsers have in common. -/
theorem SameFrom.bind {I : Parser → Prop} {x y : Parse α} (hxy : SameFrom I x y)
    (f : α → Parse β) : SameFrom I (x >>= f) (y >>= f) :=
  sameFrom_bind hxy (J := fun _ _ => True) (fun _ _ _ _ _ => trivial) fun _ => .refl _

/-- A repetition of steps that keep the invariant does the same, by induction on the budget. -/
theorem sameFrom_many {I : Parser → Prop} {x y : Parse (Option α)} (hxy : SameFrom I x y)
    (hy : ∀ p a q, I p → y p = .ok a q → I q) : SameFrom I (many x) (many y) := by
  have within : ∀ budget, SameFrom I (manyWithin x budget) (manyWithin y budget) := by
    intro budget
    induction budget with
    | zero => exact .refl _
    | succ budget ih =>
      refine sameFrom_bind hxy (J := fun _ => I) hy fun a? => ?_
      cases a? with
      | none => exact .refl _
      | some a => exact ih.bind _
  exact fun p => within _ p

/-! ## Statements -/

section Statements

variable {t : SymbolTable} {enclosing : List String}

/-- The states with the given table and open bodies: the parsers of statements do not leave them. -/
def At (t : SymbolTable) (enclosing : List String) (p : Parser) : Prop :=
  p.symbols = t ∧ p.enclosing = enclosing

theorem Gives.keeps {x : Parse α} {Q : α → Prop} (h : Gives t enclosing x Q) (p : Parser) (a : α)
    (q : Parser) (hp : At t enclosing p) (hx : x p = .ok a q) : At t enclosing q := by
  obtain ⟨hsymbols, henclosing, -⟩ := h p a q hp.1 hp.2 hx
  exact ⟨hsymbols, henclosing⟩

/-- One parser after the other, where the table and the open bodies stay as they are. -/
theorem sameFrom_seq {x y : Parse α} {f g : α → Parse β} {Q : α → Prop}
    (hxy : SameFrom (At t enclosing) x y) (hy : Gives t enclosing y Q)
    (hfg : ∀ a, SameFrom (At t enclosing) (f a) (g a)) :
    SameFrom (At t enclosing) (x >>= f) (y >>= g) :=
  sameFrom_bind hxy hy.keeps hfg

/-- A first step that the parsers have in common. -/
theorem sameFrom_after {x : Parse α} {f g : α → Parse β} {Q : α → Prop}
    (hx : Gives t enclosing x Q) (hfg : ∀ a, SameFrom (At t enclosing) (f a) (g a)) :
    SameFrom (At t enclosing) (x >>= f) (x >>= g) :=
  sameFrom_seq (.refl x) hx hfg

/-- Nesting does the same if each level does, given that the levels below do. -/
theorem sameFrom_nest {level level' : Parse α → Parse α} {Q : α → Prop}
    (hgives : ∀ inner, Gives t enclosing inner Q → Gives t enclosing (level' inner) Q)
    (h : ∀ x y, SameFrom (At t enclosing) x y → Gives t enclosing y Q →
      SameFrom (At t enclosing) (level x) (level' y)) :
    SameFrom (At t enclosing) (nest level) (nest level') := by
  have within : ∀ budget, Gives t enclosing (nestWithin level' budget) Q ∧
      SameFrom (At t enclosing) (nestWithin level budget) (nestWithin level' budget) := by
    intro budget
    induction budget with
    | zero => exact ⟨fun _ _ _ _ _ => nofun, .refl _⟩
    | succ budget ih => exact ⟨hgives _ ih.1, h _ _ ih.2 ih.1⟩
  exact fun p hp => (within _).2 p hp

section Inner

variable {x y : Parse Statement} (hxy : SameFrom (At t enclosing) x y)
include hxy

theorem sameFrom_nextStatement? :
    SameFrom (At t enclosing) (nextStatement? x) (nextStatement? y) := by
  refine sameFrom_after (gives_accept _) fun semicolon => ?_
  cases semicolon with
  | false => exact .refl _
  | true =>
    refine sameFrom_after (gives_check _) fun closing => ?_
    cases closing with
    | false => exact hxy.bind _
    | true => exact .refl _

theorem sameFrom_loopOf : SameFrom (At t enclosing) (loopOf x) (loopOf y) :=
  sameFrom_after (gives_expect _) fun _ => sameFrom_after gives_expression fun _ =>
    sameFrom_after (gives_expect _) fun _ => hxy.bind _

variable (hy : GivesCheckedStatement t enclosing y)
include hy

/-- Lists of statements do the same if the statements do. -/
theorem sameFrom_statementList :
    SameFrom (At t enclosing) (statementList x) (statementList y) := by
  have hnext := gives_nextStatement? hy
  refine sameFrom_after (gives_check _) fun closing => ?_
  cases closing with
  | false =>
    refine sameFrom_seq hxy hy fun _ => ?_
    exact (sameFrom_many (sameFrom_nextStatement? hxy) hnext.keeps).bind _
  | true => exact .refl _

theorem sameFrom_compoundOf : SameFrom (At t enclosing) (compoundOf x) (compoundOf y) :=
  sameFrom_after (gives_expect _) fun _ => (sameFrom_statementList hxy hy).bind _

theorem sameFrom_branchOf : SameFrom (At t enclosing) (branchOf x) (branchOf y) :=
  sameFrom_after (gives_expect _) fun _ => sameFrom_after gives_expression fun _ =>
    sameFrom_after (gives_expect _) fun _ => sameFrom_seq hxy hy fun _ =>
      sameFrom_after (gives_expect _) fun _ => hxy.bind _

/-- One level of statements does the same over statements that do. -/
theorem sameFrom_statementOf : SameFrom (At t enclosing) (statementOf x) (statementOf y) := by
  refine sameFrom_after gives_current fun token => ?_
  split
  · exact .refl _
  · exact (sameFrom_compoundOf hxy hy).bind _
  · exact sameFrom_branchOf hxy hy
  · exact sameFrom_loopOf hxy
  · exact .refl _
  · exact .refl _
  · exact .refl _

end Inner

section Read

variable {read : Token → Parse Target}
  (hread : ∀ name, SameFrom (At t enclosing) (read name) (target name))

include hread

/-- With a reader that does as `target`, assignments are read alike. -/
theorem sameFrom_callOrAssignWith :
    SameFrom (At t enclosing) (callOrAssignWith read) callOrAssign := by
  refine sameFrom_after (gives_expect _) fun name => ?_
  refine sameFrom_after (gives_procedure? name.lexeme) fun params? => ?_
  cases params? with
  | some params => exact .refl _
  | none => exact (hread name).bind _

theorem sameFrom_readStatementWith :
    SameFrom (At t enclosing) (readStatementWith read) readStatement :=
  sameFrom_after (gives_expect _) fun _ => sameFrom_after (gives_expect _) fun _ =>
    sameFrom_after (gives_expect _) fun name => (hread name).bind _

/-- One level of statements with the other reader. The cases with targets of their own are compared
by the reader, the others by what is nested in them. -/
theorem sameFrom_statementOfWith {x y : Parse Statement} (hxy : SameFrom (At t enclosing) x y)
    (hy : GivesCheckedStatement t enclosing y) :
    SameFrom (At t enclosing) (statementOfWith read x) (statementOf y) := by
  intro p hp
  show (if p.tokens.current.kind = .identifier then callOrAssignWith read
    else if p.tokens.current.kind = .keyword .read then readStatementWith read
    else statementOf x) p = _
  split
  · next hkind =>
    have hstatement : statementOf y p = callOrAssign p := by
      simp only [statementOf, bind_apply, current, hkind]
    rw [hstatement]
    exact sameFrom_callOrAssignWith hread p hp
  · split
    · next hkind =>
      have hstatement : statementOf y p = readStatement p := by
        simp only [statementOf, bind_apply, current, hkind]
      rw [hstatement]
      exact sameFrom_readStatementWith hread p hp
    · exact sameFrom_statementOf hxy hy p hp

/-- Bodies are read in the same way if the targets in them are. -/
theorem sameFrom_compoundWith : SameFrom (At t enclosing) (compoundWith read) compound :=
  sameFrom_compoundOf
    (sameFrom_nest gives_statementOf fun _ _ hxy hy => sameFrom_statementOfWith hread hxy hy)
    gives_statement

end Read

end Statements

/-! ## Subprograms and programs -/

/-- What holds in front of every target, of the numbers of the subprograms being read and the state:
declarations in the innermost scope keep it, and it holds in the block of a subprogram if it holds
in front of the subprogram. -/
structure Invariant (I : List Nat → Parser → Prop) : Prop where
  grow : ∀ {opened : List Nat} {p q : Parser} {added : Scope}, p.symbols.Extends added q.symbols →
    q.enclosing = p.enclosing → I opened p → I opened q
  enter : ∀ {opened : List Nat} {p q : Parser} {s : Subprogram}, subprogramHead p = .ok s q →
    I opened p → I (p.symbols.nextId :: opened) q

section Invariant

variable {I : List Nat → Parser → Prop} (hI : Invariant I)
include hI

/-- Declarations keep the invariant. -/
theorem Invariant.of_declares {x : Parse α} {Q : Scope → α → Prop} (h : Declares x Q)
    {opened : List Nat} (p : Parser) (a : α) (q : Parser) (hp : I opened p) (hx : x p = .ok a q) :
    I opened q := by
  obtain ⟨added, hextends, henclosing, -⟩ := h p a q hx
  exact hI.grow hextends henclosing hp

/-- Subprograms one after the other do the same, since each of them keeps the invariant. -/
theorem Invariant.sameFrom_subprograms {x y : Parse Subprogram} {opened : List Nat}
    (hxy : SameFrom (I opened) x y) (hy : Declares y fun added s => AddsRoutine s added) :
    SameFrom (I opened) (many (nextSubprogram? x)) (many (nextSubprogram? y)) := by
  refine sameFrom_many ?_ (hI.of_declares (declares_nextSubprogram? hy))
  refine sameFrom_bind (.refl _) (hI.of_declares (declares_of_gives fun _ _ => gives_current))
    fun token => ?_
  dsimp only
  split
  · exact hxy.bind _
  · exact .refl _

variable {read : List Nat → Token → Parse Target}
  (hread : ∀ opened name, SameFrom (I opened) (read opened name) (target name))
include hread

/-- A body does the same with the other reader from states that satisfy the invariant. -/
theorem Invariant.sameFrom_compound (opened : List Nat) :
    SameFrom (I opened) (compoundWith (read opened)) compound := by
  intro p hp
  have hcompound : SameFrom (At p.symbols p.enclosing) (compoundWith (read opened)) compound := by
    refine sameFrom_compoundWith fun name q hq => ?_
    have hextends : p.symbols.Extends [] q.symbols := hq.1 ▸ .refl _
    exact hread opened name q (hI.grow hextends hq.2 hp)
  exact hcompound p ⟨rfl, rfl⟩

/-- Subprograms of any depth do the same, by induction on the budget. The invariant goes along with
the numbers of the subprograms that are open. -/
theorem Invariant.sameFrom_subprogramWithin (budget : Nat) :
    ∀ opened, SameFrom (I opened) (subprogramWithin read budget opened)
      (nestWithin subprogramOf budget) := by
  induction budget with
  | zero => exact fun _ => .refl _
  | succ budget ih =>
    intro opened p hp
    -- The block is read with the number that the subprogram is declared with.
    show subprogramOfWith read (subprogramWithin read budget) opened p =
      subprogramOf (nestWithin subprogramOf budget) p
    rw [subprogramOf_eq]
    refine sameFrom_bind (I := fun q => q = p)
      (J := fun _ => I (p.symbols.nextId :: opened)) (.refl subprogramHead) ?_ (fun s => ?_) p rfl
    · rintro _ s q rfl hhead
      exact hI.enter hhead hp
    · have hdeclares := declares_nestWithin_subprogramOf budget
      refine sameFrom_bind (hI.sameFrom_subprograms (ih _) hdeclares)
        (hI.of_declares (declares_many (declares_nextSubprogram? hdeclares))) fun subs => ?_
      exact (hI.sameFrom_compound hread _).bind _

/-- A parser with a reader that does as `target` wherever the invariant holds is the parser of
programs. -/
theorem Invariant.programWith_eq {p : Parser} (hp : I [] p) : programWith read p = program p := by
  rw [program_eq]
  refine sameFrom_bind (I := I []) (.refl programHead) (hI.of_declares declares_programHead)
    (fun head => ?_) p hp
  have hsame : SameFrom (I []) (subprogramWith read []) subprogram :=
    fun q hq => hI.sameFrom_subprogramWithin hread _ [] q hq
  refine sameFrom_bind (hI.sameFrom_subprograms hsame declares_subprogram)
    (hI.of_declares (declares_many (declares_nextSubprogram? declares_subprogram))) fun subs => ?_
  exact (hI.sameFrom_compound hread []).bind _

end Invariant

theorem programWith_target : programWith (fun _ => target) = program := by
  have hI : Invariant fun _ _ => True := ⟨fun _ _ _ => trivial, fun _ _ => trivial⟩
  exact funext fun p => hI.programWith_eq (fun _ _ => .refl _) trivial

/-- What follows from an invariant holds at each target. -/
theorem eachTarget_of_invariant {I : List Nat → Parser → Prop} (hI : Invariant I)
    (hstart : ∀ tokens, I [] ⟨tokens, .empty, []⟩) {P : List Nat → Token → Parser → Prop}
    [∀ opened name p, Decidable (P opened name p)]
    (hP : ∀ opened name p, I opened p → P opened name p) (source : String) :
    EachTarget P source := by
  intro tokens _
  have hread : ∀ opened name, SameFrom (I opened) (targetIf P opened name) (target name) :=
    fun opened name p hp => if_pos (hP opened name p hp)
  rw [hI.programWith_eq hread (hstart tokens)]
  exact program_ne_exhausted _

end Parse

end PascalMips
