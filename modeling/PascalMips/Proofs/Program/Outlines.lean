import PascalMips.Program.Outline
import PascalMips.Proofs.Outline
import PascalMips.Proofs.Parser.Alike

/-!
# The outline of a program determines it

The texts of an outline start with a word that tells the kind of the node, and no two kinds that can
stand at one place share their first two letters (`opening`). A name stands between that word and a
type; the type is told by the last letter of the text, and what is left is the name, which may
itself look like the end of a text (`of_labelled`). A statement is written as up to three outlines
side by side, so what a sequence of outlines starts with is read first
(`Statement.of_outlines_append`). With the reading of outlines from their text, written programs are
told apart up to the places of their names (`dump_eq_iff`).
-/

namespace PascalMips

open Outline (node leaf IsLine Lined)

/-! ## Names in texts -/

/-- The last letter of a type's name tells the type. -/
theorem ValueType.eq_of_getLast? {type type' : ValueType}
    (h : type.text.toList.getLast? = type'.text.toList.getLast?) : type = type' := by
  cases type <;> cases type' <;> simp_all [text]

theorem ValueType.text_ne_nil (type : ValueType) : type.text.toList ≠ [] := by
  cases type <;> decide

theorem BinaryOp.text_inj {op op' : BinaryOp} (h : op.text = op'.text) : op = op' := by
  rcases op with _ | _ | _ | _ | _ | _ | _ | _ | ⟨_ | _ | _ | _ | _ | _⟩ <;>
    rcases op' with _ | _ | _ | _ | _ | _ | _ | _ | ⟨_ | _ | _ | _ | _ | _⟩ <;>
    simp_all [text, Relation.text]

theorem UnaryOp.text_inj {op op' : UnaryOp} (h : op.text = op'.text) : op = op' := by
  cases op <;> cases op' <;> simp_all [text]

namespace Outline

/-- The text of a node with a name and a type. -/
def labelled (label name mid : String) (type : ValueType) (last : String) : String :=
  label ++ name ++ mid ++ type.text ++ last

/-- A name and a type can be read back from the text of a node. The type is read first, from the
end, because the name may hold anything. -/
theorem of_labelled {label name name' mid last : String} {type type' : ValueType}
    (h : labelled label name mid type last = labelled label name' mid type' last) :
    name = name' ∧ type = type' := by
  have hchars := congrArg String.toList h
  simp only [labelled, String.toList_append] at hchars
  have hbefore := List.append_cancel_right hchars
  -- The names may differ in length, so the types are compared from the end.
  have htype : type = type' := by
    have hlast := congrArg List.getLast? hbefore
    rw [List.getLast?_append_of_ne_nil _ type.text_ne_nil,
      List.getLast?_append_of_ne_nil _ type'.text_ne_nil] at hlast
    exact ValueType.eq_of_getLast? hlast
  subst htype
  refine ⟨String.toList_inj.1 ?_, rfl⟩
  have hname := List.append_cancel_right (List.append_cancel_right hbefore)
  exact List.append_cancel_left hname

theorem of_append_left {label name name' : String} (h : label ++ name = label ++ name') :
    name = name' := by
  have hchars := congrArg String.toList h
  rw [String.toList_append, String.toList_append] at hchars
  exact String.toList_inj.1 (List.append_cancel_left hchars)

theorem of_node_cons {text text' : String} {children children' rest rest' : List Outline}
    (h : node text children :: rest = node text' children' :: rest') :
    text = text' ∧ children = children' ∧ rest = rest' := by
  obtain ⟨hfirst, hrest⟩ := List.cons.inj h
  obtain ⟨htext, hchildren⟩ := node.inj hfirst
  exact ⟨htext, hchildren, hrest⟩

/-- The first two letters of a text. -/
def opening : Outline → List Char
  | node text _ => text.toList.take 2

instance (text : String) : Decidable (IsLine text) :=
  decidable_of_iff ('\n' ∉ text.toList ∧ text.toList.head? ≠ some '|')
    ⟨fun h => ⟨h.1, h.2⟩, fun h => ⟨h.newline, h.bar⟩⟩

/-- A text with a fixed start is a line if the rest of it is not broken. -/
theorem isLine_append {label rest : String} (h : IsLine label ∧ label.toList ≠ [])
    (hrest : '\n' ∉ rest.toList) : IsLine (label ++ rest) := by
  obtain ⟨hlabel, hne⟩ := h
  constructor
  · rw [String.toList_append]
    exact fun hmem => (List.mem_append.1 hmem).elim hlabel.newline hrest
  · rw [String.toList_append, List.head?_append_of_ne_nil _ hne]
    exact hlabel.bar

/-- The text of a node with a name and a type is a line if the name is not broken. -/
theorem isLine_labelled {label name mid last : String} (type : ValueType)
    (h : IsLine label ∧ label.toList ≠ []) (hname : '\n' ∉ name.toList)
    (hfixed : '\n' ∉ mid.toList ∧ '\n' ∉ last.toList) :
    IsLine (labelled label name mid type last) := by
  have htype : '\n' ∉ type.text.toList := by cases type <;> decide
  simp only [labelled, String.append_assoc]
  refine isLine_append h ?_
  simp only [String.toList_append, List.mem_append, not_or]
  exact ⟨hname, hfixed.1, htype, hfixed.2⟩

theorem lined_leaf {text : String} (h : IsLine text) : (leaf text).Lined :=
  .node h fun _ hchild => absurd hchild List.not_mem_nil

end Outline

open Outline (labelled of_labelled of_append_left of_node_cons opening isLine_append
  isLine_labelled lined_leaf)

/-! ## Expressions -/

namespace Expr

/-- How the outline of an expression starts. -/
def initials : Expr → List Char
  | literal .. => ['V', 'a']
  | var .. => ['N', 'a']
  | element .. => ['A', 'r']
  | call .. => ['F', 'u']
  | binary .. => ['O', 'p']
  | unary .. => ['U', 'n']

theorem opening_outline (e : Expr) : e.outline.opening = e.initials := by
  cases e <;> simp [outline, leaf, opening, initials, toString]

/-- Expressions with the same outline are of the same kind. -/
theorem initials_eq {e e' : Expr} (h : e.outline = e'.outline) : e.initials = e'.initials := by
  rw [← opening_outline, ← opening_outline, h]

/-- A node with a name and a type determines both, and its children. -/
theorem of_node (label name name' : String) {type type' : ValueType}
    {children children' : List Outline}
    (h : node (labelled label name " (" type ")") children =
      node (labelled label name' " (" type' ")") children') :
    (name = name' ∧ type = type') ∧ children = children' := by
  obtain ⟨htext, hchildren⟩ := Outline.node.inj h
  exact ⟨of_labelled htext, hchildren⟩

mutual

/-- An expression can be read back from its outline. The kinds are told apart by their first
letters, so only cases with the same constructor on both sides are left. -/
theorem of_outline : ∀ {e e' : Expr}, e.outline = e'.outline → e = e'
  | literal text type, e', h => by
    cases e' with
    | literal text' type' =>
      obtain ⟨⟨rfl, rfl⟩, -⟩ := of_node "Value: " text text' h
      rfl
    | _ => exact absurd (initials_eq h) (by simp [initials])
  | var name type, e', h => by
    cases e' with
    | var name' type' =>
      obtain ⟨⟨rfl, rfl⟩, -⟩ := of_node "Name: " name name' h
      rfl
    | _ => exact absurd (initials_eq h) (by simp [initials])
  | element name type index, e', h => by
    cases e' with
    | element name' type' index' =>
      obtain ⟨⟨rfl, rfl⟩, hindex⟩ := of_node "Array: " name name' h
      rw [of_outline (List.singleton_inj.1 hindex)]
    | _ => exact absurd (initials_eq h) (by simp [initials])
  | call name type args, e', h => by
    cases e' with
    | call name' type' args' =>
      obtain ⟨⟨rfl, rfl⟩, hargs⟩ := of_node "Function Call: " name name' h
      rw [of_outlineAll hargs]
    | _ => exact absurd (initials_eq h) (by simp [initials])
  | binary op left right type, e', h => by
    cases e' with
    | binary op' left' right' type' =>
      obtain ⟨⟨hop, rfl⟩, hoperands⟩ := of_node "Operation: " op.text op'.text h
      obtain ⟨hleft, hright⟩ := List.cons.inj hoperands
      rw [BinaryOp.text_inj hop, of_outline hleft, of_outline (List.singleton_inj.1 hright)]
    | _ => exact absurd (initials_eq h) (by simp [initials])
  | unary op operand type, e', h => by
    cases e' with
    | unary op' operand' type' =>
      obtain ⟨⟨hop, rfl⟩, hoperand⟩ := of_node "Unary Operation: " op.text op'.text h
      rw [UnaryOp.text_inj hop, of_outline (List.singleton_inj.1 hoperand)]
    | _ => exact absurd (initials_eq h) (by simp [initials])

/-- So can a list of expressions, one outline for each. -/
theorem of_outlineAll : ∀ {es es' : List Expr}, outlineAll es = outlineAll es' → es = es'
  | [], [], _ => rfl
  | [], _ :: _, h => by cases h
  | _ :: _, [], h => by cases h
  | e :: es, e' :: es', h => by
    obtain ⟨hfirst, hrest⟩ := List.cons.inj h
    rw [of_outline hfirst, of_outlineAll hrest]

end

end Expr

/-! ## Statements -/

/-- The expression that reads the place. -/
def Target.reading : Target → Expr
  | var name type => .var name type
  | element name type index => .element name type index

theorem Target.outline_reading (target : Target) : target.reading.outline = target.outline := by
  cases target <;> rfl

/-- A place is outlined as the expression that reads it, so it can be read back as that. -/
theorem Target.of_outline {target target' : Target} (h : target.outline = target'.outline) :
    target = target' := by
  rw [← outline_reading, ← outline_reading] at h
  have hreading := Expr.of_outline h
  cases target <;> cases target' <;> simp_all [reading]

namespace Statement

/-- How the outlines of a statement start. -/
def initials : Statement → List Char
  | assign .. => ['A', 's']
  | compound .. => ['C', 'o']
  | branch .. => ['I', 'f']
  | loop .. => ['W', 'h']
  | call .. => ['P', 'r']
  | read .. => ['R', 'e']
  | write .. => ['W', 'r']

/-- What is written for a statement starts with the letters of its kind, whatever comes after it. -/
theorem opening_outlines (s : Statement) (rest : List Outline) :
    (s.outlines ++ rest).head?.map opening = some s.initials := by
  cases s <;> simp [outlines, opening, initials, toString]

/-- Statements whose outlines start alike are of the same kind. -/
theorem initials_eq {s s' : Statement} {rest rest' : List Outline}
    (h : s.outlines ++ rest = s'.outlines ++ rest') : s.initials = s'.initials := by
  have heads := congrArg (fun outlines : List Outline => outlines.head?.map opening) h
  rw [opening_outlines, opening_outlines] at heads
  exact Option.some.inj heads

theorem outlines_ne_nil (s : Statement) : s.outlines ≠ [] := by
  cases s <;> exact List.cons_ne_nil _ _

mutual

/-- By recursion over the first statement. The outlines of a branch or a loop do not end with their
first, so what follows is part of the statement proved. -/
theorem of_outlines_append : ∀ {s s' : Statement} {rest rest' : List Outline},
    s.outlines ++ rest = s'.outlines ++ rest' → s = s' ∧ rest = rest'
  | assign target value, s', rest, rest', h => by
    cases s' with
    | assign target' value' =>
      obtain ⟨-, hparts, hrest⟩ := of_node_cons h
      obtain ⟨htarget, hvalue⟩ := List.cons.inj hparts
      rw [Target.of_outline htarget, Expr.of_outline (List.singleton_inj.1 hvalue)]
      exact ⟨rfl, hrest⟩
    | _ => exact absurd (initials_eq h) (by simp [initials])
  | compound body, s', rest, rest', h => by
    cases s' with
    | compound body' =>
      obtain ⟨-, hbody, hrest⟩ := of_node_cons h
      rw [of_outlinesAll hbody]
      exact ⟨rfl, hrest⟩
    | _ => exact absurd (initials_eq h) (by simp [initials])
  | branch test yes no, s', rest, rest', h => by
    cases s' with
    | branch test' yes' no' =>
      obtain ⟨-, htest, hbranches⟩ := of_node_cons h
      obtain ⟨-, hyes, hbranches⟩ := of_node_cons hbranches
      obtain ⟨-, hno, hrest⟩ := of_node_cons hbranches
      rw [Expr.of_outline (List.singleton_inj.1 htest), of_outlines hyes, of_outlines hno]
      exact ⟨rfl, hrest⟩
    | _ => exact absurd (initials_eq h) (by simp [initials])
  | loop test body, s', rest, rest', h => by
    cases s' with
    | loop test' body' =>
      obtain ⟨-, htest, hbodies⟩ := of_node_cons h
      obtain ⟨-, hbody, hrest⟩ := of_node_cons hbodies
      rw [Expr.of_outline (List.singleton_inj.1 htest), of_outlines hbody]
      exact ⟨rfl, hrest⟩
    | _ => exact absurd (initials_eq h) (by simp [initials])
  | call name args, s', rest, rest', h => by
    cases s' with
    | call name' args' =>
      obtain ⟨htext, hargs, hrest⟩ := of_node_cons h
      have hname : name = name' := of_append_left htext
      rw [hname, Expr.of_outlineAll hargs]
      exact ⟨rfl, hrest⟩
    | _ => exact absurd (initials_eq h) (by simp [initials])
  | read target, s', rest, rest', h => by
    cases s' with
    | read target' =>
      obtain ⟨-, htarget, hrest⟩ := of_node_cons h
      rw [Target.of_outline (List.singleton_inj.1 htarget)]
      exact ⟨rfl, hrest⟩
    | _ => exact absurd (initials_eq h) (by simp [initials])
  | write value, s', rest, rest', h => by
    cases s' with
    | write value' =>
      obtain ⟨-, hvalue, hrest⟩ := of_node_cons h
      rw [Expr.of_outline (List.singleton_inj.1 hvalue)]
      exact ⟨rfl, hrest⟩
    | _ => exact absurd (initials_eq h) (by simp [initials])

/-- A statement can be read back from its outlines. -/
theorem of_outlines {s s' : Statement} (h : s.outlines = s'.outlines) : s = s' := by
  rw [← List.append_nil s.outlines, ← List.append_nil s'.outlines] at h
  exact (of_outlines_append h).1

/-- So can a list of statements. How many outlines belong to the first is told by what they are. -/
theorem of_outlinesAll : ∀ {ss ss' : List Statement}, outlinesAll ss = outlinesAll ss' → ss = ss'
  | [], [], _ => rfl
  | [], s' :: ss', h => absurd (List.append_eq_nil_iff.1 h.symm).1 s'.outlines_ne_nil
  | s :: ss, [], h => absurd (List.append_eq_nil_iff.1 h).1 s.outlines_ne_nil
  | s :: ss, s' :: ss', h => by
    obtain ⟨rfl, hrest⟩ := of_outlines_append h
    rw [of_outlinesAll hrest]

end

end Statement

/-! ## Programs -/

/-- Variables can be read back from their outlines. -/
theorem Variable.of_outlines {vars vars' : List Variable}
    (h : vars.map Variable.outline = vars'.map Variable.outline) : vars = vars' := by
  have hvar : Function.Injective Variable.outline := by
    rintro ⟨name, type⟩ ⟨name', type'⟩ hv
    obtain ⟨rfl, rfl⟩ : name = name' ∧ type = type' := of_labelled (Outline.node.inj hv).1
    rfl
  exact List.map_injective_iff.2 hvar h

namespace Subprogram

/-- The subprogram and those in it return a value exactly if they are functions. -/
inductive Regular : Subprogram → Prop
  | mk {s : Subprogram} (hreturns : s.returns.isSome = true ↔ s.kind = .function)
      (hinner : ∀ t ∈ s.subprograms, Regular t) : Regular s

/-- The heading of a subprogram is that of a function with its type, or that of a procedure. -/
theorem heading_cases (kind : RoutineKind) (name : String) {returns : Option ValueType}
    (h : returns.isSome = true ↔ kind = .function) :
    (∃ type, kind = .function ∧ returns = some type ∧
      heading kind name returns = labelled "Function: " name " returns " type "") ∨
    (kind = .procedure ∧ returns = none ∧ heading kind name returns = "Procedure: " ++ name) := by
  cases returns with
  | some type =>
    obtain rfl := h.1 rfl
    exact .inl ⟨type, rfl, rfl, String.append_empty.symm⟩
  | none =>
    cases kind with
    | function => exact absurd (h.2 rfl) Bool.false_ne_true
    | procedure => exact .inr ⟨rfl, rfl, rfl⟩

/-- The kind, the name and the type of a subprogram can be read back from its heading. -/
theorem of_heading {kind kind' : RoutineKind} {name name' : String}
    {returns returns' : Option ValueType} (h : returns.isSome = true ↔ kind = .function)
    (h' : returns'.isSome = true ↔ kind' = .function)
    (heq : heading kind name returns = heading kind' name' returns') :
    kind = kind' ∧ name = name' ∧ returns = returns' := by
  have hopening := congrArg (fun text : String => text.toList.head?) heq
  rcases heading_cases kind name h with ⟨type, rfl, rfl, htext⟩ | ⟨rfl, rfl, htext⟩ <;>
    rcases heading_cases kind' name' h' with ⟨type', rfl, rfl, htext'⟩ | ⟨rfl, rfl, htext'⟩ <;>
    rw [htext, htext'] at heq hopening
  · obtain ⟨rfl, rfl⟩ := of_labelled heq
    exact ⟨rfl, rfl, rfl⟩
  · simp [labelled] at hopening
  · simp [labelled] at hopening
  · exact ⟨rfl, of_append_left heq, rfl⟩

mutual

/-- A subprogram can be read back from its outline up to places, by recursion over the nesting. -/
theorem of_outline : ∀ {s s' : Subprogram}, s.Regular → s'.Regular → s.outline = s'.outline →
    s.unplaced = s'.unplaced
  | ⟨kind, name, returns, args, vars, subprograms, body, location⟩,
      ⟨kind', name', returns', args', vars', subprograms', body', location'⟩, hs, hs', h => by
    obtain ⟨hreturns, hinner⟩ := hs
    obtain ⟨hreturns', hinner'⟩ := hs'
    obtain ⟨hheading, hparts⟩ := Outline.node.inj h
    obtain ⟨rfl, rfl, rfl⟩ := of_heading hreturns hreturns' hheading
    obtain ⟨-, hargs, hparts⟩ := of_node_cons hparts
    obtain ⟨-, hvars, hparts⟩ := of_node_cons hparts
    obtain ⟨-, hsubprograms, hparts⟩ := of_node_cons hparts
    obtain ⟨-, hbody, -⟩ := of_node_cons hparts
    rw [unplaced, unplaced, Variable.of_outlines hargs, Variable.of_outlines hvars,
      of_outlineAll hinner hinner' hsubprograms, Statement.of_outlinesAll hbody]

/-- So can a list of subprograms. -/
theorem of_outlineAll : ∀ {ss ss' : List Subprogram}, (∀ s ∈ ss, s.Regular) →
    (∀ s ∈ ss', s.Regular) → outlineAll ss = outlineAll ss' → unplacedAll ss = unplacedAll ss'
  | [], [], _, _, _ => rfl
  | [], _ :: _, _, _, h => by cases h
  | _ :: _, [], _, _, h => by cases h
  | s :: ss, s' :: ss', hss, hss', h => by
    obtain ⟨hfirst, hrest⟩ := List.cons.inj h
    obtain ⟨hs, hss⟩ := List.forall_mem_cons.1 hss
    obtain ⟨hs', hss'⟩ := List.forall_mem_cons.1 hss'
    rw [unplacedAll, unplacedAll, of_outline hs hs' hfirst, of_outlineAll hss hss' hrest]

end

mutual

theorem outline_unplaced : ∀ s : Subprogram, s.unplaced.outline = s.outline
  | ⟨kind, name, returns, args, vars, subprograms, body, location⟩ => by
    rw [unplaced, outline, outline, outlineAll_unplacedAll subprograms]

theorem outlineAll_unplacedAll : ∀ ss : List Subprogram, outlineAll (unplacedAll ss) = outlineAll ss
  | [] => rfl
  | s :: ss => by
    rw [unplacedAll, outlineAll, outlineAll, outline_unplaced s, outlineAll_unplacedAll ss]

end

end Subprogram

namespace Program

/-- A program can be read back from its outline up to places. -/
theorem of_outline {p q : Program} (hp : ∀ s ∈ p.subprograms, s.Regular)
    (hq : ∀ s ∈ q.subprograms, s.Regular) (h : p.outline = q.outline) :
    p.unplaced = q.unplaced := by
  obtain ⟨htext, hparts⟩ := Outline.node.inj h
  have hname : p.name = q.name := of_append_left htext
  obtain ⟨-, hvars, hparts⟩ := of_node_cons hparts
  obtain ⟨-, hsubprograms, hparts⟩ := of_node_cons hparts
  obtain ⟨-, hbody, -⟩ := of_node_cons hparts
  rw [unplaced, unplaced, hname, Variable.of_outlines hvars,
    Subprogram.of_outlineAll hp hq hsubprograms, Statement.of_outlinesAll hbody]

/-- So can a list of programs. -/
theorem of_outlines : ∀ {ps qs : List Program}, (∀ p ∈ ps, ∀ s ∈ p.subprograms, s.Regular) →
    (∀ q ∈ qs, ∀ s ∈ q.subprograms, s.Regular) → ps.map outline = qs.map outline →
    ps.map unplaced = qs.map unplaced
  | [], [], _, _, _ => rfl
  | [], _ :: _, _, _, h => by cases h
  | _ :: _, [], _, _, h => by cases h
  | p :: ps, q :: qs, hps, hqs, h => by
    obtain ⟨hfirst, hrest⟩ := List.cons.inj h
    obtain ⟨hp, hps⟩ := List.forall_mem_cons.1 hps
    obtain ⟨hq, hqs⟩ := List.forall_mem_cons.1 hqs
    rw [List.map_cons, List.map_cons, of_outline hp hq hfirst, of_outlines hps hqs hrest]

theorem outline_unplaced (p : Program) : p.unplaced.outline = p.outline := by
  rw [outline, outline, unplaced, Subprogram.outlineAll_unplacedAll]

end Program

/-! ## Names and literals -/

namespace Expr

mutual

/-- The names and literals of an expression. -/
def texts : Expr → List String
  | literal text _ => [text]
  | var name _ => [name]
  | element name _ index => name :: index.texts
  | call name _ args => name :: textsAll args
  | binary _ left right _ => left.texts ++ right.texts
  | unary _ operand _ => operand.texts

def textsAll : List Expr → List String
  | [] => []
  | e :: es => e.texts ++ textsAll es

end

end Expr

namespace Statement

mutual

/-- The names and literals of a statement. -/
def texts : Statement → List String
  | assign target value => target.reading.texts ++ value.texts
  | compound body => textsAll body
  | branch test yes no => test.texts ++ yes.texts ++ no.texts
  | loop test body => test.texts ++ body.texts
  | call name args => name :: Expr.textsAll args
  | read target => target.reading.texts
  | write value => value.texts

def textsAll : List Statement → List String
  | [] => []
  | s :: ss => s.texts ++ textsAll ss

end

end Statement

namespace Subprogram

mutual

/-- The names and literals of a subprogram. -/
def texts : Subprogram → List String
  | ⟨_, name, _, args, vars, subprograms, body, _⟩ =>
    name :: args.map Variable.name ++ vars.map Variable.name ++ textsAll subprograms ++
      Statement.textsAll body

def textsAll : List Subprogram → List String
  | [] => []
  | s :: ss => s.texts ++ textsAll ss

end

end Subprogram

/-- The names and literals of a program. -/
def Program.texts (p : Program) : List String :=
  p.name :: p.vars.map Variable.name ++ Subprogram.textsAll p.subprograms ++
    Statement.textsAll p.body

/-- No text has a line break. -/
abbrev Unbroken (texts : List String) : Prop := ∀ text ∈ texts, '\n' ∉ text.toList

namespace Expr

theorem isLine_typed {label name : String} (type : ValueType)
    (h : IsLine label ∧ label.toList ≠ []) (hname : '\n' ∉ name.toList) :
    IsLine (labelled label name " (" type ")") := isLine_labelled type h hname (by decide)

theorem newline_notMem_binary (op : BinaryOp) : '\n' ∉ op.text.toList := by
  rcases op with _ | _ | _ | _ | _ | _ | _ | _ | ⟨_ | _ | _ | _ | _ | _⟩ <;> decide

theorem newline_notMem_unary (op : UnaryOp) : '\n' ∉ op.text.toList := by
  cases op <;> decide

mutual

/-- The nodes of an outline are lines if the names and literals in the expression are not broken. -/
theorem lined_outline : ∀ {e : Expr}, Unbroken e.texts → e.outline.Lined
  | literal text type, h => lined_leaf (isLine_typed type (by decide) (h text List.mem_cons_self))
  | var name type, h => lined_leaf (isLine_typed type (by decide) (h name List.mem_cons_self))
  | element name type index, h => by
    obtain ⟨hname, hindex⟩ := List.forall_mem_cons.1 h
    exact .node (isLine_typed type (by decide) hname)
      (List.forall_mem_singleton.2 (lined_outline hindex))
  | call name type args, h => by
    obtain ⟨hname, hargs⟩ := List.forall_mem_cons.1 h
    exact .node (isLine_typed type (by decide) hname) (lined_outlineAll hargs)
  | binary op left right type, h => by
    obtain ⟨hleft, hright⟩ := List.forall_mem_append.1 h
    exact .node (isLine_typed type (by decide) (newline_notMem_binary op)) (List.forall_mem_cons.2
      ⟨lined_outline hleft, List.forall_mem_singleton.2 (lined_outline hright)⟩)
  | unary op operand type, h =>
    .node (isLine_typed type (by decide) (newline_notMem_unary op))
      (List.forall_mem_singleton.2 (lined_outline h))

theorem lined_outlineAll : ∀ {es : List Expr}, Unbroken (textsAll es) →
    ∀ outline ∈ outlineAll es, outline.Lined
  | [], _ => fun _ hmem => absurd hmem List.not_mem_nil
  | e :: es, h => by
    obtain ⟨hfirst, hrest⟩ := List.forall_mem_append.1 h
    exact List.forall_mem_cons.2 ⟨lined_outline hfirst, lined_outlineAll hrest⟩

end

end Expr

theorem Target.lined_outline {target : Target} (h : Unbroken target.reading.texts) :
    target.outline.Lined := target.outline_reading ▸ Expr.lined_outline h

theorem Variable.lined_outlines {vars : List Variable} (h : Unbroken (vars.map Variable.name)) :
    ∀ outline ∈ vars.map Variable.outline, outline.Lined :=
  List.forall_mem_map.2 fun v hv =>
    lined_leaf (Expr.isLine_typed v.type (by decide) (h v.name (List.mem_map_of_mem hv)))

namespace Statement

mutual

/-- The nodes of a statement are lines: its own texts are fixed, and the others are those of its
parts. -/
theorem lined_outlines : ∀ {s : Statement}, Unbroken s.texts →
    ∀ outline ∈ s.outlines, outline.Lined
  | assign target value, h => by
    obtain ⟨htarget, hvalue⟩ := List.forall_mem_append.1 h
    exact List.forall_mem_singleton.2 (.node (by decide) (List.forall_mem_cons.2
      ⟨Target.lined_outline htarget, List.forall_mem_singleton.2 (Expr.lined_outline hvalue)⟩))
  | compound body, h => List.forall_mem_singleton.2 (.node (by decide) (lined_outlinesAll h))
  | branch test yes no, h => by
    obtain ⟨h, hno⟩ := List.forall_mem_append.1 h
    obtain ⟨htest, hyes⟩ := List.forall_mem_append.1 h
    have htests : Lined (node "If" [test.outline]) :=
      .node (by decide) (List.forall_mem_singleton.2 (Expr.lined_outline htest))
    exact List.forall_mem_cons.2 ⟨htests, List.forall_mem_cons.2
      ⟨.node (by decide) (lined_outlines hyes),
        List.forall_mem_singleton.2 (.node (by decide) (lined_outlines hno))⟩⟩
  | loop test body, h => by
    obtain ⟨htest, hbody⟩ := List.forall_mem_append.1 h
    have htests : Lined (node "While" [test.outline]) :=
      .node (by decide) (List.forall_mem_singleton.2 (Expr.lined_outline htest))
    exact List.forall_mem_cons.2
      ⟨htests, List.forall_mem_singleton.2 (.node (by decide) (lined_outlines hbody))⟩
  | call name args, h => by
    obtain ⟨hname, hargs⟩ := List.forall_mem_cons.1 h
    exact List.forall_mem_singleton.2
      (.node (isLine_append (by decide) hname) (Expr.lined_outlineAll hargs))
  | read target, h => List.forall_mem_singleton.2
      (.node (by decide) (List.forall_mem_singleton.2 (Target.lined_outline h)))
  | write value, h => List.forall_mem_singleton.2
      (.node (by decide) (List.forall_mem_singleton.2 (Expr.lined_outline h)))

theorem lined_outlinesAll : ∀ {ss : List Statement}, Unbroken (textsAll ss) →
    ∀ outline ∈ outlinesAll ss, outline.Lined
  | [], _ => fun _ hmem => absurd hmem List.not_mem_nil
  | s :: ss, h => by
    obtain ⟨hfirst, hrest⟩ := List.forall_mem_append.1 h
    exact List.forall_mem_append.2 ⟨lined_outlines hfirst, lined_outlinesAll hrest⟩

end

end Statement

namespace Subprogram

/-- A heading is a line if the name is not broken. -/
theorem isLine_heading (kind : RoutineKind) {name : String} (returns : Option ValueType)
    (h : '\n' ∉ name.toList) : IsLine (heading kind name returns) := by
  unfold heading
  split
  · next type =>
    have hline : IsLine (labelled "Function: " name " returns " type "") :=
      isLine_labelled type (by decide) h (by decide)
    rwa [labelled, String.append_empty] at hline
  · exact isLine_append (by decide) h

mutual

/-- The nodes of a subprogram are lines, by recursion over the nesting. -/
theorem lined_outline : ∀ {s : Subprogram}, Unbroken s.texts → s.outline.Lined
  | ⟨kind, name, returns, args, vars, subprograms, body, location⟩, h => by
    obtain ⟨h, hbody⟩ := List.forall_mem_append.1 h
    obtain ⟨h, hsubprograms⟩ := List.forall_mem_append.1 h
    obtain ⟨h, hvars⟩ := List.forall_mem_append.1 h
    obtain ⟨hname, hargs⟩ := List.forall_mem_cons.1 h
    refine .node (isLine_heading kind returns hname) ?_
    simp only [List.forall_mem_cons]
    exact ⟨.node (by decide) (Variable.lined_outlines hargs),
      .node (by decide) (Variable.lined_outlines hvars),
      .node (by decide) (lined_outlineAll hsubprograms),
      .node (by decide) (Statement.lined_outlinesAll hbody), List.forall_mem_nil _⟩

theorem lined_outlineAll : ∀ {ss : List Subprogram}, Unbroken (textsAll ss) →
    ∀ outline ∈ outlineAll ss, outline.Lined
  | [], _ => fun _ hmem => absurd hmem List.not_mem_nil
  | s :: ss, h => by
    obtain ⟨hfirst, hrest⟩ := List.forall_mem_append.1 h
    exact List.forall_mem_cons.2 ⟨lined_outline hfirst, lined_outlineAll hrest⟩

end

end Subprogram

namespace Program

/-- A program whose names and literals are not broken is outlined in lines. -/
theorem lined_outline {p : Program} (h : Unbroken p.texts) : p.outline.Lined := by
  obtain ⟨h, hbody⟩ := List.forall_mem_append.1 h
  obtain ⟨h, hsubprograms⟩ := List.forall_mem_append.1 h
  obtain ⟨hname, hvars⟩ := List.forall_mem_cons.1 h
  refine .node (isLine_append (by decide) hname) ?_
  simp only [List.forall_mem_cons]
  exact ⟨.node (by decide) (Variable.lined_outlines hvars),
    .node (by decide) (Subprogram.lined_outlineAll hsubprograms),
    .node (by decide) (Statement.lined_outlinesAll hbody), List.forall_mem_nil _⟩

/-- Written one after the other, programs are the same text exactly if they are the same programs up
to the places of their names. -/
theorem dump_eq_iff {ps qs : List Program} (htexts : ∀ p ∈ ps ++ qs, Unbroken p.texts)
    (hregular : ∀ p ∈ ps ++ qs, ∀ s ∈ p.subprograms, s.Regular) :
    String.join (ps.map dump) = String.join (qs.map dump) ↔
      ps.map unplaced = qs.map unplaced := by
  constructor
  · intro h
    have hdump (rs : List Program) : rs.map dump = (rs.map outline).map Outline.render :=
      List.map_map.symm
    rw [hdump, hdump] at h
    obtain ⟨hps, hqs⟩ := List.forall_mem_append.1 htexts
    obtain ⟨hps', hqs'⟩ := List.forall_mem_append.1 hregular
    exact of_outlines hps' hqs' (Outline.eq_of_text
      (List.forall_mem_map.2 fun p hp => lined_outline (hps p hp))
      (List.forall_mem_map.2 fun q hq => lined_outline (hqs q hq)) h)
  · intro h
    have hdump (rs : List Program) : rs.map dump = (rs.map unplaced).map dump := by
      rw [List.map_map]
      exact List.map_congr_left fun p _ => congrArg Outline.render p.outline_unplaced.symm
    rw [hdump ps, hdump qs, h]

/-- A program whose names look like ends of texts, marks and headings. -/
def lookalike (location : Location) : Program where
  name := "p returns real"
  vars := [⟨"x (integer)", .real⟩]
  subprograms := [⟨.function, "f", some .integer, [⟨"|-- Name: x", .integer⟩], [],
    [⟨.procedure, "Function: g returns real", none, [], [], [], [.compound []], location⟩],
    [.assign (.var "f" .integer) (.call "f" .integer [.literal "1" .integer])], location⟩]
  body := [.branch (.var "x" .real) (.write (.literal "2" .integer)) (.compound []),
    .read (.var "x" .real)]
  location := location

/-- Where its names stand does not show, how often it is written does. -/
theorem dump_lookalike :
    String.join ([lookalike ⟨1, 9⟩].map dump) = String.join ([lookalike ⟨2, 5⟩].map dump) ∧
      String.join ([lookalike ⟨1, 9⟩].map dump) ≠
        String.join ([lookalike ⟨1, 9⟩, lookalike ⟨1, 9⟩].map dump) := by
  have hregular (location : Location) : ∀ s ∈ (lookalike location).subprograms, s.Regular :=
    List.forall_mem_singleton.2 (.mk (iff_of_true rfl rfl) (List.forall_mem_singleton.2
      (.mk (iff_of_false Bool.false_ne_true RoutineKind.noConfusion) (List.forall_mem_nil _))))
  constructor
  · refine (dump_eq_iff (by decide) ?_).2 rfl
    exact List.forall_mem_cons.2 ⟨hregular _, List.forall_mem_singleton.2 (hregular _)⟩
  · refine mt (dump_eq_iff (by decide) ?_).1 (by decide)
    exact List.forall_mem_cons.2 ⟨hregular _, List.forall_mem_cons.2 ⟨hregular _,
      List.forall_mem_singleton.2 (hregular _)⟩⟩

end Program

end PascalMips
