import PascalMips.Proofs.Parser.Words
import PascalMips.Proofs.Program.Parts

/-!
# Labels of variables and routines

A routine has the label of its path, the names of the subprograms around it and its own, joined by
low lines; a variable of the program has that of its name alone. Names are words, so different paths
have different labels (`Label.ofRoutine_inj`), and labels differ in their texts (`Label.text_inj`).
No two variables or routines of a program have the same path (`Program.nodup_namedLabels`).
-/

namespace PascalMips

/-! ## Texts of labels -/

namespace Label

/-- A path can be read back from its text, since no name in it holds the sign between them. -/
theorem intercalate_inj {ns ms : List String} (hns : ∀ x ∈ ns, IsWord x) (hms : ∀ x ∈ ms, IsWord x)
    (hn : ns ≠ []) (hm : ms ≠ []) (h : "_".intercalate ns = "_".intercalate ms) : ns = ms := by
  have hwords {xs : List String} (hxs : ∀ x ∈ xs, IsWord x) :
      ∀ l ∈ xs.map String.toList, '_' ∉ l := by
    intro l hl
    obtain ⟨x, hx, rfl⟩ := List.mem_map.1 hl
    exact hxs x hx
  have hlists : ['_'].intercalate (ns.map String.toList) =
      ['_'].intercalate (ms.map String.toList) := by
    have := congrArg String.toList h
    rwa [String.toList_intercalate, String.toList_intercalate] at this
  have hsplit := congrArg (List.splitOn '_') hlists
  rw [List.splitOn_intercalate '_' (hwords hns) (by simpa using hn),
    List.splitOn_intercalate '_' (hwords hms) (by simpa using hm)] at hsplit
  exact List.map_injective_iff.2 (fun _ _ => String.ext) hsplit

/-- Paths of words have different labels. -/
theorem ofRoutine_inj {ns ms : List String} (hns : ∀ x ∈ ns, IsWord x) (hms : ∀ x ∈ ms, IsWord x)
    (hn : ns ≠ []) (hm : ms ≠ []) (h : ofRoutine ns = ofRoutine ms) : ns = ms :=
  intercalate_inj hns hms hn hm ((String.append_right_inj "_").1 (named.inj h))

/-- If the label has a text of its own, the text starts with a low line. -/
def IsMarked : Label → Prop
  | named text => ∃ rest, text = "_" ++ rest
  | _ => True

theorem isMarked_ofRoutine (ns : List String) : (ofRoutine ns).IsMarked := ⟨_, rfl⟩

/-- The characters of the text of a label. -/
def spelling : Label → List Char
  | main => ['m', 'a', 'i', 'n']
  | named text => text.toList
  | otherwise n => 'e' :: 'l' :: 's' :: 'e' :: Nat.toDigits 10 n
  | endIf n => 'e' :: 'n' :: 'd' :: 'I' :: 'f' :: Nat.toDigits 10 n
  | loop n => 'w' :: 'h' :: 'i' :: 'l' :: 'e' :: Nat.toDigits 10 n
  | endLoop n => 'e' :: 'n' :: 'd' :: 'W' :: 'h' :: 'i' :: 'l' :: 'e' :: Nat.toDigits 10 n

theorem toList_text (l : Label) : l.text.toList = l.spelling := by
  have happend (word : String) (n : Nat) :
      (word ++ toString n).toList = word.toList ++ Nat.toDigits 10 n := by
    rw [String.toList_append, show (toString n).toList = _ from Nat.toList_repr]
  cases l with
  | main => rfl
  | named text => rfl
  | otherwise n => exact happend "else" n
  | endIf n => exact happend "endIf" n
  | loop n => exact happend "while" n
  | endLoop n => exact happend "endWhile" n

theorem toDigits_inj {n m : Nat} : Nat.toDigits 10 n = Nat.toDigits 10 m ↔ n = m := by
  refine ⟨fun h => ?_, congrArg _⟩
  rw [← Nat.ofDigitChars_ten_toDigits (n := n), h, Nat.ofDigitChars_ten_toDigits]

/-- Marked labels with the same text are the same. -/
theorem text_inj {l m : Label} (hl : l.IsMarked) (hm : m.IsMarked) (h : l.text = m.text) :
    l = m := by
  have hmarked {text : String} (ht : (named text).IsMarked) :
      ∃ rest, text.toList = '_' :: rest := by
    obtain ⟨rest, rfl⟩ := ht
    exact ⟨rest.toList, String.toList_append⟩
  have hspelling : l.spelling = m.spelling := by rw [← toList_text, ← toList_text, h]
  cases l with
  | named text =>
    obtain ⟨rest, hrest⟩ := hmarked hl
    cases m with
    | named other => exact congrArg named (String.ext hspelling)
    | _ => simp [spelling, hrest] at hspelling
  | _ =>
    cases m with
    | named text =>
      obtain ⟨rest, hrest⟩ := hmarked hm
      simp [spelling, hrest] at hspelling
    | _ => simp_all [spelling, toDigits_inj]

end Label

/-! ## Paths of routines -/

theorem Subprogram.Words.fold {s : Subprogram} (h : s.Words) : s.fold.Words := by
  induction h with
  | intro name _ ih =>
    refine .intro (by rw [Subprogram.name_fold]; exact name) fun t ht => ?_
    rw [Subprogram.subprograms_fold, Subprogram.foldAll_eq_map] at ht
    obtain ⟨s, hs, rfl⟩ := List.mem_map.1 ht
    exact ih s hs

namespace Program

variable {source : String} {program p : Program} {symbols : SymbolTable}

/-- The names of a program that was read from a text are words. -/
theorem words_of_parse (h : parse source = .ok (program, symbols))
    (hp : p = program ∨ p = program.fold) : p.Words := by
  obtain ⟨tokens, rest, htokens, hprogram, -⟩ := of_parse h
  obtain ⟨-, hwords⟩ := Parse.words_program _ _ _ (TokenStream.words_ofSource htokens) hprogram
  rcases hp with rfl | rfl
  · exact hwords
  · refine ⟨hwords.vars, fun s hs => ?_⟩
    rw [show program.fold.subprograms = _ from Subprogram.foldAll_eq_map _] at hs
    obtain ⟨t, ht, rfl⟩ := List.mem_map.1 hs
    exact (hwords.subprograms t ht).fold

/-- So are the names along a nesting and of the subprograms there. -/
theorem Words.at (h : p.Words) {n : Nesting} (hn : p.Has n) :
    (∀ x ∈ n.path, IsWord x) ∧ ∀ s ∈ p.subprogramsAt n, s.Words := by
  induction n with
  | nil => exact ⟨nofun, h.subprograms⟩
  | cons level outer ih =>
    obtain ⟨hsplit, houter⟩ := hn
    obtain ⟨hpath, hsubs⟩ := ih houter
    cases hsubs level.sub (by rw [hsplit]; exact List.mem_append_right _ List.mem_cons_self) with
    | intro hname hnested =>
      exact ⟨List.forall_mem_append.2 ⟨hpath, List.forall_mem_singleton.2 hname⟩, hnested⟩

end Program

/-- The paths of routines are distinct, and each goes through one of the subprograms `ss` of the
block `n`. -/
def Nesting.PathsThrough (n : Nesting) (ss : List Subprogram) (rs : List Routine) : Prop :=
  (rs.map fun r => r.nesting.path).Nodup ∧
    ∀ r ∈ rs, ∃ s ∈ ss, ∃ rest, r.nesting.path = n.path ++ s.name :: rest

namespace Context.At

variable {p : Program} {symbols : SymbolTable}

/-- Subprograms of one block have different names, since the scope has them only once. -/
theorem nodup_names {n : Nesting} {ctx : Context} (h : ctx.At p symbols n) :
    ((p.subprogramsAt n).map Subprogram.name).Nodup := by
  obtain ⟨first, routines, rest, hscopes, hsubs, -⟩ := h.opens.split
  have hnodup := (h.wellFormed _ (hscopes ▸ List.mem_cons_self)).nodup
  rw [Scope.names_append, Scope.names_of_forall₂ (fun _ _ h => h.heads.name) hsubs] at hnodup
  exact hnodup.of_append_right

mutual

/-- The routines of a subprogram have paths through it, all different, by recursion over the
nesting. -/
theorem paths_routinesOf : ∀ (s : Subprogram) (before after : List Subprogram) {n : Nesting}
    {ctx : Context}, ctx.At p symbols n → p.subprogramsAt n = before ++ s :: after →
      n.PathsThrough [s] (ctx.routinesOf n before after s)
  | ⟨kind, name, returns, args, vars, subprograms, body, location⟩, before, after, n, ctx, hat,
      hsplit => by
    have ih {n : Nesting} {ctx : Context} := @paths_routines subprograms [] n ctx
    generalize hs : Subprogram.mk kind name returns args vars subprograms body location = s at *
    obtain rfl : s.subprograms = subprograms := by rw [← hs]
    obtain ⟨start, id, inner, henter, hstands⟩ := hat.enter hsplit
    obtain ⟨hnodup, hthrough⟩ := ih hstands.context rfl
    rw [Generator.routinesOf_of_enter? henter]
    have hlonger : ∀ r ∈ inner.routines (⟨before, s, after⟩ :: n) [] s.subprograms,
        ∃ t rest, r.nesting.path = n.path ++ s.name :: t :: rest := by
      intro r hr
      obtain ⟨t, -, rest, hpath⟩ := hthrough r hr
      refine ⟨t.name, rest, hpath.trans ?_⟩
      show (n.path ++ [s.name]) ++ t.name :: rest = _
      rw [List.append_assoc]
      rfl
    constructor
    · refine List.nodup_cons.2 ⟨fun hmem => ?_, hnodup⟩
      obtain ⟨r, hr, heq⟩ := List.mem_map.1 hmem
      obtain ⟨t, rest, hpath⟩ := hlonger r hr
      rw [hpath] at heq
      cases List.append_cancel_left (heq : n.path ++ _ = n.path ++ [s.name])
    · refine List.forall_mem_cons.2 ⟨⟨s, List.mem_singleton_self s, [], rfl⟩, fun r hr => ?_⟩
      obtain ⟨t, rest, hpath⟩ := hlonger r hr
      exact ⟨s, List.mem_singleton_self s, t :: rest, hpath⟩

/-- The routines of a block have distinct paths. -/
theorem paths_routines : ∀ (ss before : List Subprogram) {n : Nesting} {ctx : Context},
    ctx.At p symbols n → p.subprogramsAt n = before ++ ss →
      n.PathsThrough ss (ctx.routines n before ss)
  | [], before, n, ctx, _, _ => by
    rw [Context.routines]
    exact ⟨List.nodup_nil, nofun⟩
  | s :: ss, before, n, ctx, hat, hsplit => by
    obtain ⟨hfirst, hthrough⟩ := paths_routinesOf s before ss hat hsplit
    obtain ⟨hothers, hthrough'⟩ := paths_routines ss (before ++ [s]) hat
      (by rw [hsplit, List.append_cons])
    have hnames : s.name ∉ ss.map Subprogram.name := by
      have := hat.nodup_names
      rw [hsplit, List.map_append] at this
      exact (List.nodup_cons.1 this.of_append_right).1
    rw [Context.routines]
    constructor
    · rw [List.map_append]
      refine hfirst.append hothers fun path hpath hpath' => hnames ?_
      obtain ⟨r, hr, rfl⟩ := List.mem_map.1 hpath
      obtain ⟨r', hr', heq⟩ := List.mem_map.1 hpath'
      obtain ⟨_, hs, rest, hr⟩ := hthrough r hr
      obtain ⟨t, ht, rest', hr'⟩ := hthrough' r' hr'
      cases List.mem_singleton.1 hs
      have heq := List.append_cancel_left (hr'.symm.trans (heq.trans hr))
      rw [← (List.cons.inj heq).1]
      exact List.mem_map_of_mem ht
    · intro r hr
      rcases List.mem_append.1 hr with hr | hr
      · obtain ⟨_, hs, hrest⟩ := hthrough r hr
        cases List.mem_singleton.1 hs
        exact ⟨s, List.mem_cons_self, hrest⟩
      · obtain ⟨t, ht, hrest⟩ := hthrough' r hr
        exact ⟨t, List.mem_cons_of_mem _ ht, hrest⟩

end

end Context.At

namespace Program

variable {source : String} {program p : Program} {symbols : SymbolTable}

/-- The labels of variables and routines. -/
def namedLabels (p : Program) (symbols : SymbolTable) : List Label :=
  p.vars.map (fun v => .ofVariable v.name) ++ (p.routines symbols).map Routine.start

/-- The labels of a program that have names in them are all different: those of variables have one
name, those of subprograms have a path, and the paths are different because the names of each block
are. -/
theorem nodup_namedLabels (h : (p.context symbols).At p symbols []) (hwords : p.Words) :
    (p.namedLabels symbols).Nodup := by
  obtain ⟨hpaths, hthrough⟩ := h.paths_routines p.subprograms [] rfl
  obtain ⟨hglobal, own, vars, routines, heq, hvars, hroutines⟩ := global_of_at h
  have hnames : (p.vars.map Variable.name ++ p.subprograms.map Subprogram.name).Nodup := by
    rw [heq, show Scope.names (own :: (vars ++ routines)) =
      own.name :: Scope.names (vars ++ routines) from rfl, Scope.names_append, Scope.names_of_forall₂ (fun _ _ h => h.name) hvars,
      Scope.names_of_forall₂ (fun _ _ h => h.heads.name) hroutines] at hglobal
    exact (List.nodup_cons.1 hglobal).2
  -- the paths of variables are their names alone
  have hnodup : (p.vars.map (fun v => [v.name]) ++
      (p.routines symbols).map fun r => r.nesting.path).Nodup := by
    refine List.Nodup.append ?_ hpaths fun path hvar hroutine => ?_
    · have : p.vars.map (fun v => [v.name]) = (p.vars.map Variable.name).map ([·]) := by
        rw [List.map_map]
        rfl
      rw [this]
      exact hnames.of_append_left.map fun _ _ heq => (List.cons.inj heq).1
    · obtain ⟨v, hv, rfl⟩ := List.mem_map.1 hvar
      obtain ⟨r, hr, heq⟩ := List.mem_map.1 hroutine
      obtain ⟨s, hs, rest, hpath⟩ := hthrough r hr
      obtain ⟨hname, -⟩ := List.cons.inj (hpath.symm.trans heq)
      exact List.disjoint_of_nodup_append hnames (List.mem_map_of_mem hv)
        (hname ▸ List.mem_map_of_mem hs)
  have hlabels : p.namedLabels symbols = (p.vars.map (fun v => [v.name]) ++
      (p.routines symbols).map fun r => r.nesting.path).map .ofRoutine := by
    rw [namedLabels, List.map_append, List.map_map, List.map_map]
    exact congrArg _ (List.map_congr_left fun r hr => (stands_of_mem_routines h hr).start)
  have hword : ∀ path ∈ p.vars.map (fun v => [v.name]) ++
      (p.routines symbols).map (fun r => r.nesting.path),
      (∀ x ∈ path, IsWord x) ∧ path ≠ [] := by
    intro path hpath
    rcases List.mem_append.1 hpath with hpath | hpath
    · obtain ⟨v, hv, rfl⟩ := List.mem_map.1 hpath
      exact ⟨List.forall_mem_singleton.2 (hwords.vars v hv), List.cons_ne_nil _ _⟩
    · obtain ⟨r, hr, rfl⟩ := List.mem_map.1 hpath
      obtain ⟨s, -, rest, heq⟩ := hthrough r hr
      refine ⟨(hwords.at (stands_of_mem_routines h hr).context.has).1, ?_⟩
      rw [heq]
      exact List.cons_ne_nil _ _
  rw [hlabels]
  refine hnodup.map_on fun path hpath path' hpath' heq => ?_
  obtain ⟨hw, hne⟩ := hword path hpath
  obtain ⟨hw', hne'⟩ := hword path' hpath'
  exact Label.ofRoutine_inj hw hw' hne hne' heq

end Program

end PascalMips
