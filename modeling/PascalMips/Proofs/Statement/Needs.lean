import PascalMips.Proofs.Lower.Marks
import PascalMips.Proofs.Statement.Uses

/-!
# Needs of what was read

In a statement that was read from a text every need agrees with a declaration, and its literals are
numbers (`Need.Agrees`). Folding keeps statements checked, so this holds of folded statements too.
-/

namespace PascalMips

/-! ## Folding keeps trees checked -/

namespace Expr

mutual

theorem All.and {P Q : Expr → Prop} : ∀ {e : Expr}, e.All P → e.All Q →
    e.All fun d => P d ∧ Q d
  | literal .., hP, hQ => ⟨hP, hQ⟩
  | var .., hP, hQ => ⟨hP, hQ⟩
  | element .., hP, hQ => ⟨⟨hP.1, hQ.1⟩, hP.2.and hQ.2⟩
  | call .., hP, hQ => ⟨⟨hP.1, hQ.1⟩, AllOf.and hP.2 hQ.2⟩
  | binary .., hP, hQ => ⟨⟨hP.1, hQ.1⟩, hP.2.1.and hQ.2.1, hP.2.2.and hQ.2.2⟩
  | unary .., hP, hQ => ⟨⟨hP.1, hQ.1⟩, hP.2.and hQ.2⟩

theorem AllOf.and {P Q : Expr → Prop} : ∀ {es : List Expr}, AllOf P es → AllOf Q es →
    AllOf (fun d => P d ∧ Q d) es
  | [], _, _ => trivial
  | _ :: _, hP, hQ => ⟨hP.1.and hQ.1, AllOf.and hP.2 hQ.2⟩

end

variable {t : SymbolTable}

mutual

/-- Folding brings in no new names, so what was visible is. -/
theorem visible_fold : ∀ {e : Expr}, e.All (IsVisible t) → e.fold.All (IsVisible t)
  | literal .., h => h
  | var .., h => h
  | element .., ⟨h, hindex⟩ => ⟨h, visible_fold hindex⟩
  | call _ _ args, ⟨⟨symbol, params, hlookup, hbinding, hlength⟩, hargs⟩ =>
    ⟨⟨symbol, params, hlookup, hbinding, (length_foldAll args).trans hlength⟩, visible_foldAll hargs⟩
  | binary op left right type, ⟨_, hleft, hright⟩ => by
    rw [fold]
    cases hv : evaluate? op left.fold right.fold with
    | none => exact ⟨trivial, visible_fold hleft, visible_fold hright⟩
    | some e =>
      obtain ⟨_, _, _, _, _, _, rfl⟩ := exists_of_evaluate? hv
      trivial
  | unary .., ⟨_, hoperand⟩ => ⟨trivial, visible_fold hoperand⟩

theorem visible_foldAll : ∀ {es : List Expr}, AllOf (IsVisible t) es →
    AllOf (IsVisible t) (foldAll es)
  | [], _ => trivial
  | _ :: _, ⟨he, hes⟩ => ⟨visible_fold he, visible_foldAll hes⟩

end

/-- Folding keeps an expression checked: its names are visible, its types derived and its literals
in range. -/
theorem checked_fold {e : Expr} (h : e.All (IsChecked t)) : e.fold.All (IsChecked t) :=
  (visible_fold (h.imp fun _ hd => hd.1)).and (sound_fold (h.imp fun _ hd => hd.2)).1

theorem checked_foldAll {es : List Expr} (h : AllOf (IsChecked t) es) :
    AllOf (IsChecked t) (foldAll es) :=
  AllOf.and (visible_foldAll (AllOf.imp (fun _ hd => hd.1) h))
    (sound_foldAll (AllOf.imp (fun _ hd => hd.2) h)).1

end Expr

section

variable {t : SymbolTable} {enclosing : List String}

theorem Target.checked_fold {target : Target} (h : target.Checked t enclosing) :
    target.fold.Checked t enclosing := by
  cases target with
  | var => exact h
  | element name type index => exact ⟨h.1, Expr.checked_fold h.2⟩

mutual

/-- Folding keeps a statement checked, by induction over statements. -/
theorem Statement.checked_fold : ∀ {s : Statement}, s.All (IsChecked t enclosing) →
    s.fold.All (IsChecked t enclosing)
  | assign .., ⟨htarget, hvalue⟩ => ⟨Target.checked_fold htarget, Expr.checked_fold hvalue⟩
  | compound _, ⟨_, hbody⟩ => ⟨trivial, checked_foldAll hbody⟩
  | branch .., ⟨htest, hyes, hno⟩ => ⟨Expr.checked_fold htest, checked_fold hyes, checked_fold hno⟩
  | loop .., ⟨htest, hbody⟩ => ⟨Expr.checked_fold htest, checked_fold hbody⟩
  | call _ args, ⟨hargs, symbol, params, hlookup, hbinding, hlength⟩ =>
    ⟨Expr.checked_foldAll hargs, symbol, params, hlookup, hbinding,
      (Expr.length_foldAll args).trans hlength⟩
  | read _, htarget => Target.checked_fold htarget
  | write _, hvalue => Expr.checked_fold hvalue

/-- Folding keeps statements checked. -/
theorem Statement.checked_foldAll : ∀ {ss : List Statement}, AllOf (IsChecked t enclosing) ss →
    AllOf (IsChecked t enclosing) (foldAll ss)
  | [], _ => trivial
  | _ :: _, ⟨hs, hss⟩ => ⟨checked_fold hs, checked_foldAll hss⟩

end

end

/-! ## Needs agree with declarations -/

/-- The name stands for a variable or an array. -/
def Binding.IsVariable (b : Binding) : Prop := b.role = .scalar ∨ b.role = .array

/-- A literal is one that a program can write. A name with a place is declared as a variable or an
array, or as a function whose body is open, and a name that is called as a subprogram. -/
def Need.Agrees (t : SymbolTable) (enclosing : List String) : Need → Prop
  | number text type => (Expr.literal text type).IsReadable
  | place x => ∃ symbol, t.lookup? x = some symbol ∧
      (symbol.binding.IsVariable ∨ symbol.binding.role = .function ∧ x ∈ enclosing)
  | call x _ => ∃ symbol params, t.lookup? x = some symbol ∧ symbol.binding.params? = some params

section

variable {t : SymbolTable} {enclosing : List String} {need : Need}

theorem Need.agrees_of_scalar {x : String} {symbol : Symbol} {type : ValueType}
    (hlookup : t.lookup? x = some symbol) (hbinding : symbol.binding = .scalar type) :
    (Need.place x).Agrees t enclosing :=
  ⟨symbol, hlookup, .inl (.inl (by rw [hbinding]; rfl))⟩

theorem Need.agrees_of_array {x : String} {symbol : Symbol} {type : ValueType} {bounds : Bounds}
    (hlookup : t.lookup? x = some symbol) (hbinding : symbol.binding = .array type bounds) :
    (Need.place x).Agrees t enclosing :=
  ⟨symbol, hlookup, .inl (.inr (by rw [hbinding]; rfl))⟩

mutual

/-- The needs of a checked expression agree with the table, by induction over expressions. -/
theorem Expr.agrees_of_mem_needs : ∀ {e : Expr}, e.All (IsChecked t) → need ∈ e.needs →
    need.Agrees t enclosing
  | literal .., ⟨_, _, hreadable⟩, hneed => by
    rw [needs] at hneed
    cases List.mem_singleton.1 hneed
    exact hreadable
  | var .., ⟨⟨symbol, hlookup, hbinding⟩, _⟩, hneed => by
    rw [needs] at hneed
    cases List.mem_singleton.1 hneed
    exact Need.agrees_of_scalar hlookup hbinding
  | element .., ⟨⟨⟨symbol, bounds, hlookup, hbinding⟩, _⟩, hindex⟩, hneed => by
    rw [needs] at hneed
    rcases List.mem_cons.1 hneed with rfl | hneed
    · exact Need.agrees_of_array hlookup hbinding
    · exact agrees_of_mem_needs hindex hneed
  | call .., ⟨⟨⟨symbol, params, hlookup, hbinding, _⟩, _⟩, hargs⟩, hneed => by
    rw [needs] at hneed
    rcases List.mem_cons.1 hneed with rfl | hneed
    · exact ⟨symbol, params, hlookup, by rw [hbinding]; rfl⟩
    · exact agrees_of_mem_needsAll hargs hneed
  | binary .., ⟨_, hleft, hright⟩, hneed => by
    rw [needs] at hneed
    rcases List.mem_append.1 hneed with hneed | hneed
    · exact agrees_of_mem_needs hleft hneed
    · exact agrees_of_mem_needs hright hneed
  | unary .., ⟨_, hoperand⟩, hneed => by
    rw [needs] at hneed
    exact agrees_of_mem_needs hoperand hneed

theorem Expr.agrees_of_mem_needsAll : ∀ {es : List Expr}, AllOf (IsChecked t) es →
    need ∈ needsAll es → need.Agrees t enclosing
  | [], _, hneed => by rw [needsAll] at hneed; cases hneed
  | _ :: _, ⟨he, hes⟩, hneed => by
    rw [needsAll] at hneed
    rcases List.mem_append.1 hneed with hneed | hneed
    · exact agrees_of_mem_needs he hneed
    · exact agrees_of_mem_needsAll hes hneed

end

/-- The needs of a checked place agree with the table. This is where results of functions come in.
-/
theorem Target.agrees_of_mem_needs {target : Target} (h : target.Checked t enclosing)
    (hneed : need ∈ target.needs) : need.Agrees t enclosing := by
  cases target with
  | var name type =>
    cases List.mem_singleton.1 hneed
    obtain ⟨symbol, hlookup, hbinding | ⟨henclosing, params, hbinding⟩⟩ := h
    · exact Need.agrees_of_scalar hlookup hbinding
    · exact ⟨symbol, hlookup, .inr ⟨by rw [hbinding]; rfl, henclosing⟩⟩
  | element name type index =>
    obtain ⟨⟨symbol, bounds, hlookup, hbinding⟩, hindex⟩ := h
    rcases List.mem_cons.1 hneed with rfl | hneed
    · exact Need.agrees_of_array hlookup hbinding
    · exact Expr.agrees_of_mem_needs hindex hneed

mutual

/-- The needs of a checked statement agree with the table, by induction over statements. -/
theorem Statement.agrees_of_mem_needs : ∀ {s : Statement}, s.All (IsChecked t enclosing) →
    need ∈ s.needs → need.Agrees t enclosing
  | assign .., ⟨htarget, hvalue⟩, hneed => by
    rw [needs] at hneed
    rcases List.mem_append.1 hneed with hneed | hneed
    · exact Expr.agrees_of_mem_needs hvalue hneed
    · exact Target.agrees_of_mem_needs htarget hneed
  | compound _, ⟨_, hbody⟩, hneed => by
    rw [needs] at hneed
    exact agrees_of_mem_needsAll hbody hneed
  | branch .., ⟨htest, hyes, hno⟩, hneed => by
    rw [needs] at hneed
    rcases List.mem_append.1 hneed with hneed | hneed
    · exact Expr.agrees_of_mem_needs htest hneed
    · rcases List.mem_append.1 hneed with hneed | hneed
      · exact agrees_of_mem_needs hyes hneed
      · exact agrees_of_mem_needs hno hneed
  | loop .., ⟨htest, hbody⟩, hneed => by
    rw [needs] at hneed
    rcases List.mem_append.1 hneed with hneed | hneed
    · exact Expr.agrees_of_mem_needs htest hneed
    · exact agrees_of_mem_needs hbody hneed
  | call .., ⟨hargs, symbol, params, hlookup, hbinding, _⟩, hneed => by
    rw [needs] at hneed
    rcases List.mem_cons.1 hneed with rfl | hneed
    · exact ⟨symbol, params, hlookup, by rw [hbinding]; rfl⟩
    · exact Expr.agrees_of_mem_needsAll hargs hneed
  | read _, htarget, hneed => by
    rw [needs] at hneed
    exact Target.agrees_of_mem_needs htarget hneed
  | write _, hvalue, hneed => by
    rw [needs] at hneed
    exact Expr.agrees_of_mem_needs hvalue hneed

/-- The needs of checked statements agree with the table. -/
theorem Statement.agrees_of_mem_needsAll : ∀ {ss : List Statement},
    AllOf (IsChecked t enclosing) ss → need ∈ needsAll ss → need.Agrees t enclosing
  | [], _, hneed => by rw [needsAll] at hneed; cases hneed
  | _ :: _, ⟨hs, hss⟩, hneed => by
    rw [needsAll] at hneed
    rcases List.mem_append.1 hneed with hneed | hneed
    · exact agrees_of_mem_needs hs hneed
    · exact agrees_of_mem_needsAll hss hneed

end

end

end PascalMips
