import PascalMips.Proofs.Expr.Tags
import PascalMips.Proofs.Statement.Execution

/-!
# Tags of statements

Code for a well-typed statement, lowered without a diagnostic, leads from sound tags to sound tags,
and so it does from each of its labels on (`Lower.Secure`). Code with jumps is put together from
such pieces like any other, since sound tags are all that a label asks for.
-/

namespace PascalMips.Lower

variable {α β : Type} {ctx : Context} {c : Counters} {s s₀ : Tagging} {n : Nat}

/-! ## Secure code -/

/-- The code leads from sound tags to sound tags, from its start and from each of its labels. -/
structure Secure (ctx : Context) (x : Lower α) : Prop where
  tagged : ∀ c s, s.Sound ctx.signature →
    Tagged x ctx c (fun _ _ s' => s'.Sound ctx.signature) s
  anchored : ∀ c, Clean (x ctx c).lines →
    Anchored ctx.signature (fun s => s.Sound ctx.signature) (x ctx c).lines

/-- Code without labels is secure if it leads from sound tags to sound tags. -/
theorem Plain.secure {x : Lower α} (hx : Plain x)
    (h : ∀ c s, s.Sound ctx.signature → Tagged x ctx c (fun _ _ s' => s'.Sound ctx.signature) s) :
    Secure ctx x :=
  ⟨h, fun c _ => anchored_of_labelsOf_eq_nil (hx.labels ctx c)⟩

theorem secure_pure (a : α) : Secure ctx (pure a) :=
  (plain_pure a).secure fun _ _ hs => tagged_pure hs

/-- Secure code, one piece after the other, is secure: from a label of the first, it leads on
through the second. -/
theorem Secure.bind {x : Lower α} {f : α → Lower β} (hx : Secure ctx x)
    (hf : ∀ a, Secure ctx (f a)) : Secure ctx (x >>= f) where
  tagged c s hs := tagged_bind ((hx.tagged c s hs).mono fun a c' s' hs' => (hf a).tagged c' s' hs')
  anchored c hclean := by
    rw [bind_apply] at hclean ⊢
    obtain ⟨hfirst, hsecond⟩ := clean_append.1 hclean
    refine anchored_append ?_ ((hf _).anchored _ hsecond)
    exact (hx.anchored c hfirst).mono fun s hs => (hf _).tagged _ s hs hsecond

theorem secure_label (l : Label) : Secure ctx (label l) where
  tagged _ _ hs _ := hs
  anchored _ _ := anchored_label_cons (anchored_of_labelsOf_eq_nil rfl) fun _ hs => hs

theorem secure_jump (l : Label) : Secure ctx (emit (.j l)) := by
  refine (plain_emit _).secure fun c s hs _ => ⟨hs, ⟨Tagging.suits_nil, trivial⟩, ?_⟩
  rintro _ ⟨⟩
  exact ⟨fun _ => hs, nofun⟩

/-! ## Services -/

/-- A service reads what its code asks for and leaves the pool alone. -/
theorem tagged_callService {service : Service} {operands : List (Operand × ValueType)}
    {Q : Unit → Counters → Tagging → Prop} (hkeeps : s₀.Keeps ctx.signature n s)
    (hoperands : serviceOperands? service.code = some operands)
    (hsuits : (s.write .v0 (.constant service.code)).Suits operands)
    (h : s₀.Keeps ctx.signature n ((s.write .v0 (.constant service.code)).serve service.code) →
      Q () c ((s.write .v0 (.constant service.code)).serve service.code)) :
    Tagged (callService service) ctx c Q s := by
  refine tagged_bind (tagged_emit hkeeps.sound ⟨Tagging.suits_nil, trivial⟩ rfl ?_)
  rintro _ ⟨⟩
  have hcode : (s.write .v0 (.constant service.code)).read .v0 = .constant service.code := by simp
  have hasked := hkeeps.write .v0 trivial (.constant service.code)
  refine tagged_emit hasked.sound
    ⟨Tagging.suits_nil, service.code, operands, hcode, hoperands, hsuits⟩ rfl ?_
  intro s' hstep
  cases hstep with
  | syscall hread =>
    cases hcode.symm.trans hread
    exact h (hasked.serve service.code)

/-- A value is printed by the service for its type. -/
theorem tagged_printValue {r : Reg} {type : ValueType} {Q : Unit → Counters → Tagging → Prop}
    (hkeeps : s₀.Keeps ctx.signature n s) (htype : (s.read r).type = type)
    (h : ∀ s', s₀.Keeps ctx.signature n s' → Q () c s') :
    Tagged (printValue r type) ctx c Q s := by
  cases type with
  | integer =>
    refine tagged_bind (tagged_emit hkeeps.sound ⟨Tagging.suits_nil, trivial⟩ rfl ?_)
    rintro _ ⟨⟩
    exact tagged_callService (hkeeps.write .a0 trivial _) rfl
      (Tagging.suits_one (by simp [htype])) (h _)
  | real =>
    refine tagged_bind (tagged_emit hkeeps.sound ⟨Tagging.suits_nil, trivial⟩ rfl ?_)
    rintro _ ⟨⟩
    exact tagged_callService (hkeeps.writeFloat .f12 _) rfl
      (Tagging.suits_one (by simp [htype])) (h _)

end PascalMips.Lower

namespace PascalMips

open Lower

/-- The type of a target is the type of what its name stands for, and its index is well typed. -/
def Target.TypedIn (t : SymbolTable) : Target → Prop
  | var name type => t.type? name = some type
  | element name type index => t.type? name = some type ∧ index.TypedIn t

instance (t : SymbolTable) : DecidablePred (Target.TypedIn t)
  | .var .. => inferInstanceAs (Decidable (_ = _))
  | .element .. => inferInstanceAs (Decidable (_ ∧ _))

/-- The targets and expressions of a statement itself, not those of statements in it, are well
typed. -/
def Statement.IsTypedIn (t : SymbolTable) : Statement → Prop
  | assign target value => target.TypedIn t ∧ value.TypedIn t
  | compound _ => True
  | branch test _ _ => test.TypedIn t
  | loop test _ => test.TypedIn t
  | call _ args => Expr.AllTypedIn t args
  | read target => target.TypedIn t
  | write value => value.TypedIn t

instance (t : SymbolTable) : DecidablePred (Statement.IsTypedIn t)
  | .assign .. => inferInstanceAs (Decidable (_ ∧ _))
  | .compound _ => .isTrue trivial
  | .branch test .. => inferInstanceAs (Decidable (test.TypedIn t))
  | .loop test _ => inferInstanceAs (Decidable (test.TypedIn t))
  | .call _ args => inferInstanceAs (Decidable (Expr.AllTypedIn t args))
  | .read target => inferInstanceAs (Decidable (target.TypedIn t))
  | .write value => inferInstanceAs (Decidable (value.TypedIn t))

/-- All targets and expressions in a statement are well typed. -/
def Statement.TypedIn (t : SymbolTable) (s : Statement) : Prop := s.All (IsTypedIn t)

instance (t : SymbolTable) : DecidablePred (Statement.TypedIn t) :=
  fun s => inferInstanceAs (Decidable (s.All _))

end PascalMips

namespace PascalMips.Lower

variable {ctx : Context} {c : Counters} {s s₀ : Tagging} {n : Nat}

/-! ## Statements without labels -/

/-- A word of the type of the target is stored where that type is declared. -/
theorem tagged_store {target : Target} {i : Fin 8} (htarget : target.TypedIn ctx.symbols)
    (hfed : ∀ need ∈ target.needs, need.FedIn ctx.symbols) (hs : s.Sound ctx.signature)
    (hi : c.cursor = i.val) (htype : (s.read (.s i)).type = target.type) :
    Tagged (store target (.s i)) ctx c (fun _ _ s' => s'.Sound ctx.signature) s := by
  cases target with
  | var name type =>
    refine tagged_bind (tagged_locate fun place hplace => ?_)
    have hslot := Context.slot_of_place hplace htarget
    exact tagged_save hs (hs.place?_address place.1) hslot htype fun number => hs.store hslot number
  | element name type index =>
    obtain ⟨hname, hindex⟩ := htarget
    have hindex := Expr.yields_lower hindex (List.forall_mem_cons.1 hfed).2
    refine tagged_bind (tagged_elementAddress hindex hs fun s₁ place hkeeps hplace ht9 => ?_)
    have hslot := Context.slot_of_place hplace hname
    -- the index was evaluated above the register that is stored
    have hsource : (s₁.read (.s i)).type = type := by rw [hkeeps.below i (by omega), htype]; rfl
    exact tagged_save hkeeps.sound (Tagging.place?_offset_zero ht9) hslot hsource
      fun number => hkeeps.sound.store hslot number

/-- An assignment stores a word of the type of its place, converted if need be. -/
theorem secure_assign {target : Target} {value : Expr} (htarget : target.TypedIn ctx.symbols)
    (hfed : ∀ need ∈ target.needs, need.FedIn ctx.symbols)
    (hvalue : Yields ctx value.lower value.type) : Secure ctx (assign target value) := by
  refine (plain_assign target value).secure fun c s hs => ?_
  refine tagged_bind (hvalue.tagged hs fun s₁ hkeeps hholds => ?_)
  refine tagged_bind (tagged_cursor (tagged_bind (tagged_register fun i hi => ?_)))
  refine tagged_bind (tagged_convert hkeeps (Nat.le_of_eq hi) (hholds.read hi)
    fun s₂ hkeeps htype _ => ?_)
  exact tagged_store htarget hfed hkeeps.sound hi htype

/-- What is read is of the type of the place, for the service is chosen by that type. -/
theorem secure_read {target : Target} (htarget : target.TypedIn ctx.symbols)
    (hfed : ∀ need ∈ target.needs, need.FedIn ctx.symbols) : Secure ctx (read target) := by
  refine (plain_read target).secure fun c s hs => ?_
  have hkeeps := Tagging.Keeps.refl hs c.cursor
  refine tagged_bind (tagged_cursor (tagged_bind (tagged_register fun i hi => ?_)))
  cases htype : target.type with
  | integer =>
    refine tagged_bind (tagged_callService hkeeps rfl Tagging.suits_nil fun hkeeps => ?_)
    refine tagged_bind (tagged_emit hkeeps.sound ⟨Tagging.suits_nil, trivial⟩ rfl ?_)
    rintro _ ⟨⟩
    refine tagged_store htarget hfed (hkeeps.write_pool (Nat.le_of_eq hi) _).sound hi ?_
    rw [Tagging.type_read_write_pool, htype]
    rfl
  | real =>
    refine tagged_bind (tagged_callService hkeeps rfl Tagging.suits_nil fun hkeeps => ?_)
    refine tagged_bind (tagged_emit hkeeps.sound ⟨Tagging.suits_nil, trivial⟩ rfl ?_)
    rintro _ ⟨⟩
    refine tagged_store htarget hfed (hkeeps.write_pool (Nat.le_of_eq hi) _).sound hi ?_
    rw [Tagging.type_read_write_pool, htype]
    rfl

/-- What is written is of the type of the value. -/
theorem secure_write {value : Expr} (hvalue : Yields ctx value.lower value.type) :
    Secure ctx (write value) := by
  refine (plain_write value).secure fun c s hs => ?_
  refine tagged_bind (hvalue.tagged hs fun s₁ hkeeps hholds => ?_)
  refine tagged_bind (tagged_cursor (tagged_bind (tagged_register fun i hi => ?_)))
  refine tagged_bind (tagged_printValue hkeeps (hholds.read hi) fun s₂ hkeeps => ?_)
  refine tagged_bind (tagged_emit hkeeps.sound ⟨Tagging.suits_nil, trivial⟩ rfl ?_)
  rintro _ ⟨⟩
  exact tagged_callService (hkeeps.write .a0 trivial _) rfl (Tagging.suits_one (by simp))
    fun hkeeps => hkeeps.sound

/-- A call passes words of the types of the parameters. -/
theorem secure_callProcedure {name : String} {args : List Expr} {params : List ValueType}
    (hparams : ctx.symbols.params? name = some params) (hlength : args.length = params.length)
    (hargs : YieldsAll ctx (Expr.lowerArgs args params) params) :
    Secure ctx (callProcedure name args) := by
  refine (plain_callProcedure name args).secure fun c s hs => ?_
  exact tagged_bind (tagged_call hparams hlength hargs hs
    fun s' hkeeps _ => tagged_pure hkeeps.sound)

/-! ## Tests -/

/-- A comparison in a test: integers by a branch, and anything else as reals by the flag. -/
theorem secure_compareUnless {relation : Relation} {left right : Expr} {l : Label}
    (hleft : Yields ctx left.lower left.type) (hright : Yields ctx right.lower right.type) :
    Secure ctx (compareUnless relation left right l) := by
  refine (plain_compareUnless relation left right l).secure fun c s hs => ?_
  refine tagged_bind (tagged_cursor (tagged_bind (tagged_operands hleft hright hs
    fun s₁ hkeeps ha hb => ?_)))
  refine tagged_bind (tagged_register fun i hi => tagged_bind (tagged_register fun j hj => ?_))
  have hleftType := ha.read hi
  have hrightType := hb.read hj
  split
  · next hwiden =>
    obtain ⟨hleftInteger, hrightInteger⟩ := ValueType.widen_eq_integer.1 hwiden
    rw [hleftInteger] at hleftType
    rw [hrightInteger] at hrightType
    refine tagged_jump hkeeps.sound
      ⟨Tagging.suits_two hleftType hrightType, trivial⟩ ?_ hkeeps.sound
    rintro _ ⟨⟩
    rfl
  · refine tagged_bind (tagged_floatOperands hkeeps hleftType hrightType
      fun s₂ hkeeps hf0 hf1 => ?_)
    refine tagged_bind (tagged_emit hkeeps.sound ⟨Tagging.suits_two hf0 hf1, trivial⟩ rfl ?_)
    rintro _ ⟨⟩
    refine tagged_jump hkeeps.sound ⟨Tagging.suits_nil, trivial⟩ ?_ hkeeps.sound
    rintro _ ⟨⟩
    rfl

/-- A test that is a value is compared with one, as an integer. -/
theorem secure_valueUnless {test : Expr} {l : Label} (htest : Yields ctx test.lower test.type) :
    Secure ctx (valueUnless test l) := by
  refine (plain_valueUnless test l).secure fun c s hs => ?_
  refine tagged_bind (htest.tagged hs fun s₁ hkeeps hholds => ?_)
  refine tagged_bind (tagged_cursor (tagged_bind (tagged_register fun i hi => ?_)))
  refine tagged_bind (tagged_convert hkeeps (Nat.le_of_eq hi) (hholds.read hi)
    fun s₂ hkeeps htype _ => ?_)
  refine tagged_bind (tagged_emit hkeeps.sound ⟨Tagging.suits_nil, trivial⟩ rfl ?_)
  rintro _ ⟨⟩
  have hone := hkeeps.write .t8 trivial (.constant 1)
  refine tagged_jump hone.sound
    ⟨Tagging.suits_two (by simp [htype]) (by simp), trivial⟩ ?_ hone.sound
  rintro _ ⟨⟩
  rfl

theorem secure_branchUnless {test : Expr} {l : Label} (htest : test.TypedIn ctx.symbols)
    (hfed : ∀ need ∈ test.needs, need.FedIn ctx.symbols) : Secure ctx (branchUnless test l) := by
  unfold branchUnless
  split
  · obtain ⟨-, hleft, hright⟩ := htest
    rw [Expr.needs, List.forall_mem_append] at hfed
    exact secure_compareUnless (Expr.yields_lower hleft hfed.1) (Expr.yields_lower hright hfed.2)
  · exact secure_valueUnless (Expr.yields_lower htest hfed)

/-! ## Choices and loops -/

/-- A choice is secure if its test and its branches are. -/
theorem secure_branch {test : Expr} {yes no : Lower Unit}
    (htest : ∀ l, Secure ctx (branchUnless test l)) (hyes : Secure ctx yes) (hno : Secure ctx no) :
    Secure ctx (branch test yes no) := by
  have hnumber : Secure ctx nextIf :=
    ⟨fun _ _ hs _ => hs, fun _ _ => anchored_of_labelsOf_eq_nil rfl⟩
  exact hnumber.bind fun number => (htest _).bind fun _ => hyes.bind fun _ =>
    (secure_jump _).bind fun _ => (secure_label _).bind fun _ => hno.bind fun _ => secure_label _

/-- A loop is secure if its test and its body are, and nothing has to be known of the number of
rounds. -/
theorem secure_loop {test : Expr} {body : Lower Unit}
    (htest : ∀ l, Secure ctx (branchUnless test l)) (hbody : Secure ctx body) :
    Secure ctx (loop test body) := by
  have hnumber : Secure ctx nextLoop :=
    ⟨fun _ _ hs _ => hs, fun _ _ => anchored_of_labelsOf_eq_nil rfl⟩
  exact hnumber.bind fun number => (secure_label _).bind fun _ => (htest _).bind fun _ =>
    hbody.bind fun _ => (secure_jump _).bind fun _ => secure_label _

end PascalMips.Lower

namespace PascalMips

open Lower

variable {ctx : Context}

mutual

/-- Code for a well-typed statement with fed calls keeps tags sound. -/
theorem Statement.secure_lower : ∀ {st : Statement}, st.TypedIn ctx.symbols →
    (∀ need ∈ st.needs, need.FedIn ctx.symbols) → Secure ctx st.lower
  | assign .., ⟨htarget, hvalue⟩, hfed => by
    rw [lower]
    rw [needs, List.forall_mem_append] at hfed
    exact secure_assign htarget hfed.2 (Expr.yields_lower hvalue hfed.1)
  | compound _, ⟨_, hbody⟩, hfed => by
    rw [lower]
    rw [needs] at hfed
    exact secure_lowerAll hbody hfed
  | branch .., ⟨htest, hyes, hno⟩, hfed => by
    rw [lower]
    rw [needs, List.forall_mem_append, List.forall_mem_append] at hfed
    exact secure_branch (fun _ => secure_branchUnless htest hfed.1) (secure_lower hyes hfed.2.1)
      (secure_lower hno hfed.2.2)
  | loop .., ⟨htest, hbody⟩, hfed => by
    rw [lower]
    rw [needs, List.forall_mem_append] at hfed
    exact secure_loop (fun _ => secure_branchUnless htest hfed.1) (secure_lower hbody hfed.2)
  | call .., hargs, hfed => by
    rw [lower]
    rw [needs, List.forall_mem_cons] at hfed
    obtain ⟨params, hparams, hlength⟩ := Option.map_eq_some_iff.1 hfed.1
    exact secure_callProcedure hparams hlength.symm
      (Expr.yieldsAll_lowerArgs hargs hfed.2 hlength.symm)
  | read _, htarget, hfed => by
    rw [lower]
    rw [needs] at hfed
    exact secure_read htarget hfed
  | write _, hvalue, hfed => by
    rw [lower]
    rw [needs] at hfed
    exact secure_write (Expr.yields_lower hvalue hfed)

/-- Well-typed statements one after the other are secure. -/
theorem Statement.secure_lowerAll : ∀ {sts : List Statement}, AllOf (IsTypedIn ctx.symbols) sts →
    (∀ need ∈ needsAll sts, need.FedIn ctx.symbols) → Secure ctx (lowerAll sts)
  | [], _, _ => by
    rw [lowerAll]
    exact secure_pure ()
  | _ :: _, ⟨hst, hsts⟩, hfed => by
    rw [lowerAll]
    rw [needsAll, List.forall_mem_append] at hfed
    exact (secure_lower hst hfed.1).bind fun _ => secure_lowerAll hsts hfed.2

end

end PascalMips
