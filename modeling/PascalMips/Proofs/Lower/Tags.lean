import PascalMips.Proofs.Lower.Cursor
import PascalMips.Proofs.Lower.Labels
import PascalMips.Proofs.Machine.Tags
import PascalMips.Proofs.Symbol.Scopes

/-!
# Tags and lowering

What the names of a context declare (`Context.signature`), and how pieces of lowered code are put
together that lead from tags to tags (`Lower.Tagged`). A piece of code keeps the tags of the pool
below some register (`Tagging.Keeps`) and leaves a word of some type in a register of the pool
(`Tagging.Holds`).
-/

namespace PascalMips

/-! ## Declarations -/

/-- The type of what a visible name stands for. -/
def SymbolTable.type? (t : SymbolTable) (name : String) : Option ValueType :=
  (t.lookup? name).bind (·.binding.type?)

/-- The types of the parameters of a visible subprogram. -/
def SymbolTable.params? (t : SymbolTable) (name : String) : Option (List ValueType) :=
  (t.lookup? name).bind (·.binding.params?)

/-- What a context declares: the types of all symbols that have a place, hidden or not, and the
subprograms that are visible. -/
def Context.signature (ctx : Context) : Signature where
  slot place type := ∃ scope ∈ ctx.symbols.scopes, ∃ symbol ∈ scope,
    ctx.storage.get? symbol.id = some place ∧ symbol.binding.type? = some type
  routine label params result := ∃ name depth symbol,
    ctx.symbols.lookupWithDepth? name = some (depth, symbol) ∧
      label = Lower.routineLabel ctx.path depth name ∧ symbol.binding.params? = some params ∧
        result = symbol.binding.type?

/-- The place of a name has the type of the name. -/
theorem Context.slot_of_place {ctx : Context} {name : String} {place : Storage × Option Bounds}
    {type : ValueType} (hplace : ctx.place? name = some place)
    (htype : ctx.symbols.type? name = some type) : ctx.signature.slot place.1 type := by
  obtain ⟨symbol, hlookup, hsymbol⟩ := Option.bind_eq_some_iff.1 htype
  obtain ⟨_, hfind⟩ := SymbolTable.lookup?_eq_some hlookup
  obtain ⟨scope, hscope, hfound⟩ := SymbolTable.mem_of_findIn hfind
  simp only [place?, hlookup, Option.bind_some, Option.map_eq_some_iff] at hplace
  obtain ⟨storage, hstorage, rfl⟩ := hplace
  exact ⟨scope, hscope, symbol, Scope.mem_of_lookup? hfound, hstorage, hsymbol⟩

/-! ## The pool -/

/-- The register may be written while the registers of the pool below `n` are in use. -/
def Reg.FreeAt (n : Nat) : Reg → Prop
  | s i => n ≤ i.val
  | sp => False
  | _ => True

namespace Tagging

/-- The tags are sound, and those in the pool below register `n` are as before. -/
structure Keeps (sig : Signature) (n : Nat) (s s' : Tagging) : Prop where
  sound : s'.Sound sig
  below : ∀ i : Fin 8, i.val < n → s'.read (.s i) = s.read (.s i)

/-- Register `n` of the pool holds a word of the type. -/
def Holds (s : Tagging) (n : Nat) (type : ValueType) : Prop :=
  ∃ i : Fin 8, n = i.val ∧ (s.read (.s i)).type = type

/-- The registers of the pool from `n` on hold words of the types. -/
def HoldsAll (s : Tagging) : Nat → List ValueType → Prop
  | _, [] => True
  | n, type :: types => s.Holds n type ∧ s.HoldsAll (n + 1) types

variable {sig : Signature} {s s' s'' : Tagging} {n m : Nat} {type : ValueType}

theorem Keeps.refl (h : s.Sound sig) (n : Nat) : s.Keeps sig n s := ⟨h, fun _ _ => rfl⟩

/-- Keeping some registers, and then at least those, keeps them. -/
theorem Keeps.trans (h : s.Keeps sig n s') (h' : s'.Keeps sig m s'') (hle : n ≤ m) :
    s.Keeps sig n s'' :=
  ⟨h'.sound, fun i hi => (h'.below i (by omega)).trans (h.below i hi)⟩

theorem Keeps.mono (h : s.Keeps sig n s') (hle : m ≤ n) : s.Keeps sig m s' :=
  ⟨h.sound, fun i hi => h.below i (by omega)⟩

/-- A register that is free may be written. -/
theorem Keeps.write (h : s.Keeps sig n s') (r : Reg) (hr : r.FreeAt n) (t : Tag) :
    s.Keeps sig n (s'.write r t) := by
  refine ⟨h.sound.write ?_ t, fun i hi => ?_⟩
  · rintro rfl
    exact hr
  · rw [read_write_of_ne, h.below i hi]
    rintro rfl
    exact absurd hr (by simp only [Reg.FreeAt]; omega)

theorem Keeps.write_pool (h : s.Keeps sig n s') {i : Fin 8} (hi : n ≤ i.val) (t : Tag) :
    s.Keeps sig n (s'.write (.s i) t) :=
  h.write (.s i) hi t

theorem Keeps.writeFloat (h : s.Keeps sig n s') (f : FReg) (t : ValueType) :
    s.Keeps sig n (s'.writeFloat f t) :=
  ⟨h.sound.writeFloat f t, h.below⟩

/-- A call keeps the whole pool. -/
theorem Keeps.calls (h : s.Keeps sig n s') {label : Label} (hcalls : sig.Calls label s' s'') :
    s.Keeps sig n s'' where
  sound := ⟨fun place type hslot => hcalls.holds place type hslot (h.sound.holds place type hslot),
    hcalls.sp.trans h.sound.stack⟩
  below i hi := (hcalls.pool i).trans (h.below i hi)

/-- A service changes no register of the pool. -/
theorem Keeps.serve (h : s.Keeps sig n s') (code : Int) : s.Keeps sig n (s'.serve code) := by
  unfold Tagging.serve
  split
  · exact h.write .v0 trivial _
  · exact h.writeFloat .f0 _
  · exact h

theorem Holds.of_keeps (h : s.Holds n type) (hkeeps : s.Keeps sig m s') (hlt : n < m) :
    s'.Holds n type := by
  obtain ⟨i, rfl, htype⟩ := h
  exact ⟨i, rfl, (congrArg Tag.type (hkeeps.below i hlt)).trans htype⟩

/-- So do all registers of a row if the whole pool is kept. -/
theorem HoldsAll.of_keeps {types : List ValueType} (h : s.HoldsAll n types)
    (hpool : ∀ i, s'.read (.s i) = s.read (.s i)) : s'.HoldsAll n types := by
  induction types generalizing n with
  | nil => trivial
  | cons type types ih =>
    obtain ⟨⟨i, hi, htype⟩, hrest⟩ := h
    exact ⟨⟨i, hi, by rw [hpool, htype]⟩, ih hrest⟩

theorem Holds.read (h : s.Holds n type) {i : Fin 8} (hi : n = i.val) :
    (s.read (.s i)).type = type := by
  obtain ⟨j, hj, htype⟩ := h
  have hij : i = j := Fin.ext (by omega)
  rw [hij, htype]

theorem type_read_write_pool (i : Fin 8) (t : Tag) :
    ((s.write (.s i) t).read (.s i)).type = t.type :=
  congrArg Tag.type (read_write_self t nofun)

/-- A value for register `n` of the pool. -/
theorem Keeps.result (h : s.Keeps sig n s') {i : Fin 8} (hi : n = i.val) (t : Tag) :
    s.Keeps sig n (s'.write (.s i) t) ∧ (s'.write (.s i) t).Holds n t.type :=
  ⟨h.write_pool (Nat.le_of_eq hi) t, i, hi, type_read_write_pool i t⟩

end Tagging

/-! ## Code that leads from tags to tags -/

namespace Lower

variable {α β : Type} {ctx : Context} {c : Counters} {s s₀ : Tagging}

/-- If it is lowered without a diagnostic, the code leads from `s` to tags for which `Q` holds, with
its value and the counters after it. -/
def Tagged (x : Lower α) (ctx : Context) (c : Counters) (Q : α → Counters → Tagging → Prop)
    (s : Tagging) : Prop :=
  Clean (x ctx c).lines →
    Leads ctx.signature (Q (x ctx c).value (x ctx c).counters) (x ctx c).lines s

theorem Tagged.mono {x : Lower α} {Q R : α → Counters → Tagging → Prop} (h : Tagged x ctx c Q s)
    (hQR : ∀ a c' s', Q a c' s' → R a c' s') : Tagged x ctx c R s :=
  fun hclean => (h hclean).mono fun s' => hQR _ _ s'

theorem tagged_pure {a : α} {Q : α → Counters → Tagging → Prop} (h : Q a c s) :
    Tagged (pure a) ctx c Q s :=
  fun _ => h

/-- One piece of code after the other: the first leads to tags from which the second leads on. -/
theorem tagged_bind {x : Lower α} {f : α → Lower β} {Q : β → Counters → Tagging → Prop}
    (h : Tagged x ctx c (fun a c' s' => Tagged (f a) ctx c' Q s') s) :
    Tagged (x >>= f) ctx c Q s := by
  intro hclean
  rw [bind_apply] at hclean ⊢
  obtain ⟨hfirst, hsecond⟩ := clean_append.1 hclean
  exact leads_append.2 ((h hfirst).mono fun s' hs' => hs' hsecond)

theorem tagged_cursor {Q : Nat → Counters → Tagging → Prop} (h : Q c.cursor c s) :
    Tagged cursor ctx c Q s :=
  fun _ => h

theorem tagged_take {count : Nat} {Q : Unit → Counters → Tagging → Prop}
    (h : Q () (c.take count) s) : Tagged (take count) ctx c Q s :=
  fun _ => h

theorem tagged_release {count : Nat} {Q : Unit → Counters → Tagging → Prop}
    (h : Q () (c.release count) s) : Tagged (release count) ctx c Q s :=
  fun _ => h

/-- Without a mark, the register is one of the pool. -/
theorem tagged_register {index : Nat} {Q : Reg → Counters → Tagging → Prop}
    (h : ∀ i : Fin 8, index = i.val → Q (.s i) c s) : Tagged (register index) ctx c Q s := by
  intro hclean
  obtain ⟨i, hi⟩ := fin_of_clean_register hclean
  rw [register_of_eq hi]
  exact h i hi

/-- Without a mark, the name has a place. -/
theorem tagged_locate {name : String}
    {Q : Option (Storage × Option Bounds) → Counters → Tagging → Prop}
    (h : ∀ place, ctx.place? name = some place → Q (some place) c s) :
    Tagged (locate name) ctx c Q s := by
  intro hclean
  obtain ⟨place, hplace⟩ := place_of_clean_locate hclean
  rw [locate_of_place hplace]
  exact h place hplace

/-- A subprogram that is visible is found with its label and its parameters. -/
theorem tagged_routine? {name : String} {depth : Nat} {symbol : Symbol} {params : List ValueType}
    {Q : Option (Label × List ValueType) → Counters → Tagging → Prop}
    (hfind : ctx.symbols.lookupWithDepth? name = some (depth, symbol))
    (hparams : symbol.binding.params? = some params)
    (h : Q (some (routineLabel ctx.path depth name, params)) c s) :
    Tagged (routine? name) ctx c Q s := by
  have hroutine :
      routine? name ctx c = ⟨some (routineLabel ctx.path depth name, params), c, []⟩ := by
    simp only [routine?, hfind, Option.map_some, hparams, Option.getD_some]
  rw [Tagged, hroutine]
  exact fun _ => h

theorem tagged_diagnose {d : Diagnostic} {Q : Unit → Counters → Tagging → Prop} :
    Tagged (diagnose d) ctx c Q s :=
  fun hclean => absurd hclean not_clean_mark_cons

/-- One instruction leads on if it fits the tags and whatever it makes of them does. -/
theorem tagged_emit {i : Instr} {Q : Unit → Counters → Tagging → Prop}
    (hs : s.Sound ctx.signature) (hfits : i.Fits ctx.signature s) (hjump : i.jump? = none)
    (h : ∀ s', i.Steps ctx.signature s s' → Q () c s') : Tagged (emit i) ctx c Q s := by
  refine fun _ => ⟨hs, hfits, fun s' hs' => ⟨fun hjumps => ?_, fun _ => h s' hs'⟩⟩
  rw [hjump] at hjumps
  cases hjumps

/-- An instruction that may jump and changes no tag. -/
theorem tagged_jump {i : Instr} {Q : Unit → Counters → Tagging → Prop}
    (hs : s.Sound ctx.signature) (hfits : i.Fits ctx.signature s)
    (hsteps : ∀ s', i.Steps ctx.signature s s' → s' = s) (h : Q () c s) :
    Tagged (emit i) ctx c Q s := by
  refine fun _ => ⟨hs, hfits, fun s' hs' => ?_⟩
  rw [hsteps s' hs']
  exact ⟨fun _ => hs, fun _ => h⟩

/-- A load from a place gives a word of the declared type. -/
theorem tagged_load {r : Reg} {address : Address} {place : Storage} {type : ValueType}
    {Q : Unit → Counters → Tagging → Prop} (hs : s.Sound ctx.signature)
    (hplace : s.place? address = some place) (hslot : ctx.signature.slot place type)
    (h : Q () c (s.write r (.ofType type))) : Tagged (emit (.lw r address)) ctx c Q s := by
  refine tagged_emit hs ⟨Tagging.suits_address hplace, place, type, hplace, hslot⟩ rfl ?_
  rintro _ ⟨⟩
  next place' number hplace' =>
  cases hplace.symm.trans hplace'
  rw [hs.holds place type hslot]
  exact h

/-- A store of a word of the declared type keeps the tags sound. -/
theorem tagged_save {r : Reg} {address : Address} {place : Storage} {type : ValueType}
    {Q : Unit → Counters → Tagging → Prop} (hs : s.Sound ctx.signature)
    (hplace : s.place? address = some place) (hslot : ctx.signature.slot place type)
    (htype : (s.read r).type = type) (h : ∀ number, Q () c (s.store place number type)) :
    Tagged (emit (.sw r address)) ctx c Q s := by
  refine tagged_emit hs ⟨Tagging.suits_address hplace, place, hplace, htype ▸ hslot⟩ rfl ?_
  rintro _ ⟨⟩
  next place' number hplace' =>
  cases hplace.symm.trans hplace'
  rw [htype]
  exact h number

/-! ## Conversions -/

section

variable {n : Nat} {Q : Unit → Counters → Tagging → Prop}

/-- An operation on one value in the floating point unit. -/
theorem tagged_throughFloat {op : Instr} {i j : Fin 8} {a b : ValueType}
    (hkeeps : s₀.Keeps ctx.signature n s) (hi : n ≤ i.val) (htype : (s.read (.s j)).type = a)
    (hfits : ∀ s : Tagging, s.fregs .f0 = a → op.Fits ctx.signature s) (hjump : op.jump? = none)
    (hsteps : ∀ s s', op.Steps ctx.signature s s' → s' = s.writeFloat .f0 b)
    (h : ∀ s', s₀.Keeps ctx.signature n s' → (s'.read (.s i)).type = b →
      (∀ r, r ≠ .s i → s'.read r = s.read r) → Q () c s') :
    Tagged (do emit (.mtc1 (.s j) .f0); emit op; emit (.mfc1 (.s i) .f0)) ctx c Q s := by
  refine tagged_bind (tagged_emit hkeeps.sound ⟨Tagging.suits_nil, trivial⟩ rfl ?_)
  rintro _ ⟨⟩
  have hmoved := hkeeps.writeFloat .f0 (s.read (.s j)).type
  have hoperand := (s.fregs_writeFloat_self .f0 _).trans htype
  refine tagged_bind (tagged_emit hmoved.sound (hfits _ hoperand) hjump ?_)
  intro s₁ hs₁
  rw [hsteps _ _ hs₁]
  have hcomputed := hmoved.writeFloat .f0 b
  refine tagged_emit hcomputed.sound ⟨Tagging.suits_nil, trivial⟩ rfl ?_
  rintro _ ⟨⟩
  rw [Tagging.fregs_writeFloat_self]
  refine h _ (hcomputed.write_pool hi _) ?_ fun r hr => ?_
  · rw [Tagging.type_read_write_pool, Tag.type_ofType]
  · rw [Tagging.read_write_of_ne _ hr, Tagging.read_writeFloat, Tagging.read_writeFloat]

/-- A conversion changes the type of one register of the pool and leaves the others alone. -/
theorem tagged_convert {i : Fin 8} {a b : ValueType} (hkeeps : s₀.Keeps ctx.signature n s)
    (hi : n ≤ i.val) (htype : (s.read (.s i)).type = a)
    (h : ∀ s', s₀.Keeps ctx.signature n s' → (s'.read (.s i)).type = b →
      (∀ r, r ≠ .s i → s'.read r = s.read r) → Q () c s') :
    Tagged (convert (.s i) a b) ctx c Q s := by
  cases a <;> cases b
  case integer.integer => exact tagged_pure (h s hkeeps htype fun _ _ => rfl)
  case real.real => exact tagged_pure (h s hkeeps htype fun _ _ => rfl)
  case integer.real =>
    refine tagged_throughFloat hkeeps hi htype
      (fun _ hf => ⟨Tagging.suits_one hf, trivial⟩) rfl ?_ h
    rintro _ _ ⟨⟩
    rfl
  case real.integer =>
    refine tagged_throughFloat hkeeps hi htype
      (fun _ hf => ⟨Tagging.suits_one hf, trivial⟩) rfl ?_ h
    rintro _ _ ⟨⟩
    rfl

/-- An operand comes to the floating-point unit as a real: moved, or converted if it is an integer.
-/
theorem tagged_floatOperand {r : Reg} {f : FReg} {a : ValueType}
    (hkeeps : s₀.Keeps ctx.signature n s) (htype : (s.read r).type = a)
    (h : s₀.Keeps ctx.signature n (s.writeFloat f .real) → Q () c (s.writeFloat f .real)) :
    Tagged (floatOperand r a f) ctx c Q s := by
  refine tagged_bind (tagged_emit hkeeps.sound ⟨Tagging.suits_nil, trivial⟩ rfl ?_)
  rintro _ ⟨⟩
  rw [htype]
  cases a with
  | real => exact tagged_pure (h (hkeeps.writeFloat f .real))
  | integer =>
    refine tagged_emit (hkeeps.writeFloat f .integer).sound
      ⟨Tagging.suits_one (Tagging.fregs_writeFloat_self ..), trivial⟩ rfl ?_
    rintro _ ⟨⟩
    rw [Tagging.writeFloat_writeFloat]
    exact h (hkeeps.writeFloat f .real)

/-- Both operands come to the floating-point unit as reals. -/
theorem tagged_floatOperands {r r' : Reg} {a b : ValueType} (hkeeps : s₀.Keeps ctx.signature n s)
    (ha : (s.read r).type = a) (hb : (s.read r').type = b)
    (h : ∀ s', s₀.Keeps ctx.signature n s' → s'.fregs .f0 = .real → s'.fregs .f1 = .real →
      Q () c s') : Tagged (floatOperands r a r' b) ctx c Q s := by
  refine tagged_bind (tagged_floatOperand hkeeps ha fun hfirst => ?_)
  refine tagged_floatOperand hfirst (by rw [Tagging.read_writeFloat, hb]) fun hboth => ?_
  refine h _ hboth ?_ (Tagging.fregs_writeFloat_self ..)
  exact (Tagging.fregs_writeFloat_of_ne _ (by decide)).trans (Tagging.fregs_writeFloat_self ..)

end

end Lower

end PascalMips
