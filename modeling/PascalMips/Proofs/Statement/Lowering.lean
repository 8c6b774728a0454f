import PascalMips.Proofs.Expr.Lowering
import PascalMips.Proofs.Lower.Labels
import PascalMips.Proofs.Statement.Execution

/-!
# Code of integer statements

`Follows p ctx x s s' o`: wherever the machine stands for the state `s`, the code that `x` gives
goes from its first line to the line after its last, to a machine that stands for `s'`, and prints
`o`. Tests become branches on their opposite, taken exactly if the test does not hold; the rest is
an induction over executions (`follows_lower`), in which a loop that goes on is its own code once
more.
-/

namespace PascalMips

/-- The machine stands for a state: its memory holds the store, no two cells share an address, and
it has the same input to read. -/
structure Context.Represents (ctx : Context) (p : Image) (s : State) (m : Machine) : Prop where
  holds : ctx.Holds p s.store m
  apart : ∀ x y a, ctx.address? p m x = some a → ctx.address? p m y = some a → x = y
  input : m.input = s.input

/-- A machine that has read of its input, and changed neither memory nor the stack pointer, stands
for the state with that input. -/
theorem Context.Represents.consume {ctx : Context} {p : Image} {s : State} {m m' : Machine}
    {input : List Word} (h : ctx.Represents p s m) (hsp : m'.read .sp = m.read .sp)
    (hmem : m'.memory = m.memory) (hin : m'.input = input) :
    ctx.Represents p ⟨s.store, input⟩ m' where
  holds := h.holds.congr hsp hmem
  apart x y a hx hy := by
    rw [ctx.address?_congr hsp] at hx hy
    exact h.apart x y a hx hy
  input := hin

theorem Context.Represents.congr {ctx : Context} {p : Image} {s : State} {m m' : Machine}
    (h : ctx.Represents p s m) (hsp : m'.read .sp = m.read .sp) (hmem : m'.memory = m.memory)
    (hin : m'.input = m.input) : ctx.Represents p s m' :=
  h.consume hsp hmem (hin.trans h.input)

/-- Storing to the address of a cell changes that cell only. -/
theorem Context.Represents.update {ctx : Context} {p : Image} {s : State} {m : Machine}
    {cell : Cell} {a : Int} (h : ctx.Represents p s m) (ha : ctx.address? p m cell = some a)
    (v : Word) :
    ∃ m', m.store (BitVec.ofInt 32 a) v = some m' ∧
      ctx.Represents p { s with store := Function.update s.store cell v } m' ∧
      m'.output = m.output ∧ m'.read .sp = m.read .sp := by
  refine ⟨_, if_pos (h.holds.accessible ha), ⟨?_, h.apart, h.input⟩, rfl, rfl⟩
  refine ⟨fun name storage bounds? hplace => (h.holds.fits _ _ _ hplace).congr rfl,
    h.holds.inRange, ?_⟩
  intro x b hb
  by_cases hx : x = cell
  · subst hx
    cases ha.symm.trans hb
    simp
  · have hne : BitVec.ofInt 32 b ≠ BitVec.ofInt 32 a := by
      intro heq
      have ha' := h.holds.address_bounds ha
      have hb' := h.holds.address_bounds hb
      have hab := congrArg BitVec.toInt heq
      rw [toInt_ofInt ⟨by omega, by omega⟩, toInt_ofInt ⟨by omega, by omega⟩] at hab
      exact hx (h.apart x cell a (hab ▸ hb) ha)
    simp only [Function.update_of_ne hx, Function.update_of_ne hne]
    exact h.holds.value x b hb

namespace Lower

variable {p : Image} {ctx : Context} {s s' : State} {o : String} {toWord : Single → Word}

/-! ## Tests -/

/-- The opposite of a comparison holds exactly if the comparison does not. -/
theorem holds_negate (relation : Relation) (a b : Int) :
    relation.negate.holds a b = !relation.holds a b := by
  cases relation <;>
    simp only [Relation.negate, Relation.holds, ← decide_not, decide_eq_decide] <;> omega

/-- A branch after straight-line code. -/
theorem reaches_branch {xs : List Line} {relation : Relation} {r₁ r₂ : Reg} {l : Label}
    {m m' : Machine} {pc target : Nat} (hrun : p.Executes xs m m')
    (hl : p.find? l = some target) (hp : p.Has pc (xs ++ [.instr (.branch relation r₁ r₂ l)])) :
    p.Reaches (pc, m) (if relation.holds (m'.read r₁).toInt (m'.read r₂).toInt then target
      else pc + (xs ++ [Line.instr (.branch relation r₁ r₂ l)]).length, m') := by
  refine (hrun pc hp.left).trans (Image.reaches_instr hp.right rfl ?_)
  split <;> simp [Image.follow, hl, Nat.add_assoc]

/-- A comparison of integers goes to the next line if it holds, and to the label if not. The branch
that is written tests the opposite. -/
theorem reaches_compareUnless {relation : Relation} {left right : Expr} {σ : Store} {a b : Word}
    {l : Label} {target pc : Nat} {c : Counters} {m : Machine}
    (htypes : left.type.widen right.type = .integer) (ha : Delivers p ctx σ left.lower a)
    (hb : Delivers p ctx σ right.lower b) (hm : ctx.Holds p σ m)
    (hclean : Clean (compareUnless relation left right l ctx c).lines)
    (hl : p.find? l = some target)
    (hp : p.Has pc (compareUnless relation left right l ctx c).lines) :
    ∃ m', p.Reaches (pc, m) (if relation.holds a.toInt b.toInt then
        pc + (compareUnless relation left right l ctx c).lines.length else target, m') ∧
      m.Keeps 0 m' := by
  simp only [compareUnless, bind_apply, cursor_apply, clean_append, htypes] at hclean
  obtain ⟨hcount, i, j, hi, hj, m', hrun, hreadi, hreadj, hkeep⟩ :=
    executes_operands ha hb hm hclean.2.1
  have hlower : (compareUnless relation left right l ctx c).lines =
      (operands left.lower right.lower ctx c).lines ++
        [.instr (.branch relation.negate (.s i) (.s j) l)] := by
    simp [compareUnless, bind_apply, hcount, register_of_eq hi, register_of_eq hj, htypes]
  rw [hlower] at hp ⊢
  have h := reaches_branch hrun hl hp
  rw [hreadi, hreadj, holds_negate] at h
  refine ⟨m', ?_, hkeep.mono (Nat.zero_le _)⟩
  cases hholds : relation.holds a.toInt b.toInt <;> simpa [hholds] using h

/-- A test that is a value goes to the next line if it is one, and to the label if not. -/
theorem reaches_valueUnless {test : Expr} {σ : Store} {v : Word} {l : Label} {target pc : Nat}
    {c : Counters} {m : Machine} (htype : test.type = .integer)
    (hv : Delivers p ctx σ test.lower v) (hm : ctx.Holds p σ m)
    (hclean : Clean (valueUnless test l ctx c).lines) (hl : p.find? l = some target)
    (hp : p.Has pc (valueUnless test l ctx c).lines) :
    ∃ m', p.Reaches (pc, m)
        (if v = 1 then pc + (valueUnless test l ctx c).lines.length else target, m') ∧
      m.Keeps 0 m' := by
  simp only [valueUnless, bind_apply, clean_append] at hclean
  obtain ⟨hcount, n, hn, m₁, hrun, hread, hkeep⟩ := hv c m hm hclean.1
  have hlower : (valueUnless test l ctx c).lines =
      ((test.lower ctx c).lines ++ [.instr (.li .t8 1)]) ++
        [.instr (.branch .ne (.s n) .t8 l)] := by
    simp [valueUnless, bind_apply, hcount, register_of_eq hn, htype, convert, pure_apply]
  rw [hlower] at hp ⊢
  have hload : p.Executes [.instr (.li .t8 1)] m₁ (m₁.write .t8 1) :=
    Image.Executes.instr fun _ => rfl
  have h := reaches_branch (hrun.append hload) hl hp
  have hread₁ : (m₁.write .t8 1).read (.s n) = v := by simpa [Machine.read_write] using hread
  have hread₂ : (m₁.write .t8 1).read .t8 = 1 := by simp [Machine.read_write]
  have hne : Relation.ne.holds v.toInt (1 : Word).toInt = !decide (v = 1) := by
    rw [← decide_not]
    exact decide_eq_decide.2 (not_congr BitVec.toInt_inj)
  rw [hread₁, hread₂, hne] at h
  refine ⟨m₁.write .t8 1, ?_, (hkeep.mono (Nat.zero_le _)).trans (.write rfl _ _)⟩
  by_cases hv1 : v = 1 <;> simpa [hv1] using h

/-- A test goes on to the next line if its value is one, and else to the label. -/
theorem reaches_branchUnless {test : Expr} {σ : Store} {v : Word} {l : Label} {target pc : Nat}
    {c : Counters} {m : Machine} (hi : test.Integral) (ht : test.WellTyped ctx.symbols)
    (hv : test.eval (σ.env ctx.symbols toWord) = some v) (hm : ctx.Holds p σ m)
    (hclean : Clean (branchUnless test l ctx c).lines) (hl : p.find? l = some target)
    (hp : p.Has pc (branchUnless test l ctx c).lines) :
    ∃ m', p.Reaches (pc, m)
        (if v = 1 then pc + (branchUnless test l ctx c).lines.length else target, m') ∧
      m.Keeps 0 m' := by
  by_cases hrel : ∃ relation left right type, test = .binary (.rel relation) left right type
  · obtain ⟨relation, left, right, type, rfl⟩ := hrel
    rw [Expr.eval] at hv
    simp only [Option.bind_eq_bind, Option.bind_eq_some_iff] at hv
    obtain ⟨a, ha, b, hb, hv⟩ := hv
    have htypes : left.type.widen right.type = .integer := by
      rw [hi.2.1.self.1, hi.2.2.self.1]
      rfl
    obtain ⟨m', hrun, hkeep⟩ := reaches_compareUnless htypes
      (Expr.delivers_lower hi.2.1 ht.2.1 ha) (Expr.delivers_lower hi.2.2 ht.2.2 hb) hm hclean hl hp
    refine ⟨m', ?_, hkeep⟩
    have hone : v = 1 ↔ relation.holds a.toInt b.toInt = true := by
      simp only [BinaryOp.value, BinaryOp.compareWords, htypes, Option.some.injEq] at hv
      rw [← hv]
      cases relation.holds a.toInt b.toInt <;> decide
    simp only [hone]
    exact hrun
  · have hvalue : branchUnless test l = valueUnless test l := by
      unfold branchUnless
      split
      · exact absurd ⟨_, _, _, _, rfl⟩ hrel
      · rfl
    rw [hvalue] at hclean hp ⊢
    exact reaches_valueUnless hi.self.1 (Expr.delivers_lower hi ht hv) hm hclean hl hp

/-! ## Stores, input and output -/

/-- Storing a word changes the cell that the place stands for and no other. The two cases are a
variable, at its own address, and an element, whose index is evaluated above the value. -/
theorem executes_store {target : Target} {n : Fin 8} {v : Word} {cell : Cell} {c : Counters}
    {m : Machine} (hi : target.Integral) (ht : target.WellTyped ctx.symbols)
    (hcell : target.cell? (s.store.env ctx.symbols toWord) = some cell)
    (hm : ctx.Represents p s m) (hn : c.cursor = n.val) (hread : m.read (.s n) = v)
    (hclean : Clean (store target (.s n) ctx c).lines) :
    ∃ m', p.Executes (store target (.s n) ctx c).lines m m' ∧
      ctx.Represents p { s with store := Function.update s.store cell v } m' ∧
      m'.output = m.output ∧ m'.read .sp = m.read .sp := by
  cases target with
  | var name type =>
    obtain ⟨symbol, hs, hb⟩ := ht
    cases hcell
    simp only [store, bind_apply, clean_append] at hclean
    obtain ⟨⟨storage, bounds?⟩, hplace⟩ := place_of_clean_locate hclean.1
    obtain rfl : bounds? = none := by
      refine (ctx.bounds_of_place hs hplace).trans ?_
      obtain hb | ⟨_, hb⟩ := hb <;> rw [hb] <;> rfl
    have hlower : (store (.var name type) (.s n) ctx c).lines =
        [.instr (.sw (.s n) storage.address)] := by
      simp [store, bind_apply, locate_of_place hplace]
    have haddr : ctx.address? p m (.var name) = some (storage.base p m) := by
      simp [Context.address?, hplace]
    obtain ⟨m', hstore, hrest⟩ := hm.update haddr v
    rw [hlower]
    refine ⟨m', Image.Executes.instr fun _ => ?_, hrest⟩
    simp [Instr.exec, effective_address, hread, hstore]
  | element name type index =>
    obtain ⟨hindex, hindexT⟩ : _ ∧ index.Integral := hi
    have htype : index.type = .integer := hindexT.self.1
    simp only [Target.cell?, htype, ValueType.toInteger, Option.bind_eq_bind,
      Option.bind_eq_some_iff, Option.pure_def, Option.some.injEq] at hcell
    obtain ⟨i, hv, w, hw, rfl⟩ := hcell
    obtain ⟨symbol, bounds, hs, hb, hlo, hhi, -⟩ := Expr.element_of_env hw
    simp only [store, bind_apply, clean_append, htype] at hclean
    obtain ⟨hcount, hvalue, a, m₁, haddr, hrun, hread₉, hkeep⟩ := executes_elementAddress hs hb
      (Expr.delivers_lower hindexT ht.2 hv) hlo hhi hm.holds hclean.1
    have hlower : (store (.element name type index) (.s n) ctx c).lines =
        (elementAddress name .integer index.lower ctx c).lines ++
          [.instr (.sw (.s n) (.offset 0 .t9))] := by
      simp [store, bind_apply, htype, hvalue]
    obtain ⟨m', hstore, hrep, hout, hsp⟩ := (hm.congr hkeep.sp hkeep.memory hkeep.input).update
      (by rw [ctx.address?_congr hkeep.sp, haddr]) v
    have hread₁ : m₁.read (.s n) = v := by rw [hkeep.pool (by omega), hread]
    rw [hlower]
    refine ⟨m', hrun.append (Image.Executes.instr fun _ => ?_), hrep, hout.trans hkeep.output,
      hsp.trans hkeep.sp⟩
    simp [Instr.exec, Machine.effective, hread₉, hread₁, hstore]

/-- The code of `x` goes to its end, from a machine that stands for `s` to one that stands for `s'`,
and prints `o`. -/
def Follows (p : Image) (ctx : Context) (x : Lower Unit) (s s' : State) (o : String) : Prop :=
  ∀ (c : Counters) (m : Machine) (pc : Nat), ctx.Represents p s m → Clean (x ctx c).lines →
    p.Linked pc (x ctx c).lines →
    ∃ m', p.Reaches (pc, m) (pc + (x ctx c).lines.length, m') ∧ ctx.Represents p s' m' ∧
      m'.output = m.output ++ o ∧ m'.read .sp = m.read .sp

theorem type_eq_integer {target : Target} (h : target.Integral) : target.type = .integer := by
  cases target with
  | var => exact h
  | element => exact h.1

/-- An assignment evaluates the value, then the index of its place, then stores. -/
theorem follows_assign {target : Target} {value : Expr} {v : Word} {cell : Cell}
    (hi : target.Integral ∧ value.Integral)
    (ht : target.WellTyped ctx.symbols ∧ value.WellTyped ctx.symbols)
    (hv : value.eval (s.store.env ctx.symbols toWord) = some v)
    (hcell : target.cell? (s.store.env ctx.symbols toWord) = some cell) :
    Follows p ctx (assign target value) s
      { s with store := Function.update s.store cell v } "" := by
  intro c m pc hm hclean hp
  have hvalue : Clean (value.lower ctx c).lines := by
    simp only [assign, bind_apply, clean_append] at hclean
    exact hclean.1
  obtain ⟨hcount, n, hn, m₁, hrun₁, hread, hkeep⟩ :=
    Expr.delivers_lower hi.2 ht.2 hv c m hm.holds hvalue
  have hlower : (assign target value ctx c).lines =
      (value.lower ctx c).lines ++ (store target (.s n) ctx c).lines := by
    simp [assign, bind_apply, hcount, register_of_eq hn, hi.2.self.1, type_eq_integer hi.1, convert,
      pure_apply]
  rw [hlower, clean_append] at hclean
  rw [hlower] at hp ⊢
  obtain ⟨m', hrun, hrep, hout, hsp⟩ := executes_store hi.1 ht.1 hcell
    (hm.congr hkeep.sp hkeep.memory hkeep.input) hn hread hclean.2
  refine ⟨m', (hrun₁.append hrun) pc hp.has, hrep, ?_, hsp.trans hkeep.sp⟩
  rw [hout, hkeep.output, String.append_empty]

section Services

variable {m : Machine}

/-- Reading takes one word off the input. -/
theorem executes_readInteger {w : Word} {rest : List Word} (h : m.input = w :: rest) :
    p.Executes [.instr (.li .v0 5), .instr .syscall] m
      { (m.write .v0 5).write .v0 w with input := rest } := by
  refine Image.Executes.cons (fun _ => rfl) (Image.Executes.instr fun _ => ?_)
  have hv0 : (m.write .v0 (BitVec.ofInt 32 5)).read .v0 = 5 := by simp [Machine.read_write]
  simp only [Instr.exec, Machine.service, hv0, Machine.input_write, h]
  rfl

theorem executes_printInteger :
    p.Executes [.instr (.li .v0 1), .instr .syscall] m
      { m.write .v0 1 with output := m.output ++ toString (m.read .a0).toInt } := by
  refine Image.Executes.cons (fun _ => rfl) (Image.Executes.instr fun _ => ?_)
  have hv0 : (m.write .v0 (BitVec.ofInt 32 1)).read .v0 = 1 := by simp [Machine.read_write]
  simp only [Instr.exec, Machine.service, hv0]
  rfl

theorem executes_printLineFeed :
    p.Executes [.instr (.li .a0 10), .instr (.li .v0 11), .instr .syscall] m
      { (m.write .a0 10).write .v0 11 with output := m.output ++ "\n" } := by
  refine Image.Executes.cons (fun _ => rfl) (Image.Executes.cons (fun _ => rfl)
    (Image.Executes.instr fun _ => ?_))
  have hv0 : ((m.write .a0 (BitVec.ofInt 32 10)).write .v0 (BitVec.ofInt 32 11)).read .v0 = 11 := by
    simp [Machine.read_write]
  simp only [Instr.exec, Machine.service, hv0]
  rfl

end Services

/-- A word that is read is moved to the register at the cursor and stored like a value. -/
theorem follows_read {target : Target} {σ : Store} {w : Word} {rest : List Word} {cell : Cell}
    (hi : target.Integral) (ht : target.WellTyped ctx.symbols)
    (hcell : target.cell? (σ.env ctx.symbols toWord) = some cell) :
    Follows p ctx (read target) ⟨σ, w :: rest⟩ ⟨Function.update σ cell w, rest⟩ "" := by
  intro c m pc hm hclean hp
  have hreg : Clean (register c.cursor ctx c).lines := by
    simp only [read, bind_apply, cursor_apply, clean_append] at hclean
    exact hclean.2.1
  obtain ⟨n, hn⟩ := fin_of_clean_register hreg
  have hlower : (read target ctx c).lines =
      [.instr (.li .v0 5), .instr .syscall, .instr (.move (.s n) .v0)] ++
        (store target (.s n) ctx c).lines := by
    simp [read, bind_apply, register_of_eq hn, type_eq_integer hi, callService, Service.code]
  rw [hlower, clean_append] at hclean
  rw [hlower] at hp ⊢
  let m₁ : Machine := { (m.write .v0 5).write .v0 w with input := rest }
  have hrun₁ : p.Executes [.instr (.move (.s n) .v0)] m₁ (m₁.write (.s n) w) :=
    Image.Executes.instr fun _ => rfl
  have hrun := (executes_readInteger hm.input).append hrun₁
  have hm₁ : ctx.Represents p ⟨σ, rest⟩ (m₁.write (.s n) w) :=
    hm.consume (by rfl) rfl rfl
  obtain ⟨m', hrun', hrep, hout, hsp⟩ :=
    executes_store hi ht hcell hm₁ hn (read_write_pool ..) hclean.2
  refine ⟨m', (hrun.append hrun') pc hp.has, hrep, ?_, hsp⟩
  rw [hout, String.append_empty]
  rfl

/-- A value is printed as a number, with a line feed behind it. -/
theorem follows_write {value : Expr} {v : Word} (hi : value.Integral)
    (ht : value.WellTyped ctx.symbols)
    (hv : value.eval (s.store.env ctx.symbols toWord) = some v) :
    Follows p ctx (write value) s s (toString v.toInt ++ "\n") := by
  intro c m pc hm hclean hp
  have hvalue : Clean (value.lower ctx c).lines := by
    simp only [write, bind_apply, clean_append] at hclean
    exact hclean.1
  obtain ⟨hcount, n, hn, m₁, hrun₁, hread, hkeep⟩ :=
    Expr.delivers_lower hi ht hv c m hm.holds hvalue
  have hlower : (write value ctx c).lines = (value.lower ctx c).lines ++
      [.instr (.move .a0 (.s n)), .instr (.li .v0 1), .instr .syscall, .instr (.li .a0 10),
        .instr (.li .v0 11), .instr .syscall] := by
    simp [write, bind_apply, hcount, register_of_eq hn, hi.self.1, printValue, callService,
      Service.code, lineFeed]
  rw [hlower] at hp ⊢
  have hmove : p.Executes [.instr (.move .a0 (.s n))] m₁ (m₁.write .a0 v) :=
    Image.Executes.instr fun _ => by rw [Instr.exec, hread]
  refine ⟨_, (hrun₁.append (hmove.append (executes_printInteger.append executes_printLineFeed))) pc
    hp.has, hm.congr hkeep.sp hkeep.memory hkeep.input, ?_, hkeep.sp⟩
  show m₁.output ++ toString v.toInt ++ "\n" = _
  rw [hkeep.output, String.append_assoc]

/-! ## Sequences, choices and loops -/

theorem follows_nil : Follows p ctx (pure ()) s s "" := by
  intro c m pc hm _ _
  exact ⟨m, Relation.ReflTransGen.refl, hm, String.append_empty.symm, rfl⟩

/-- One piece of code after the other prints one text after the other. -/
theorem Follows.bind {x y : Lower Unit} {s'' : State} {o' : String} (hx : Follows p ctx x s s' o)
    (hy : Follows p ctx y s' s'' o') :
    Follows p ctx (x >>= fun _ => y) s s'' (o ++ o') := by
  intro c m pc hm hclean hp
  rw [bind_apply] at hclean hp ⊢
  obtain ⟨m₁, hrun₁, hm₁, hout₁, hsp₁⟩ := hx c m pc hm (clean_append.1 hclean).1 hp.left
  obtain ⟨m₂, hrun₂, hm₂, hout₂, hsp₂⟩ := hy _ m₁ _ hm₁ (clean_append.1 hclean).2 hp.right
  refine ⟨m₂, ?_, hm₂, by rw [hout₂, hout₁, String.append_assoc], hsp₂.trans hsp₁⟩
  rw [List.length_append, ← Nat.add_assoc]
  exact hrun₁.trans hrun₂

/-- A choice whose test holds runs its first branch and jumps over the second. -/
theorem follows_branch_yes {test : Expr} {yes no : Lower Unit} (hi : test.Integral)
    (ht : test.WellTyped ctx.symbols) (hv : test.eval (s.store.env ctx.symbols toWord) = some 1)
    (hyes : Follows p ctx yes s s' o) : Follows p ctx (branch test yes no) s s' o := by
  intro c m pc hm hclean hp
  obtain ⟨c₁, c₂, c₃, hlines⟩ := lines_branch test yes no ctx c
  rw [hlines] at hclean hp ⊢
  simp only [clean_append, clean_instr_cons, clean_label_cons] at hclean
  obtain ⟨m₁, hrun₁, hkeep⟩ := reaches_branchUnless hi ht hv hm.holds hclean.1
    hp.right.right.tail.find?_head hp.left.has
  rw [if_pos rfl] at hrun₁
  obtain ⟨m₂, hrun₂, hm₂, hout, hsp⟩ := hyes c₂ m₁ _
    (hm.congr hkeep.sp hkeep.memory hkeep.input) hclean.2.1 hp.right.left
  have hend := hp.right.right.tail.tail.right
  have hjump := Image.reaches_instr (m := m₂) hp.right.right.has rfl hend.find?_head
  have hlabel := Image.reaches_label (m := m₂) hend.has
  refine ⟨m₂, ?_, hm₂, by rw [hout, hkeep.output], hsp.trans hkeep.sp⟩
  refine Image.Reaches.of_eq (hrun₁.trans (hrun₂.trans (hjump.trans hlabel))) ?_
  simp only [List.length_append, List.length_cons, List.length_nil]
  omega

/-- A choice whose test does not hold jumps to its second branch. -/
theorem follows_branch_no {test : Expr} {yes no : Lower Unit} {v : Word} (hi : test.Integral)
    (ht : test.WellTyped ctx.symbols) (hv : test.eval (s.store.env ctx.symbols toWord) = some v)
    (hne : v ≠ 1) (hno : Follows p ctx no s s' o) : Follows p ctx (branch test yes no) s s' o := by
  intro c m pc hm hclean hp
  obtain ⟨c₁, c₂, c₃, hlines⟩ := lines_branch test yes no ctx c
  rw [hlines] at hclean hp ⊢
  simp only [clean_append, clean_instr_cons, clean_label_cons] at hclean
  have helse := hp.right.right.tail
  obtain ⟨m₁, hrun₁, hkeep⟩ :=
    reaches_branchUnless hi ht hv hm.holds hclean.1 helse.find?_head hp.left.has
  rw [if_neg hne] at hrun₁
  have hlabel₁ := Image.reaches_label (m := m₁) helse.has
  obtain ⟨m₂, hrun₂, hm₂, hout, hsp⟩ := hno c₃ m₁ _
    (hm.congr hkeep.sp hkeep.memory hkeep.input) hclean.2.2.1 helse.tail.left
  have hlabel₂ := Image.reaches_label (m := m₂) helse.tail.right.has
  refine ⟨m₂, ?_, hm₂, by rw [hout, hkeep.output], hsp.trans hkeep.sp⟩
  refine Image.Reaches.of_eq (hrun₁.trans (hlabel₁.trans (hrun₂.trans hlabel₂))) ?_
  simp only [List.length_append, List.length_cons, List.length_nil]
  omega

/-- A loop whose test does not hold jumps to its end. -/
theorem follows_loop_done {test : Expr} {body : Lower Unit} {v : Word} (hi : test.Integral)
    (ht : test.WellTyped ctx.symbols) (hv : test.eval (s.store.env ctx.symbols toWord) = some v)
    (hne : v ≠ 1) : Follows p ctx (loop test body) s s "" := by
  intro c m pc hm hclean hp
  obtain ⟨c₁, c₂, hlines⟩ := lines_loop test body ctx c
  rw [hlines] at hclean hp ⊢
  simp only [clean_append, clean_instr_cons, clean_label_cons] at hclean
  have hend := hp.tail.right.right.tail
  have hlabel₁ := Image.reaches_label (m := m) hp.has
  obtain ⟨m₁, hrun, hkeep⟩ :=
    reaches_branchUnless hi ht hv hm.holds hclean.1 hend.find?_head hp.tail.left.has
  rw [if_neg hne] at hrun
  have hlabel₂ := Image.reaches_label (m := m₁) hend.has
  refine ⟨m₁, ?_, hm.congr hkeep.sp hkeep.memory hkeep.input,
    by rw [hkeep.output, String.append_empty], hkeep.sp⟩
  refine Image.Reaches.of_eq (hlabel₁.trans (hrun.trans hlabel₂)) ?_
  simp only [List.length_append, List.length_cons, List.length_nil]
  omega

/-- One round of a loop, after which the loop begins once more. -/
theorem follows_loop_next {test : Expr} {body : Lower Unit} {s'' : State} {o' : String}
    (hi : test.Integral) (ht : test.WellTyped ctx.symbols)
    (hv : test.eval (s.store.env ctx.symbols toWord) = some 1) (hbody : Follows p ctx body s s' o)
    (hloop : Follows p ctx (loop test body) s' s'' o') :
    Follows p ctx (loop test body) s s'' (o ++ o') := by
  intro c m pc hm hclean hp
  have hagain := fun m => hloop c m pc
  obtain ⟨c₁, c₂, hlines⟩ := lines_loop test body ctx c
  rw [hlines] at hclean hp hagain ⊢
  have hclean' := hclean
  simp only [clean_append, clean_instr_cons, clean_label_cons] at hclean'
  have hlabel := Image.reaches_label (m := m) hp.has
  obtain ⟨m₁, hrun₁, hkeep⟩ := reaches_branchUnless hi ht hv hm.holds hclean'.1
    hp.tail.right.right.tail.find?_head hp.tail.left.has
  rw [if_pos rfl] at hrun₁
  obtain ⟨m₂, hrun₂, hm₂, hout₂, hsp₂⟩ := hbody c₂ m₁ _
    (hm.congr hkeep.sp hkeep.memory hkeep.input) hclean'.2.1 hp.tail.right.left
  have hjump := Image.reaches_instr (m := m₂) hp.tail.right.right.has rfl hp.find?_head
  obtain ⟨m₃, hrun₃, hm₃, hout₃, hsp₃⟩ := hagain m₂ hm₂ hclean hp
  exact ⟨m₃, hlabel.trans (hrun₁.trans (hrun₂.trans (hjump.trans hrun₃))), hm₃,
    by rw [hout₃, hout₂, hkeep.output, String.append_assoc], hsp₃.trans (hsp₂.trans hkeep.sp)⟩

end Lower

namespace Statement

open Lower

variable {p : Image} {ctx : Context} {toWord : Single → Word}

/-- The code of a statement follows its execution. -/
theorem follows_lower {st : Statement} {s s' : State} {o : String}
    (h : Runs ctx.symbols toWord st s s' o) (hi : st.Integral) (ht : st.WellTyped ctx.symbols) :
    Follows p ctx st.lower s s' o := by
  induction h with
  | assign hvalue hcell =>
    rw [lower]
    exact follows_assign hi ht hvalue hcell
  | compound_nil =>
    rw [lower, lowerAll]
    exact follows_nil
  | compound_cons _ _ ihfirst ihrest =>
    have hrest := ihrest ⟨trivial, hi.2.2⟩ ⟨trivial, ht.2.2⟩
    rw [lower] at hrest
    rw [lower, lowerAll]
    exact (ihfirst hi.2.1 ht.2.1).bind hrest
  | branch_yes htest _ ih =>
    rw [lower]
    exact follows_branch_yes hi.1 ht.1 htest (ih hi.2.1 ht.2.1)
  | branch_no htest hv _ ih =>
    rw [lower]
    exact follows_branch_no hi.1 ht.1 htest hv (ih hi.2.2 ht.2.2)
  | loop_done htest hv =>
    rw [lower]
    exact follows_loop_done hi.1 ht.1 htest hv
  | loop_next htest _ _ ihbody ihloop =>
    have hloop := ihloop hi ht
    rw [lower] at hloop ⊢
    exact follows_loop_next hi.1 ht.1 htest (ihbody hi.2 ht.2) hloop
  | read hcell =>
    rw [lower]
    exact follows_read hi ht hcell
  | write hvalue =>
    rw [lower]
    exact follows_write hi ht hvalue

/-- Wherever the code of an integer statement stands that marks no diagnostic and whose labels are
not defined before it, it takes a machine that stands for the state in which an execution begins to
one that stands for the state in which it ends, on the line after its last. It prints what the
execution prints and leaves the stack pointer where it was. -/
theorem reaches_of_runs {st : Statement} {s s' : State} {o : String} {c : Counters} {pc : Nat}
    {m : Machine} (hi : st.Integral) (ht : st.WellTyped ctx.symbols)
    (hclean : Clean (st.lower ctx c).lines) (hrun : Runs ctx.symbols toWord st s s' o)
    (hp : p.Has pc (st.lower ctx c).lines)
    (hfresh : ∀ l ∈ labelsOf (st.lower ctx c).lines, .label l ∉ p.lines.take pc)
    (hm : ctx.Represents p s m) :
    ∃ m', p.Reaches (pc, m) (pc + (st.lower ctx c).lines.length, m') ∧ ctx.Represents p s' m' ∧
      m'.output = m.output ++ o ∧ m'.read .sp = m.read .sp :=
  follows_lower hrun hi ht c m pc hm hclean
    (Image.linked_of_nodup hp (draws_lower st ctx c).nodup hfresh)

/-! ## A sample run -/

section Sample

open PascalMips.Expr (sampleContext sampleStore sampleMachine sampleImage sample_holds sample_address)

/-- `begin a[x - 1] := x * 3; x := x - 1 end`. -/
def sampleBody : Statement :=
  .compound [
    .assign
      (.element "a" .integer
        (.binary .sub (.var "x" .integer) (.literal "1" .integer) .integer))
      (.binary .mul (.var "x" .integer) (.literal "3" .integer) .integer),
    .assign (.var "x" .integer)
      (.binary .sub (.var "x" .integer) (.literal "1" .integer) .integer)]

/-- `while x > 0 do` the body above. -/
def sampleLoop : Statement :=
  .loop (.binary (.rel .gt) (.var "x" .integer) (.literal "0" .integer) .integer) sampleBody

/-- `begin read(x);` the loop above`; if a[1] = 6 then write(a[0]) else begin end end`. -/
def sampleStatement : Statement :=
  .compound [
    .read (.var "x" .integer),
    sampleLoop,
    .branch
      (.binary (.rel .eq) (.element "a" .integer (.literal "1" .integer)) (.literal "6" .integer)
        .integer)
      (.write (.element "a" .integer (.literal "0" .integer)))
      (.compound [])]

theorem sample_integral : sampleStatement.Integral := by
  simp [Integral, All, AllOf, IsIntegral, Target.Integral, sampleStatement, sampleLoop, sampleBody,
    Expr.Integral, Expr.All, Expr.type, Expr.IsCall]

/-- The sample is well typed where it is written. -/
theorem sample_wellTyped : sampleStatement.WellTyped sampleContext.symbols := by
  have hx : (Expr.var "x" .integer).WellTyped sampleContext.symbols := ⟨⟨_, rfl, rfl⟩, trivial⟩
  have hliteral (text : String) :
      (Expr.literal text .integer).WellTyped sampleContext.symbols := ⟨trivial, trivial⟩
  have hbinary {op : BinaryOp} {e d : Expr} (he : e.WellTyped sampleContext.symbols)
      (hd : d.WellTyped sampleContext.symbols) (ht : .integer = op.resultType e.type d.type) :
      (Expr.binary op e d .integer).WellTyped sampleContext.symbols := ⟨⟨trivial, ht⟩, he, hd⟩
  have helement {e : Expr} (he : e.WellTyped sampleContext.symbols) :
      (Expr.element "a" .integer e).WellTyped sampleContext.symbols :=
    ⟨⟨⟨_, _, rfl, rfl⟩, trivial⟩, he⟩
  have htarget : (Target.var "x" .integer).WellTyped sampleContext.symbols :=
    ⟨_, rfl, .inl rfl⟩
  have hbody : sampleBody.WellTyped sampleContext.symbols :=
    ⟨trivial, ⟨⟨⟨_, _, rfl, rfl⟩, hbinary hx (hliteral _) rfl⟩, hbinary hx (hliteral _) rfl⟩,
      ⟨htarget, hbinary hx (hliteral _) rfl⟩, trivial⟩
  exact ⟨trivial, htarget, ⟨hbinary hx (hliteral _) rfl, hbody⟩,
    ⟨hbinary (helement (hliteral _)) (hliteral _) rfl, helement (hliteral _), trivial, trivial⟩,
    trivial⟩

/-- The states of a run on the input 2: after `read(x)`, and after each round of the loop. -/
def sampleState₀ : State := ⟨Function.update sampleStore (.var "x") 2, []⟩

def sampleState₁ : State :=
  ⟨Function.update (Function.update sampleState₀.store (.element "a" 1) 6) (.var "x") 1, []⟩

def sampleState₂ : State :=
  ⟨Function.update (Function.update sampleState₁.store (.element "a" 0) 3) (.var "x") 0, []⟩

/-- Two statements that print nothing run one after the other. -/
theorem runs_pair {t : SymbolTable} {first second : Statement} {s s' s'' : State}
    (h₁ : Runs t toWord first s s' "") (h₂ : Runs t toWord second s' s'' "") :
    Runs t toWord (.compound [first, second]) s s'' "" :=
  .compound_cons h₁ (.compound_cons h₂ .compound_nil)

/-- The sample reads 2, sets two elements in two rounds of its loop and prints one of them. -/
theorem sample_runs : Runs sampleContext.symbols (fun _ => 0) sampleStatement ⟨sampleStore, [2]⟩
    sampleState₂ "3\n" := by
  have hround₁ :
      Runs sampleContext.symbols (fun _ => 0) sampleBody sampleState₀ sampleState₁ "" := by
    refine runs_pair
      (?_ : Runs _ _ _ _ ⟨Function.update sampleState₀.store (.element "a" 1) 6, []⟩ "") ?_
    · exact .assign (by decide +kernel) (by decide +kernel)
    · exact .assign (by decide +kernel) (by decide +kernel)
  have hround₂ :
      Runs sampleContext.symbols (fun _ => 0) sampleBody sampleState₁ sampleState₂ "" := by
    refine runs_pair
      (?_ : Runs _ _ _ _ ⟨Function.update sampleState₁.store (.element "a" 0) 3, []⟩ "") ?_
    · exact .assign (by decide +kernel) (by decide +kernel)
    · exact .assign (by decide +kernel) (by decide +kernel)
  have hdone : (Expr.binary (.rel .gt) (.var "x" .integer) (.literal "0" .integer) .integer).eval
      (sampleState₂.store.env sampleContext.symbols fun _ => 0) = some 0 := by decide +kernel
  have hloop : Runs sampleContext.symbols (fun _ => 0) sampleLoop sampleState₀ sampleState₂ "" :=
    .loop_next (by decide +kernel) hround₁
      (.loop_next (by decide +kernel) hround₂ (.loop_done hdone (by decide)))
  have hread : Runs sampleContext.symbols (fun _ => 0) (.read (.var "x" .integer))
      ⟨sampleStore, [2]⟩ sampleState₀ "" := .read (by decide +kernel)
  have hwrite : (Expr.element "a" .integer (.literal "0" .integer)).eval
      (sampleState₂.store.env sampleContext.symbols fun _ => 0) = some 3 := by decide +kernel
  exact .compound_cons hread (.compound_cons hloop
    (.compound_cons (.branch_yes (by decide +kernel) (.write hwrite)) .compound_nil))

/-- The machine of the sample stands for its state. -/
theorem sample_represents (lines : List Line) (h : 4 * lines.length < 4294967296) :
    sampleContext.Represents (sampleImage lines h) ⟨sampleStore, [2]⟩ sampleMachine where
  holds := sample_holds lines h
  apart x y a hx hy := by
    obtain ⟨rfl, rfl⟩ | ⟨i, rfl, hlo, hhi, rfl⟩ := sample_address hx <;>
      obtain ⟨rfl, heq⟩ | ⟨j, rfl, hlo', hhi', heq⟩ := sample_address hy
    · rfl
    · omega
    · omega
    · rw [show i = j by omega]
  input := rfl

/-- What a run of the sample gives, its code gives on the machine. -/
theorem reaches_of_sample_runs :
    let lines := (sampleStatement.lower sampleContext ⟨0, 4, 7, false⟩).lines
    let p := sampleImage lines (by decide +kernel)
    ∃ m', p.Reaches (0, sampleMachine) (lines.length, m') ∧
      sampleContext.Represents p sampleState₂ m' ∧ m'.output = "3\n" ∧
      m'.read .sp = sampleMachine.read .sp := by
  intro lines p
  have hhas : p.Has 0 (sampleStatement.lower sampleContext ⟨0, 4, 7, false⟩).lines :=
    List.prefix_refl lines
  obtain ⟨m', hrun, hm', hout, hsp⟩ := reaches_of_runs sample_integral sample_wellTyped
    (by decide +kernel) sample_runs hhas (fun _ _ hmem => nomatch hmem) (sample_represents lines _)
  exact ⟨m', Nat.zero_add lines.length ▸ hrun, hm', hout, hsp⟩

end Sample

end Statement

end PascalMips
