import RegMachine.Proofs.Assignment
import RegMachine.Proofs.Forward

/-!
# The counter of an unrolled loop

An unrolled loop hands out one cell for its variable before the first copy of its body,
and every copy starts with code that stores its index there. The copies are compiled one
after the other against the same tables, and in them a declaration may bind any name anew,
the name of the loop's variable among them. The store still goes to the first cell.

So the variable is the index in a copy exactly if no copy before it has bound the name
anew (`Stmt.counter_of_unroll`). A name that has been bound anew stays away from the first
cell: it is bound to a cell where the cursor stood, or to a list (`Symbols.BindsFresh`).
A body that declares the variable nowhere in its own tables, not even as the variable of a
loop inside it, is safe for every index (`Stmt.MayBind`). `Stmt.counter_lost` is the least
loop that is not.
-/

namespace RegMachine

/-! ## Names bound anew -/

/-- **The cell of a name**: the address and type of the variable that it is bound to. -/
def Symbols.cell? (s : Symbols Function Namespace) (name : String) :
    Option (UInt32 × ValueType) :=
  (s.vars.get? name).map fun v => (v.address, v.type)

/-- **Names are bound anew to fresh cells.** Of the names that may be bound, each has its
cell still, or it is bound to a list or to a cell that lay behind the cursor. All other
names have their cells. -/
structure Symbols.BindsFresh (names : String → Prop) (s s' : Symbols Function Namespace) :
    Prop where
  cursor : s.nextAddress ≤ s'.nextAddress
  cells : ∀ name, s'.cell? name = s.cell? name
    ∨ names name ∧ ∀ address type, s'.cell? name = some (address, type) →
      type.isList = true ∨ s.nextAddress ≤ address

namespace Symbols

variable {names names' : String → Prop} {s t u : Symbols Function Namespace} {name other : String}
  {v : Variable}

@[simp]
theorem cell?_insertVariable_self :
    (s.insertVariable name v).cell? name = some (v.address, v.type) := by
  unfold cell? insertVariable
  rw [Table.get?_insert_self, Option.map_some]

theorem cell?_insertVariable_of_ne (h : other ≠ name) :
    (s.insertVariable name v).cell? other = s.cell? other := by
  unfold cell? insertVariable
  rw [Table.get?_insert_of_ne _ h]

/-- Recording a value keeps the cell. -/
theorem cell?_setValue (h : s.vars.get? name = some v) (value : Stored) (other : String) :
    (s.insertVariable name { v with value := value }).cell? other = s.cell? other := by
  by_cases hother : other = name
  · subst hother
    rw [cell?_insertVariable_self]
    unfold cell?
    rw [h, Option.map_some]
  · exact cell?_insertVariable_of_ne hother

namespace BindsFresh

protected theorem refl (names : String → Prop) (s : Symbols Function Namespace) :
    BindsFresh names s s :=
  ⟨UInt32.le_refl _, fun _ => .inl rfl⟩

protected theorem trans (hst : BindsFresh names s t) (htu : BindsFresh names t u) :
    BindsFresh names s u := by
  refine ⟨UInt32.le_trans hst.cursor htu.cursor, fun name => ?_⟩
  rcases htu.cells name with hkept | ⟨hname, hfresh⟩
  · rw [hkept]
    exact hst.cells name
  · refine .inr ⟨hname, fun address type hcell => ?_⟩
    exact (hfresh address type hcell).imp_right (UInt32.le_trans hst.cursor)

theorem mono (h : BindsFresh names s t) (hnames : ∀ name, names name → names' name) :
    BindsFresh names' s t :=
  ⟨h.cursor, fun name => (h.cells name).imp_right fun hfresh => ⟨hnames name hfresh.1, hfresh.2⟩⟩

theorem of_vars (hvars : t.vars = s.vars) (hcursor : s.nextAddress ≤ t.nextAddress) :
    BindsFresh names s t := by
  refine ⟨hcursor, fun name => .inl ?_⟩
  unfold cell?
  rw [hvars]

/-- **Each change of a simple statement** binds at most one name anew, and that where the
cursor stands. -/
theorem of_step (h : Symbols.Step names s t) : BindsFresh names s t := by
  cases h with
  | moveCursor hle => exact of_vars rfl hle
  | moveDataCursor hle => exact of_vars rfl (UInt32.le_refl _)
  | @bindCell name type value hname hroom =>
    refine ⟨le_addressAfter hroom, fun other => ?_⟩
    by_cases hother : other = name
    · subst hother
      rw [cell?_insertVariable_self]
      refine .inr ⟨hname, ?_⟩
      rintro address type ⟨⟩
      exact .inr (UInt32.le_refl _)
    · exact .inl (cell?_insertVariable_of_ne hother)
  | @bindList name address element len value hname =>
    refine ⟨UInt32.le_refl _, fun other => ?_⟩
    by_cases hother : other = name
    · subst hother
      rw [cell?_insertVariable_self]
      refine .inr ⟨hname, ?_⟩
      rintro address type ⟨⟩
      exact .inl rfl
    · exact .inl (cell?_insertVariable_of_ne hother)
  | setValue value hv =>
    exact ⟨UInt32.le_refl _, fun other => .inl (cell?_setValue hv value other)⟩

theorem of_steps (h : Relation.ReflTransGen (Symbols.Step names) s t) : BindsFresh names s t := by
  induction h with
  | refl => exact .refl names s
  | tail _ hstep ih => exact ih.trans (of_step hstep)

/-- **A name gets no cell that was handed out before**: if it has a cell from below the
cursor in the end, it has had it from the start. -/
theorem cell?_of_lt (h : BindsFresh names s t) {address : UInt32} {type : ValueType}
    (htype : type.isList = false) (hbelow : address < s.nextAddress)
    (hcell : t.cell? name = some (address, type)) : s.cell? name = some (address, type) := by
  rcases h.cells name with hkept | ⟨-, hfresh⟩
  · exact hkept.symm.trans hcell
  · rcases hfresh address type hcell with hlist | hge
    · exact absurd (htype.symm.trans hlist) Bool.false_ne_true
    · exact absurd (UInt32.lt_of_lt_of_le hbelow hge) (UInt32.lt_irrefl _)

end BindsFresh

end Symbols

/-- The names of a scope's tables are bound anew to fresh cells. -/
def Scope.BindsFresh (names : String → Prop) (s s' : Scope) : Prop :=
  s.symbols.BindsFresh names s'.symbols

instance (names : String → Prop) : Std.Refl (Scope.BindsFresh names) :=
  ⟨fun s => .refl names s.symbols⟩

instance (names : String → Prop) :
    Trans (Scope.BindsFresh names) (Scope.BindsFresh names) (Scope.BindsFresh names) :=
  ⟨Symbols.BindsFresh.trans⟩

/-! ## Statements -/

/-- **The statements that may bind a name in the tables of their own scope**: a declaration
of the name or of a list with an element of that name, and a loop whose variable has the
name or whose body may bind it. All other blocks have tables of their own. -/
inductive Stmt.MayBind (name : String) : Stmt → Prop
  | simple {stmt : Stmt} (h : stmt.Binds name) : MayBind name stmt
  | counter {line : Nat} {iterable : String} {body : List Stmt} :
    MayBind name (.unroll line name iterable body)
  | inner {line : Nat} {var iterable : String} {body : List Stmt} {stmt : Stmt}
    (hstmt : stmt ∈ body) (h : MayBind name stmt) : MayBind name (.unroll line var iterable body)

/-- A simple statement binds what it may bind. -/
theorem Stmt.MayBind.binds {name : String} {stmt : Stmt} (h : stmt.MayBind name)
    (hsimple : stmt.isSimple = true) : stmt.Binds name := by
  cases h with
  | simple h => exact h
  | counter => exact nomatch hsimple
  | inner => exact nomatch hsimple

theorem Stmt.mayBind_unroll_iff {name : String} {line : Nat} {var iterable : String}
    {body : List Stmt} : (Stmt.unroll line var iterable body).MayBind name
      ↔ name = var ∨ ∃ stmt ∈ body, stmt.MayBind name := by
  constructor
  · intro h
    cases h with
    | simple h => exact h.elim
    | counter => exact .inl rfl
    | inner hstmt h => exact .inr ⟨_, hstmt, h⟩
  · rintro (rfl | ⟨stmt, hstmt, h⟩)
    · exact .counter
    · exact .inner hstmt h

/-- A child with tables of its own leaves the variables of its parent alone. -/
theorem Scope.vars_sync {s child : Scope} (h : child.link ≠ .shared) :
    (s.sync child).symbols.vars = s.symbols.vars :=
  (Scope.imports_syncSymbols h).vars

/-- Whether a statement has a block with tables of its own. -/
def Stmt.hasOwnTables : Stmt → Bool
  | branch .. | loop .. | function .. | space .. | unit .. => true
  | _ => false

/-- **A statement whose blocks have tables of their own** leaves the variables of its scope
alone. -/
theorem Stmt.vars_of_hasOwnTables {stmt : Stmt} (hown : stmt.hasOwnTables = true) {s s' : Scope}
    {code : Fragment} (h : stmt.compile s = .ok code s') : s'.symbols.vars = s.symbols.vars := by
  have hlink : ∀ {stmts : List Stmt} {start child : Scope}, ¬ start.link = .shared →
      compileAll stmts start = .ok () child → ¬ child.link = .shared := by
    intro stmts start child hstart hrun
    rw [(compileAll_stays stmts hrun).link]
    exact hstart
  cases stmt with
  | branch line cond thenBody elseBody =>
    obtain ⟨test, first, second, -, hfirst, hsecond, -, rfl⟩ := CompileM.branch_eq_ok_iff.mp h
    rw [Scope.vars_sync (hlink Link.noConfusion hsecond),
      Scope.vars_sync (hlink Link.noConfusion hfirst)]
    rfl
  | loop line cond body =>
    obtain ⟨test, child, -, hchild, -, rfl⟩ := CompileM.loop_eq_ok_iff.mp h
    rw [Scope.vars_sync (hlink Link.noConfusion hchild)]
    rfl
  | function line name formals body =>
    obtain ⟨params, slot, start, inner, child, -, hparams, hbody, hslot, -, hdeclare⟩ :=
      CompileM.function_eq_ok_iff.mp h
    obtain rfl := CompileM.declareFunction_eq_ok_iff.mp hdeclare
    obtain ⟨-, -, rfl⟩ := CompileM.allocate_eq_ok_iff.mp hslot
    have hedits : Scope.Edits (fun _ => True) _ start :=
      CompileM.edits_declareParams (fun _ _ _ _ => trivial) hparams
    have hstart : start.link = .copy := by
      rw [hedits.rest]
      rfl
    have hinner : ¬ inner.link = .shared := by
      refine hlink ?_ hbody
      show ¬ start.link = .shared
      rw [hstart]
      exact Link.noConfusion
    exact Scope.vars_sync hinner
  | space line name body =>
    obtain ⟨child, hchild, -, hdeclare⟩ := CompileM.space_eq_ok_iff.mp h
    obtain rfl := CompileM.declareNamespace_eq_ok_iff.mp hdeclare
    exact Scope.vars_sync (hlink Link.noConfusion hchild)
  | unit line path body =>
    obtain ⟨child, hchild, -, rfl⟩ := CompileM.unit_eq_ok_iff.mp h
    exact Scope.vars_sync (hlink Link.noConfusion hchild)
  | _ => exact nomatch hown

/-- The cursor of a scope never moves back. -/
theorem Stmt.nextAddress_le {stmt : Stmt} {s s' : Scope} {code : Fragment}
    (h : stmt.compile s = .ok code s') : s.symbols.nextAddress ≤ s'.symbols.nextAddress := by
  have hforward := stmt.advances s
  rw [CompileM.scopeAfter_of_ok h] at hforward
  exact hforward.symbols.nextAddress

section Copies

open CompileM (Follows)

variable {names : String → Prop} {x : CompileM Unit} {line : Nat} {var : String}

theorem bindsFresh_emit (stream : Stream) (code : Fragment) :
    Follows (Scope.BindsFresh names) (CompileM.emit stream code) := by
  intro s u s' h
  rw [← CompileM.emit_eq_ok_iff.mp h]
  cases stream <;> exact .refl names _

theorem bindsFresh_setValue (name : String) (value : Stored) :
    Follows (Scope.BindsFresh names) (CompileM.setValue name value line) := by
  intro s u s' h
  obtain ⟨v, hv, rfl⟩ := CompileM.setValue_eq_ok_iff.mp h
  exact .of_step (.setValue value hv)

theorem bindsFresh_copies (hx : Follows (Scope.BindsFresh names) x) (address : UInt32)
    (count index : Nat) :
    Follows (Scope.BindsFresh names) (CompileM.copies line var address x count index) :=
  CompileM.follows_copies hx (fun _ => bindsFresh_emit _ _) (fun _ => bindsFresh_setValue _ _) _ _

/-- The variable of a loop gets the cell where the cursor stands. -/
theorem bindsFresh_forkIndexed {s : Scope} (hvar : names var)
    (hroom : s.symbols.nextAddress.toNat + Scalar.int.size < UInt32.size) :
    s.BindsFresh names (s.forkIndexed var) :=
  .of_step (.bindCell (.scalar .int) .zeroed hvar hroom)

end Copies

/-- **A statement binds no names but those it may bind**, and them to fresh cells. -/
theorem Stmt.bindsFresh (stmt : Stmt) :
    CompileM.Follows (Scope.BindsFresh fun name => stmt.MayBind name) stmt.compile := by
  induction stmt using Stmt.blockInduction with
  | simple stmt hsimple =>
    intro s code s' h
    exact (Symbols.BindsFresh.of_steps (stmt.edits_of_isSimple hsimple h).steps).mono
      fun name => .simple
  | unroll line var iterable body ih =>
    intro s code s' h
    obtain ⟨v, element, len, child, -, -, hroom, hcopies, -, rfl⟩ :=
      CompileM.unroll_eq_ok_iff.mp h
    have hbody : CompileM.Follows
        (Scope.BindsFresh fun name => (Stmt.unroll line var iterable body).MayBind name)
        (compileAll body) :=
      follows_compileAll bindsFresh_emit fun stmt hstmt s code s' h =>
        Symbols.BindsFresh.mono (ih stmt hstmt h) fun name => .inner hstmt
    have hlink : child.link = .shared :=
      (CompileM.follows_copies (compileAll_stays body) (fun _ => CompileM.stays_emit _ _)
        (fun value => CompileM.stays_setValue var value line) _ _ hcopies).link
    have hshared : (s.sync child).symbols = child.symbols := by
      show s.syncSymbols child = _
      unfold Scope.syncSymbols
      rw [hlink]
    show s.symbols.BindsFresh _ (s.sync child).symbols
    rw [hshared]
    exact (bindsFresh_forkIndexed .counter hroom).trans (bindsFresh_copies hbody _ _ _ hcopies)
  | branch | loop | function | space | unit =>
    intro s code s' h
    exact .of_vars (Stmt.vars_of_hasOwnTables rfl h) (Stmt.nextAddress_le h)

theorem bindsFresh_compileAll (stmts : List Stmt) :
    CompileM.Follows (Scope.BindsFresh fun name => ∃ stmt ∈ stmts, stmt.MayBind name)
      (compileAll stmts) :=
  follows_compileAll bindsFresh_emit fun stmt hstmt _ _ _ h =>
    Symbols.BindsFresh.mono (stmt.bindsFresh h) fun _ hname => ⟨stmt, hstmt, hname⟩

/-! ## Copies -/

namespace CompileM

variable {line : Nat} {var : String} {address : UInt32} {x : CompileM Unit} {s s' : Scope}

/-- **Copies are compiled in two parts**: some of them, and the others from where those
lead. -/
theorem copies_add_eq_ok_iff {first count index : Nat} {u : Unit} :
    copies line var address x (first + count) index s = .ok u s' ↔
      ∃ t, copies line var address x first index s = .ok () t
        ∧ copies line var address x count (index + first) t = .ok u s' := by
  induction first generalizing index s with
  | zero =>
    rw [Nat.zero_add, Nat.add_zero, copies]
    simp only [pure_eq_ok_iff]
    constructor
    · exact fun h => ⟨s, ⟨trivial, rfl⟩, h⟩
    · rintro ⟨_, ⟨-, rfl⟩, h⟩
      exact h
  | succ first ih =>
    rw [show first + 1 + count = first + count + 1 by omega,
      show index + (first + 1) = index + 1 + first by omega, copies, copies]
    simp only [bind_eq_ok_iff, ih]
    constructor
    · rintro ⟨_, a, ha, _, b, hb, _, c, hc, t, ht, h⟩
      exact ⟨t, ⟨_, a, ha, _, b, hb, _, c, hc, ht⟩, h⟩
    · rintro ⟨t, ⟨_, a, ha, _, b, hb, _, c, hc, ht⟩, h⟩
      exact ⟨_, a, ha, _, b, hb, _, c, hc, t, ht, h⟩

/-- **One copy** stores its index and records it, and then compiles the block. What it
records does not change any cell. -/
theorem exists_of_copies_one {index : Nat}
    (h : copies line var address x 1 index s = .ok () s') :
    x (s.atIndex line var address index) = .ok () s'
      ∧ (s.atIndex line var address index).body = s.body ++ Fragment.setIndex var address index
      ∧ ∀ name, (s.atIndex line var address index).symbols.cell? name = s.symbols.cell? name := by
  rw [copies] at h
  obtain ⟨_, t, ht, h⟩ := bind_eq_ok_iff.mp h
  obtain ⟨_, u, hu, h⟩ := bind_eq_ok_iff.mp h
  obtain ⟨_, w, hw, h⟩ := bind_eq_ok_iff.mp h
  obtain ⟨-, rfl⟩ := pure_eq_ok_iff.mp h
  have hindex : s.atIndex line var address index = u :=
    scopeAfter_of_ok (bind_eq_ok_iff.mpr ⟨(), t, ht, hu⟩)
  obtain rfl := emit_eq_ok_iff.mp ht
  obtain ⟨v, hv, rfl⟩ := setValue_eq_ok_iff.mp hu
  rw [hindex]
  exact ⟨hw, rfl, Symbols.cell?_setValue hv _⟩

end CompileM

/-- The code that sets the variable of a loop stores the index as a word. -/
theorem Machine.runs_setIndex (m : Machine) (var : String) (address : UInt32) (index : Nat) :
    m.Runs (Fragment.setIndex var address index) fun s s' =>
      s'.mem = m.write s.mem address 4 (UInt32.ofNat index) := by
  have hvalue : UInt32.ofInt (Int64.ofNat index).toInt = UInt32.ofNat index := by
    have hwrap : (Int64.ofNat index).toInt % (2 ^ 64 : Nat) = (index : Int) % (2 ^ 64 : Nat) := by
      rw [Int64.toInt_ofNat']
      exact Int.bmod_emod
    refine UInt32.toNat_inj.mp ?_
    unfold UInt32.ofInt
    rw [UInt32.toNat_ofNat', UInt32.toNat_ofNat']
    omega
  refine ((m.runs_loadLiteral .value (Int64.ofNat index) false).comment_cons _).append
    (m.runs_storeTo address .word) fun s t u hload hstore => ?_
  rw [hstore.mem, hload.mem, hload.value, hvalue]
  rfl

/-! ## Iterations -/

namespace Scope

/-- **The scope that the copy of an index starts from**, for a loop that is entered in a
scope: the copies before it are compiled, and its index is stored and recorded. -/
def iteration (s : Scope) (line : Nat) (var : String) (body : List Stmt) (index : Nat) : Scope :=
  (CompileM.scopeAfter
    (CompileM.copies line var s.symbols.nextAddress (compileAll body) index 0)
    (s.forkIndexed var)).atIndex line var s.symbols.nextAddress index

/-- **A name has the counter's cell**, which is the one that was handed out for the variable
of a loop entered in a scope. -/
def Counts (s : Scope) (name : String) (inside : Scope) : Prop :=
  inside.symbols.cell? name = some (s.symbols.nextAddress, .scalar .int)

instance (s : Scope) (name : String) (inside : Scope) : Decidable (s.Counts name inside) :=
  inferInstanceAs (Decidable (_ = _))

variable {s child : Scope} {line : Nat} {var : String} {body : List Stmt} {len k : Nat}

/-- **A copy of a loop that was compiled.** It was entered behind the copies before it, and
the scope that it left is the one behind so many copies and one. -/
theorem exists_iteration
    (h : CompileM.copies line var s.symbols.nextAddress (compileAll body) len 0
      (s.forkIndexed var) = .ok () child) (hk : k < len) :
    ∃ before after,
      CompileM.copies line var s.symbols.nextAddress (compileAll body) k 0 (s.forkIndexed var)
        = .ok () before
      ∧ CompileM.copies line var s.symbols.nextAddress (compileAll body) (k + 1) 0
          (s.forkIndexed var) = .ok () after
      ∧ compileAll body (s.iteration line var body k) = .ok () after
      ∧ (s.iteration line var body k).body
        = before.body ++ Fragment.setIndex var s.symbols.nextAddress k
      ∧ (∀ name, (s.iteration line var body k).symbols.cell? name = before.symbols.cell? name)
      ∧ after.body <+: child.body := by
  obtain ⟨rest, rfl⟩ : ∃ rest, len = k + 1 + rest := ⟨len - (k + 1), by omega⟩
  obtain ⟨after, hafter, hrest⟩ := CompileM.copies_add_eq_ok_iff.mp h
  obtain ⟨before, hbefore, hone⟩ := CompileM.copies_add_eq_ok_iff.mp hafter
  obtain ⟨hrun, hbody, hcells⟩ := CompileM.exists_of_copies_one hone
  have hadvances : CompileM.Advances (compileAll body) :=
    advances_of_forall fun stmt _ => stmt.advances
  have hforward : after.Forward child := by
    rw [← CompileM.scopeAfter_of_ok hrest]
    exact CompileM.advances_copies hadvances var _ rest _ after
  rw [Nat.zero_add] at hrun hbody hcells
  refine ⟨before, after, hbefore, hafter, ?_⟩
  unfold iteration
  rw [CompileM.scopeAfter_of_ok hbefore]
  exact ⟨hrun, hbody, hcells, hforward.body⟩

/-- Before the first copy the variable has the counter's cell. -/
theorem counts_forkIndexed (s : Scope) (var : String) : s.Counts var (s.forkIndexed var) :=
  Symbols.cell?_insertVariable_self

/-- **A variable that is the counter behind some copies** was so behind fewer of them: it
does not get back a cell that it has lost. -/
theorem counts_of_copies {first count : Nat} {t u : Scope}
    (hroom : s.symbols.nextAddress.toNat + Scalar.int.size < UInt32.size)
    (ht : CompileM.copies line var s.symbols.nextAddress (compileAll body) first 0
      (s.forkIndexed var) = .ok () t)
    (hu : CompileM.copies line var s.symbols.nextAddress (compileAll body) count first t
      = .ok () u) (hcounts : s.Counts var u) : s.Counts var t := by
  have hstart : s.symbols.nextAddress < (s.forkIndexed var).symbols.nextAddress := by
    show s.symbols.nextAddress < addressAfter s.symbols.nextAddress Scalar.int.size
    rw [UInt32.lt_iff_toNat_lt, toNat_addressAfter hroom]
    exact Nat.lt_add_of_pos_right (by decide)
  have hmoved := (bindsFresh_copies (bindsFresh_compileAll body) _ _ _ ht).cursor
  exact (bindsFresh_copies (bindsFresh_compileAll body) _ _ _ hu).cell?_of_lt rfl
    (UInt32.lt_of_lt_of_le hstart hmoved) hcounts

section Counts

variable (hroom : s.symbols.nextAddress.toNat + Scalar.int.size < UInt32.size)
  (hcopies : CompileM.copies line var s.symbols.nextAddress (compileAll body) len 0
    (s.forkIndexed var) = .ok () child) (hk : k < len)

include hroom hcopies hk

/-- **The variable is the counter in a copy** exactly if it was behind every copy before. -/
theorem counts_iteration_iff :
    s.Counts var (s.iteration line var body k) ↔ ∀ j < k,
      s.Counts var (CompileM.scopeAfter (compileAll body) (s.iteration line var body j)) := by
  obtain ⟨before, -, hbefore, -, -, -, hcells, -⟩ := exists_iteration hcopies hk
  have hhere : s.Counts var (s.iteration line var body k) ↔ s.Counts var before := by
    unfold Counts
    rw [hcells]
  rw [hhere]
  constructor
  · intro hcounts j hj
    obtain ⟨-, after, -, hafter, hrun, -⟩ := exists_iteration hcopies (Nat.lt_trans hj hk)
    obtain ⟨count, rfl⟩ : ∃ count, k = j + 1 + count := ⟨k - (j + 1), by omega⟩
    obtain ⟨after', hafter', hrest⟩ := CompileM.copies_add_eq_ok_iff.mp hbefore
    cases hafter.symm.trans hafter'
    rw [Nat.zero_add] at hrest
    rw [CompileM.scopeAfter_of_ok hrun]
    exact counts_of_copies hroom hafter hrest hcounts
  · intro hcounts
    cases k with
    | zero =>
      obtain ⟨-, rfl⟩ := CompileM.pure_eq_ok_iff.mp hbefore
      exact s.counts_forkIndexed var
    | succ k =>
      obtain ⟨-, after, -, hafter, hrun, -⟩ := exists_iteration hcopies (Nat.lt_of_succ_lt hk)
      cases hbefore.symm.trans hafter
      have hlast := hcounts k (Nat.lt_succ_self k)
      rwa [CompileM.scopeAfter_of_ok hrun] at hlast

omit hroom in
/-- A body that does not bind the variable leaves it the counter. -/
theorem counts_iteration (hbody : ∀ stmt ∈ body, ¬ stmt.MayBind var) :
    s.Counts var (s.iteration line var body k) := by
  obtain ⟨before, -, hbefore, -, -, -, hcells, -⟩ := exists_iteration hcopies hk
  unfold Counts
  rw [hcells]
  rcases (bindsFresh_copies (bindsFresh_compileAll body) _ _ _ hbefore).cells var with
    hkept | ⟨⟨stmt, hstmt, hbinds⟩, -⟩
  · rw [hkept]
    exact s.counts_forkIndexed var
  · exact absurd hbinds (hbody stmt hstmt)

end Counts

end Scope

/-- **The variable of an unrolled loop.** Every copy of the body starts with code that writes
its index to the cell that was handed out for the variable, and nowhere else; the copy is
compiled from there, and its code stands in the code of the loop. In that copy the variable
has this cell exactly if it had it behind every copy before. It has it in all copies if no
statement of the body may bind it. -/
theorem Stmt.counter_of_unroll {line : Nat} {var iterable : String} {body : List Stmt}
    {s s' : Scope} {code : Fragment} {v : Variable} {element : Scalar} {len : Nat}
    (hv : s.symbols.vars.get? iterable = some v) (htype : v.type = .list element len)
    (h : (Stmt.unroll line var iterable body).compile s = .ok code s') :
    (∀ k < len,
      (∃ before after,
        (s.iteration line var body k).body
            = before ++ Fragment.setIndex var s.symbols.nextAddress k
          ∧ compileAll body (s.iteration line var body k) = .ok () after ∧ after.body <+: code)
      ∧ (∀ (m : Machine) (offset : Nat) (start : Machine.State), ∃ stop,
        m.exec offset (Fragment.setIndex var s.symbols.nextAddress k) start = some stop
          ∧ m.Writes ⟨s.symbols.nextAddress, 4⟩ (UInt32.ofNat k) start.mem stop.mem)
      ∧ (s.Counts var (s.iteration line var body k) ↔ ∀ j < k,
        s.Counts var (CompileM.scopeAfter (compileAll body) (s.iteration line var body j))))
    ∧ ((∀ stmt ∈ body, ¬ stmt.MayBind var) →
      ∀ k < len, s.Counts var (s.iteration line var body k)) := by
  obtain ⟨v', element', len', child, hv', htype', hroom, hcopies, rfl, rfl⟩ :=
    CompileM.unroll_eq_ok_iff.mp h
  cases hv.symm.trans hv'
  cases htype.symm.trans htype'
  refine ⟨fun k hk => ⟨?_, fun m offset start => ?_, Scope.counts_iteration_iff hroom hcopies hk⟩,
    fun hbody k hk => Scope.counts_iteration hcopies hk hbody⟩
  · obtain ⟨before, after, -, -, hrun, hstart, -, hprefix⟩ := Scope.exists_iteration hcopies hk
    exact ⟨before.body, after, hstart, hrun, hprefix⟩
  · obtain ⟨stop, hexec, hmem⟩ :=
      (m.runs_setIndex var s.symbols.nextAddress k).exec_eq offset start
    refine ⟨stop, hexec, ?_⟩
    rw [hmem]
    exact m.writes_write (show 4 ≤ UInt32.size by decide) _ _

/-- A scope with a list of two elements and an integer. -/
def Scope.listed : Scope :=
  { Scope.root {} with
    symbols := {
      vars := ((∅ : Table Variable).insert "xs" ⟨0x10000000, .list .int 2, .zeroed⟩).insert "y"
        ⟨0x10000008, .scalar .int, .zeroed⟩
      nextAddress := 0x1000000c
      nextDataAddress := 0 } }

theorem Scope.get?_listed :
    Scope.listed.symbols.vars.get? "xs" = some ⟨0x10000000, .list .int 2, .zeroed⟩ := by
  decide +kernel

/-- A loop inside a loop, which copies the variable of the outer one. -/
theorem Stmt.counter_of_unroll_nested :
    let body := [Stmt.unroll 2 "j" "xs" [.assign 3 "y" (.ident "i")]]
    CompileM.succeeds (Stmt.unroll 1 "i" "xs" body).compile .listed = true
      ∧ (∀ stmt ∈ body, ¬ stmt.MayBind "i")
      ∧ Scope.listed.Counts "i" (Scope.listed.iteration 1 "i" body 1) := by
  intro body
  have hrun : CompileM.succeeds (Stmt.unroll 1 "i" "xs" body).compile .listed = true := by
    decide +kernel
  have hbody : ∀ stmt ∈ body, ¬ stmt.MayBind "i" := by
    refine List.forall_mem_singleton.mpr fun hbinds => ?_
    rcases Stmt.mayBind_unroll_iff.mp hbinds with hname | ⟨stmt, hstmt, hbinds⟩
    · exact absurd hname (by decide)
    · cases List.mem_singleton.mp hstmt
      exact hbinds.binds rfl
  obtain ⟨code, h⟩ := CompileM.exists_of_succeeds hrun
  have hcounter := Stmt.counter_of_unroll Scope.get?_listed rfl h
  exact ⟨hrun, hbody, hcounter.2 hbody 1 (by decide)⟩

/-- **A loop loses its counter** to a declaration of the same name in its body: from the
second copy on, the index is stored to a cell that the variable does not have. -/
theorem Stmt.counter_lost :
    ¬ ∀ (line : Nat) (var iterable : String) (body : List Stmt) (s s' : Scope) (code : Fragment)
      (v : Variable) (element : Scalar) (len : Nat), s.symbols.vars.get? iterable = some v →
      v.type = .list element len → (Stmt.unroll line var iterable body).compile s = .ok code s' →
      ∀ k < len, s.Counts var (s.iteration line var body k) := by
  intro hall
  have hrun : CompileM.succeeds
      (Stmt.unroll 1 "i" "xs" [.declare 2 (.scalar .int) "i" (.int 5)]).compile .listed
        = true := by
    decide +kernel
  obtain ⟨code, h⟩ := CompileM.exists_of_succeeds hrun
  have hcounts := hall 1 "i" "xs" _ .listed _ code _ .int 2 Scope.get?_listed rfl h 1 (by decide)
  exact absurd hcounts (by decide +kernel)

end RegMachine
