import RegMachine.Proofs.Cells
import RegMachine.Proofs.Evaluation
import RegMachine.Proofs.Events

/-!
# Assignment code writes one cell

Declarations of a single cell, assignments to a variable or to an element of a
list, and writes to a fixed address have one thing in common: they store one
value in one place. Which place it is, `Stmt.target?` says from the scope and,
for an element whose index is a variable, from memory. `Stmt.writes_target` is the
statement that the code of such an assignment puts the value of its right-hand
side there, cut to the size of the place, and changes no other byte.

The place is known before the value is loaded or found out while the program
runs. In the latter case it waits in `Reg.lhs`, and loading the value must not
touch that register. That is why arithmetic is refused there.
-/

namespace RegMachine

/-! ## Targets -/

/-- **The place that an assignment writes to**: the next free cell for a declaration, the
cell of a variable or of an element, or a fixed address. -/
def Stmt.target? (m : Machine) (s : Scope) (memory : Memory) : Stmt → Option Span
  | declare _ type _ _ => some ⟨s.symbols.nextAddress, type.size⟩
  | assign _ name _ => do
    let v ← s.symbols.vars.get? name
    some ⟨v.address, v.type.size⟩
  | assignAt line name index _ => do
    let v ← s.symbols.vars.get? name
    match v.type with
    | .list element _ => do
      let i ← (s.env line).eval m memory index
      some ⟨v.address + i * UInt32.ofNat element.size, element.size⟩
    | _ => none
  | poke _ address type _ => some ⟨address, type.size⟩
  | _ => none

/-- **The value that an assignment stores**, which is that of its right-hand side. -/
def Stmt.stored? (m : Machine) (s : Scope) (memory : Memory) : Stmt → Option UInt32
  | declare line _ _ value | assign line _ value | assignAt line _ _ value
  | poke line _ _ value => (s.env line).eval m memory value
  | _ => none

/-- **The statements that assign to one cell.** A declaration is none if it makes a list,
be it of the characters of a string, and neither is an assignment to a list as a
whole. -/
def Stmt.AssignsCell (s : Scope) : Stmt → Prop
  | declare _ type _ value => type.isList = false ∧
    ¬ (type = .scalar .char ∧ ∃ text, value = .str text ∧ 1 < (Text.bytes text).length)
  | assign _ name _ => ∀ v, s.symbols.vars.get? name = some v → v.type.isList = false
  | assignAt .. | poke .. => True
  | _ => False

/-- **A value was written to a place** and nowhere else: read as many bytes wide as the
place, it is the value cut to so many bytes, and every byte outside is as it was. -/
structure Machine.Writes (m : Machine) (place : Span) (value : UInt32) (memory memory' : Memory) :
    Prop where
  holds : m.read memory' place.start place.size = UInt32.ofNat (value.toNat % 256 ^ place.size)
  elsewhere : ∀ address, place.size ≤ (address - place.start).toNat →
    memory' address = memory address

/-- The store of the machine writes one span and nothing else. -/
theorem Machine.writes_write (m : Machine) {place : Span} (hsize : place.size ≤ UInt32.size)
    (value : UInt32) (memory : Memory) :
    m.Writes place value memory (m.write memory place.start place.size value) where
  holds := m.read_write_self memory place.start hsize value
  elsewhere _ h := m.write_of_le memory h value

/-! ## Stores -/

/-- **Code assigns**: wherever it is run, it writes a value to a place, both of which may
depend on memory. -/
def Fragment.Assigns (m : Machine) (place : Memory → Option Span) (value : Memory → Option UInt32)
    (code : Fragment) : Prop :=
  ∃ (span : Memory → Span) (word : Memory → UInt32), (∀ memory, place memory = some (span memory))
    ∧ (∀ memory, value memory = some (word memory)) ∧ (∀ memory, (span memory).size ≤ 4)
    ∧ m.Runs code fun s s' =>
      s'.mem = m.write s.mem (span s.mem).start (span s.mem).size (word s.mem)

/-- Comments do nothing. -/
theorem Fragment.Assigns.comment_cons {m : Machine} {place : Memory → Option Span}
    {value : Memory → Option UInt32} {code : Fragment} (h : code.Assigns m place value)
    (text : String) : Fragment.Assigns m place value (.comment text :: code) := by
  obtain ⟨span, word, hspan, hword, hsize, hrun⟩ := h
  exact ⟨span, word, hspan, hword, hsize, hrun.comment_cons text⟩

theorem Scalar.size_le (ty : Scalar) : ty.size ≤ 4 := by
  cases ty <;> decide

theorem ValueType.size_le (ty : ValueType) : ty.size ≤ 4 := by
  cases ty with
  | scalar ty => exact ty.size_le
  | pointer target => exact Nat.le_refl 4
  | list element len => exact Nat.zero_le 4

namespace Env

variable {m : Machine} {env : Env} {name : String} {e : Expr}

/-- A value that is computed is stored to a fixed address. -/
theorem assigns_storeTo {code : Fragment} {touched : List Reg} {address : UInt32} {width : Width}
    {size : Nat} (hcode : code.Computes m env e .value touched) (hwidth : width.bytes = size)
    (hsize : size ≤ 4) {place : Memory → Option Span}
    (hplace : ∀ memory, place memory = some ⟨address, size⟩) :
    Fragment.Assigns m place (env.eval m · e) (code ++ Fragment.storeTo address width) := by
  obtain ⟨word, hword, hrun⟩ := hcode
  refine ⟨fun _ => ⟨address, size⟩, word, hplace, hword, fun _ => hsize, ?_⟩
  refine hrun.append (m.runs_storeTo address width) fun s t u hload hstore => ?_
  rw [hstore.mem, hload.mem, hload.value, hwidth]

/-- **A store to a fixed address** assigns the value to the cell there. -/
theorem assigns_assign {ty : ValueType} {address : UInt32} {result : Fragment × Stored}
    (hlist : ty.isList = false) (h : env.assign name ty e address = .ok result)
    {place : Memory → Option Span} (hplace : ∀ memory, place memory = some ⟨address, ty.size⟩) :
    Fragment.Assigns m place (env.eval m · e) result.1 := by
  unfold assign at h
  obtain ⟨loaded, hloaded, h⟩ := bind_eq_ok_iff.mp h
  cases h
  exact (assigns_storeTo (computes_load hloaded) (ValueType.bytes_width hlist) ty.size_le
    hplace).comment_cons _

/-- **A computed address waits while the value is loaded.** -/
theorem assigns_assignComputed {base : UInt32} {element : Scalar} {index : Expr} {code : Fragment}
    (h : env.assignComputed name base element index e = .ok code)
    {place : Memory → Option Span}
    (hplace : ∀ memory i, env.eval m memory index = some i →
      place memory = some ⟨base + i * UInt32.ofNat element.size, element.size⟩) :
    Fragment.Assigns m place (env.eval m · e) code := by
  unfold assignComputed at h
  split at h
  next => exact nomatch h
  next hatom =>
    obtain ⟨pointer, hpointer, h⟩ := bind_eq_ok_iff.mp h
    obtain ⟨loaded, hloaded, h⟩ := bind_eq_ok_iff.mp h
    cases h
    obtain ⟨i, hi, hpointer⟩ := runs_elementPointer (m := m) hpointer
    obtain ⟨word, hword, hload⟩ := computes_load (m := m) hloaded
    have htouched : e.touched = scratch := by
      cases e with
      | binary op lhs rhs => exact absurd rfl (hatom op lhs rhs)
      | _ => rfl
    rw [htouched] at hload
    let address (memory : Memory) := base + i memory * UInt32.ofNat element.size
    -- the address is parked, the value is loaded, and the address comes back
    have hparked := (hpointer.comment_cons s!"{name}[{index.tag}] = {e.tag}").append
      (m.runs_mov .lhs .value)
      (T := fun s => s.Loads .lhs (address s.mem) (.lhs :: scratch)) fun s t u hpointer hmov => by
        rw [hpointer.value] at hmov
        exact (hpointer.trans hmov).mono (by decide)
    have hvalue := hparked.append hload
      (T := fun s t => s.Loads .value (word s.mem) (.lhs :: scratch) t
        ∧ t.regs .lhs = address s.mem) fun s t u hparked hload => by
        rw [hparked.mem] at hload
        exact ⟨(hparked.trans hload).mono (by decide), hparked.keep hload (by decide)⟩
    have hstore := (m.runs_mov .addr .lhs).append (m.runs_callStore (.ofScalar element))
      (T := fun s s' => s'.mem = m.write s.mem (s.regs .lhs) element.size (s.regs .value))
      fun s t u hmov hstore => by
        rw [hstore.mem, hmov.mem, hmov.value, hmov.frame .value (by decide), Width.bytes_ofScalar]
    refine ⟨fun memory => ⟨address memory, element.size⟩, word,
      fun memory => hplace memory _ (hi memory), hword, fun _ => element.size_le, ?_⟩
    have hall := hvalue.append hstore
      (T := fun s s' => s'.mem = m.write s.mem (address s.mem) element.size (word s.mem))
      fun s t u ⟨hvalue, haddress⟩ hstore => by
        rw [hstore, hvalue.mem, hvalue.value, haddress]
    simpa only [List.append_assoc, List.cons_append, List.nil_append] using hall

/-- A raw write loads a literal as it is, and anything else at its own type. -/
theorem computes_loadRaw {ty : Scalar} {loaded : Loaded} (h : env.loadRaw ty e = .ok loaded) :
    loaded.code.Computes m env e .value e.touched := by
  unfold loadRaw at h
  dsimp only at h
  split at h
  next value hvalue =>
    obtain ⟨_, -, h⟩ := bind_eq_ok_iff.mp h
    cases h
    refine ⟨fun _ => UInt32.ofInt value.toInt, eval_of_literalValue? hvalue, ?_⟩
    refine (m.runs_loadLiteral .value value _).imp fun s t hload => hload.mono ?_
    cases e with
    | int value | hex value | char code => exact (by decide : [Reg.value] ⊆ scratch)
    | _ => exact nomatch hvalue
  next =>
    obtain ⟨own, -, h⟩ := bind_eq_ok_iff.mp h
    exact computes_load h

/-- A poke assigns to the address that it names. -/
theorem assigns_poke {address : UInt32} {ty : Scalar} {code : Fragment}
    (h : env.poke address ty e = .ok code) :
    Fragment.Assigns m (fun _ => some ⟨address, ty.size⟩) (env.eval m · e) code := by
  unfold poke at h
  obtain ⟨loaded, hloaded, h⟩ := bind_eq_ok_iff.mp h
  cases h
  exact (assigns_storeTo (computes_loadRaw hloaded) (Width.bytes_ofScalar ty) ty.size_le
    fun _ => rfl).comment_cons _

end Env

/-! ## Statements -/

section Statements

variable {m : Machine} {line : Nat} {name : String} {value : Expr} {s s' : Scope}
    {code : Fragment}

theorem assigns_declareCell {type : ValueType} (hlist : type.isList = false)
    (h : CompileM.declareCell line type name value s = .ok code s') :
    code.Assigns m (fun _ => some ⟨s.symbols.nextAddress, type.size⟩)
      ((s.env line).eval m · value) := by
  unfold CompileM.declareCell at h
  simp only [CompileM.bind_eq_ok_iff, CompileM.ensureUndeclared_eq_ok_iff, CompileM.env_eq_ok_iff,
    CompileM.liftM_eq_ok_iff, CompileM.allocate_eq_ok_iff, CompileM.pure_eq_ok_iff] at h
  obtain ⟨_, _, ⟨-, rfl⟩, _, _, ⟨rfl, rfl⟩, loaded, _, ⟨hloaded, rfl⟩, _, _, ⟨-, rfl, rfl⟩, _, _,
    -, rfl, -⟩ := h
  exact (Env.assigns_storeTo (Env.computes_load hloaded) (ValueType.bytes_width hlist)
    type.size_le fun _ => rfl).comment_cons _

theorem assigns_assign (hlist : ∀ v, s.symbols.vars.get? name = some v → v.type.isList = false)
    (h : CompileM.assign line name value s = .ok code s') :
    code.Assigns m ((Stmt.assign line name value).target? m s) ((s.env line).eval m · value) := by
  unfold CompileM.assign at h
  obtain ⟨v, _, hlookup, h⟩ := CompileM.bind_eq_ok_iff.mp h
  obtain ⟨hv, rfl⟩ := CompileM.lookup_eq_ok_iff.mp hlookup
  obtain ⟨_, _, henv, h⟩ := CompileM.bind_eq_ok_iff.mp h
  obtain ⟨rfl, rfl⟩ := CompileM.env_eq_ok_iff.mp henv
  cases htype : v.type with
  | list element len =>
    have hscalar := hlist v hv
    rw [htype] at hscalar
    exact nomatch hscalar
  | scalar | pointer =>
    rw [htype] at h
    obtain ⟨result, _, hassign, h⟩ := CompileM.bind_eq_ok_iff.mp h
    obtain ⟨_, _, -, h⟩ := CompileM.bind_eq_ok_iff.mp h
    obtain ⟨rfl, -⟩ := CompileM.pure_eq_ok_iff.mp h
    refine Env.assigns_assign rfl (CompileM.liftM_eq_ok_iff.mp hassign).1 fun memory => ?_
    rw [Stmt.target?, hv, ← htype]
    rfl

/-- The place of an element is found from the value of the index, be it a literal or
not. -/
theorem Stmt.target?_assignAt {index : Expr} {v : Variable} {element : Scalar} {len : Nat}
    (hv : s.symbols.vars.get? name = some v) (htype : v.type = .list element len)
    {memory : Memory} {i : UInt32} (hi : (s.env line).eval m memory index = some i) :
    (Stmt.assignAt line name index value).target? m s memory
      = some ⟨v.address + i * UInt32.ofNat element.size, element.size⟩ := by
  obtain ⟨address, type, stored⟩ := v
  obtain rfl : type = .list element len := htype
  rw [target?, hv]
  show ((s.env line).eval m memory index >>= fun i => _) = _
  rw [hi]
  rfl

theorem assigns_assignAt {index : Expr}
    (h : CompileM.assignAt line name index value s = .ok code s') :
    code.Assigns m ((Stmt.assignAt line name index value).target? m s)
      ((s.env line).eval m · value) := by
  unfold CompileM.assignAt at h
  obtain ⟨v, _, hlookup, h⟩ := CompileM.bind_eq_ok_iff.mp h
  obtain ⟨hv, rfl⟩ := CompileM.lookup_eq_ok_iff.mp hlookup
  obtain ⟨_, _, henv, h⟩ := CompileM.bind_eq_ok_iff.mp h
  obtain ⟨rfl, rfl⟩ := CompileM.env_eq_ok_iff.mp henv
  cases htype : v.type with
  | list element len =>
    rw [htype] at h
    dsimp only at h
    cases hi : index.literalValue? with
    | some i =>
      rw [hi] at h
      simp only [CompileM.bind_eq_ok_iff, CompileM.liftM_eq_ok_iff, CompileM.pure_eq_ok_iff] at h
      obtain ⟨address, _, ⟨haddress, -⟩, result, _, ⟨hassign, -⟩, _, _, -, rfl, -⟩ := h
      refine Env.assigns_assign rfl hassign fun memory => ?_
      rw [Env.elementAddress_eq haddress]
      exact Stmt.target?_assignAt hv htype (Env.eval_of_literalValue? hi memory)
    | none =>
      rw [hi] at h
      obtain ⟨hassign, -⟩ := CompileM.liftM_eq_ok_iff.mp h
      exact Env.assigns_assignComputed hassign fun memory i hi =>
        Stmt.target?_assignAt hv htype hi
  | scalar | pointer =>
    rw [htype] at h
    exact (CompileM.fail_eq_ok_iff.mp h).elim

theorem assigns_of_assignsCell {stmt : Stmt} (hcell : stmt.AssignsCell s)
    (h : stmt.compile s = .ok code s') :
    code.Assigns m (stmt.target? m s) (stmt.stored? m s) := by
  cases stmt with
  | declare line type name value =>
    have hdeclare : CompileM.declareVariable line type name value
        = CompileM.declareCell line type name value := by
      unfold CompileM.declareVariable
      split
      next => exact nomatch hcell.1
      next text => exact if_neg fun hlong => hcell.2 ⟨rfl, text, rfl, hlong⟩
      next => rfl
    rw [Stmt.compile, hdeclare] at h
    exact assigns_declareCell hcell.1 h
  | assign line name value => exact assigns_assign hcell h
  | assignAt line name index value => exact assigns_assignAt h
  | poke line address type value =>
    obtain ⟨_, _, henv, h⟩ := CompileM.bind_eq_ok_iff.mp h
    obtain ⟨rfl, rfl⟩ := CompileM.env_eq_ok_iff.mp henv
    obtain ⟨hpoke, -⟩ := CompileM.liftM_eq_ok_iff.mp h
    exact Env.assigns_poke hpoke
  | declareList | branch | loop | unroll | function | call | space | embed | unit | directive =>
    exact hcell.elim

end Statements

/-- **Assignment code writes exactly one cell.** If a statement that assigns to one cell is
compiled in a scope, running its code from any state puts the value that its right-hand
side has in memory to its target, cut to the size of the target, and leaves all other
memory as it was. -/
theorem Stmt.writes_target (m : Machine) {stmt : Stmt} {s s' : Scope} {code : Fragment}
    (hcell : stmt.AssignsCell s) (h : stmt.compile s = .ok code s') (offset : Nat)
    (start : Machine.State) :
    ∃ place value after, stmt.target? m s start.mem = some place
      ∧ stmt.stored? m s start.mem = some value ∧ m.exec offset code start = some after
      ∧ m.Writes place value start.mem after.mem := by
  obtain ⟨span, word, hspan, hword, hsize, hrun⟩ := assigns_of_assignsCell (m := m) hcell h
  obtain ⟨after, hexec, hmem⟩ := hrun.exec_eq offset start
  refine ⟨span start.mem, word start.mem, after, hspan start.mem, hword start.mem, hexec, ?_⟩
  rw [hmem]
  exact m.writes_write (Nat.le_trans (hsize start.mem) (by decide)) _ _

/-- A scope with a list, an index and a pointer. -/
def Scope.pointedElement : Scope :=
  { Scope.root {} with
    symbols :=
      { vars := Env.pointedElement.vars, nextAddress := 0x10000008, nextDataAddress := 0 } }

/-- The first element is copied to the one that the index, which is 2, stands for. -/
theorem Stmt.writes_target_pointedElement :
    let stmt := Stmt.assignAt 1 "xs" (.ident "i") (.index "xs" (.int 0))
    stmt.target? .bigEndianSample .pointedElement Env.pointedMemory = some ⟨0x10000002, 1⟩
      ∧ stmt.stored? .bigEndianSample .pointedElement Env.pointedMemory = some 5
      ∧ ∃ code s' after, stmt.compile .pointedElement = .ok code s'
        ∧ Machine.bigEndianSample.exec 0 code ⟨fun _ => 0, Env.pointedMemory⟩ = some after
        ∧ Machine.bigEndianSample.Writes ⟨0x10000002, 1⟩ 5 Env.pointedMemory after.mem := by
  intro stmt
  have htarget : stmt.target? .bigEndianSample .pointedElement Env.pointedMemory
      = some ⟨0x10000002, 1⟩ := by decide
  have hstored : stmt.stored? .bigEndianSample .pointedElement Env.pointedMemory = some 5 := by
    decide
  have hrun : CompileM.succeeds stmt.compile .pointedElement = true := by decide
  obtain ⟨code, h⟩ := CompileM.exists_of_succeeds hrun
  have hcell : stmt.AssignsCell .pointedElement := trivial
  obtain ⟨place, value, after, hplace, hvalue, hexec, hwrites⟩ :=
    Stmt.writes_target .bigEndianSample hcell h 0 ⟨fun _ => 0, Env.pointedMemory⟩
  obtain rfl : _ = place := Option.some.inj (htarget.symm.trans hplace)
  obtain rfl : _ = value := Option.some.inj (hstored.symm.trans hvalue)
  exact ⟨htarget, hstored, code, _, after, h, hexec, hwrites⟩

end RegMachine
