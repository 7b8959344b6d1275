import RegMachine.Compile.Load
import RegMachine.Proofs.Machine
import RegMachine.Proofs.Outcome

/-!
# Expression code computes the expression

The value of an expression is said by `Env.eval`, from the addresses and types of
variables and from memory, without regard to code. `Env.load_computes` is the
statement that the code of an expression leaves this value in `Reg.value`, that
it does not write memory, and that it touches no registers but a few.

Which registers it touches is what makes the pieces fit. An operator keeps its left
operand in `Reg.lhs` while the right one is loaded, and a load through a pointer
goes through `Reg.value` twice. So the law of every piece says which registers it
touches (`Machine.State.Loads`), and a value survives in any other.
-/

namespace RegMachine

/-! ## Values of expressions -/

/-- **What an operator does** with two words. -/
def Machine.operate (m : Machine) : BinaryOp → UInt32 → UInt32 → UInt32
  | .add, a, b => a + b
  | .sub, a, b => a - b
  | .mul, a, b => a * b
  | .div, a, b => m.div a b
  | .or, a, b => a ||| b
  | .xor, a, b => a ^^^ b
  | .and, a, b => a &&& b
  | .shiftLeft, a, b => m.shift .left a b
  | .shiftRight, a, b => m.shift .right a b

/-- **The value of an expression**, if it has one: a list has none, and an expression that
names an unknown variable or reads one against its type has none either. A variable
is read as many bytes wide as its type, an element at its distance from the first
one, and a pointer's target at the address that the pointer holds. -/
def Env.eval (m : Machine) (env : Env) (memory : Memory) : Expr → Option UInt32
  | .int value => some (UInt32.ofInt value.toInt)
  | .hex value => some value
  | .char code => some code.toUInt32
  | .str text =>
    match Text.bytes text with
    | [code] => some code.toUInt32
    | _ => none
  | .ident name => do
    let v ← env.vars.get? name
    if v.type.isList then none else some (m.read memory v.address v.type.size)
  | .index list index => do
    let v ← env.vars.get? list
    match v.type with
    | .list element _ => do
      let i ← env.eval m memory index
      some (m.read memory (v.address + i * UInt32.ofNat element.size) element.size)
    | _ => none
  | .addressOf name => do
    let v ← env.vars.get? name
    some v.address
  | .deref name => do
    let v ← env.vars.get? name
    match v.type with
    | .pointer target => some (m.read memory (m.read memory v.address 4) target.size)
    | _ => none
  | .list _ => none
  | .binary op lhs rhs => do
    let a ← env.eval m memory lhs
    let b ← env.eval m memory rhs
    some (m.operate op a b)

/-- The registers that loads are made with. -/
def scratch : List Reg := [.ret, .routine, .addr, .value, .base]

/-- **The registers that the code of an expression may touch.** Only arithmetic needs
those of its operands. -/
def Expr.touched : Expr → List Reg
  | binary _ _ _ => .lhs :: .rhs :: scratch
  | _ => scratch

/-- **Code computes an expression**: wherever it is run, it leaves the value that the
expression has in memory in a register. -/
def Fragment.Computes (m : Machine) (env : Env) (e : Expr) (rd : Reg) (touched : List Reg)
    (code : Fragment) : Prop :=
  ∃ value : Memory → UInt32, (∀ memory, env.eval m memory e = some (value memory))
    ∧ m.Runs code fun s => s.Loads rd (value s.mem) touched

namespace Env

variable {m : Machine} {env : Env} {memory : Memory} {name : String} {v : Variable}

theorem eval_ident (hv : env.vars.get? name = some v) (hscalar : v.type.isList = false) :
    env.eval m memory (.ident name) = some (m.read memory v.address v.type.size) := by
  show (env.vars.get? name >>= fun v =>
    if v.type.isList then none else some (m.read memory v.address v.type.size)) = _
  rw [hv]
  exact if_neg (Bool.eq_false_iff.mp hscalar)

/-- Whatever the index is, an element is read where the value of the index says. -/
theorem eval_index {index : Expr} {element : Scalar} {len : Nat} {i : UInt32}
    (hv : env.vars.get? name = some v) (htype : v.type = .list element len)
    (hindex : env.eval m memory index = some i) :
    env.eval m memory (.index name index)
      = some (m.read memory (v.address + i * UInt32.ofNat element.size) element.size) := by
  obtain ⟨address, type, stored⟩ := v
  obtain rfl : type = .list element len := htype
  show (env.vars.get? name >>= fun v => _) = _
  rw [hv]
  show (env.eval m memory index >>= fun i => _) = _
  rw [hindex]
  rfl

theorem eval_addressOf (hv : env.vars.get? name = some v) :
    env.eval m memory (.addressOf name) = some v.address := by
  show (env.vars.get? name >>= fun v => some v.address) = _
  rw [hv]
  rfl

theorem eval_deref {target : Scalar} (hv : env.vars.get? name = some v)
    (htype : v.type = .pointer target) :
    env.eval m memory (.deref name)
      = some (m.read memory (m.read memory v.address 4) target.size) := by
  obtain ⟨address, type, stored⟩ := v
  obtain rfl : type = .pointer target := htype
  show (env.vars.get? name >>= fun v => _) = _
  rw [hv]
  rfl

theorem eval_binary {op : BinaryOp} {lhs rhs : Expr} {a b : UInt32}
    (ha : env.eval m memory lhs = some a) (hb : env.eval m memory rhs = some b) :
    env.eval m memory (.binary op lhs rhs) = some (m.operate op a b) := by
  show (env.eval m memory lhs >>= fun a => env.eval m memory rhs >>= fun b =>
    some (m.operate op a b)) = _
  rw [ha, hb]
  rfl

end Env

/-! ## Widths and literals -/

theorem Width.bytes_ofScalar (ty : Scalar) : (Width.ofScalar ty).bytes = ty.size := by
  cases ty <;> rfl

/-- A variable is moved at the width of its cell. -/
theorem ValueType.bytes_width {ty : ValueType} (h : ty.isList = false) :
    ty.width.bytes = ty.size := by
  cases ty with
  | scalar ty => exact Width.bytes_ofScalar ty
  | pointer target => rfl
  | list element len => exact nomatch h

namespace Env

open Fragment (Computes)

variable {m : Machine} {env : Env} {name : String} {expected : ValueType} {loaded : Loaded}

theorem eval_of_literalValue? {e : Expr} {value : Int64} (h : e.literalValue? = some value)
    (memory : Memory) : env.eval m memory e = some (UInt32.ofInt value.toInt) := by
  have hsmall : ∀ n, n < UInt32.size → (Int64.ofNat n).toInt = n := by
    intro n hn
    refine Int64.toInt_ofNat_of_lt ?_
    exact Nat.lt_of_lt_of_le hn (by decide)
  cases e with
  | int value' =>
    cases h
    rfl
  | hex word =>
    cases h
    rw [hsmall _ word.toNat_lt, ofInt_natCast, UInt32.ofNat_toNat]
    rfl
  | char code =>
    cases h
    rw [hsmall _ (Nat.lt_trans code.toNat_lt (by decide)), ofInt_natCast]
    refine congrArg some (UInt32.toNat_inj.mp ?_)
    rw [UInt8.toNat_toUInt32, UInt32.toNat_ofNat_of_lt' (Nat.lt_trans code.toNat_lt (by decide))]
  | _ => exact nomatch h

theorem lookup_eq_ok_iff {v : Variable} :
    env.lookup name = .ok v ↔ env.vars.get? name = some v := by
  unfold lookup
  cases env.vars.get? name <;> simp [fail]

/-! ## Elements of lists -/

/-- An index that is known is multiplied while compiling. -/
theorem elementAddress_eq {base address : UInt32} {element : Scalar} {len : Nat} {index : Int64}
    (h : env.elementAddress name base element len index = .ok address) :
    address = base + UInt32.ofInt index.toInt * UInt32.ofNat element.size := by
  unfold elementAddress at h
  split at h
  next hbounds =>
    cases h
    rw [UInt32.ofNat_mul, ← ofInt_natCast index.toInt.toNat, Int.toNat_of_nonneg hbounds.1]
  next => exact nomatch h

/-- **The address of an element** is computed from an index that is read from its
variable. -/
theorem runs_elementPointer {base : UInt32} {element : Scalar} {index : Expr} {code : Fragment}
    (h : env.elementPointer name base element index = .ok code) :
    ∃ value : Memory → UInt32, (∀ memory, env.eval m memory index = some (value memory))
      ∧ m.Runs code fun s =>
        s.Loads .value (base + value s.mem * UInt32.ofNat element.size) scratch := by
  unfold elementPointer at h
  split at h
  next index =>
    obtain ⟨v, hv, h⟩ := bind_eq_ok_iff.mp h
    rw [lookup_eq_ok_iff] at hv
    split at h
    next => exact nomatch h
    next hlist =>
      cases h
      have hscalar : v.type.isList = false := Bool.eq_false_iff.mpr hlist
      refine ⟨fun memory => m.read memory v.address v.type.size,
        fun memory => eval_ident hv hscalar, ?_⟩
      have hread := m.runs_loadFrom v.address v.type.width
      rw [ValueType.bytes_width hscalar] at hread
      have hscale : m.Runs [.instr (.aluImm .mult .value (UInt16.ofNat element.size))] fun s =>
          s.Loads .value (s.regs .value * UInt32.ofNat element.size) [.value] := by
        cases element <;> exact m.runs_instr fun _ _ _ => rfl
      have hadd : m.Runs [.instr (.alu .add .value .base .value)] fun s =>
          s.Loads .value (s.regs .base + s.regs .value) [.value] :=
        m.runs_instr fun _ _ _ => rfl
      have hbase := (m.runs_ldr_hex .base base).append hadd
        (T := fun s => s.Loads .value (base + s.regs .value) [.base, .value])
        fun s t u hbase hadd => by
          rw [hbase.value, hbase.frame .value (by decide)] at hadd
          exact hbase.trans hadd
      have hsum := hscale.append hbase
        (T := fun s => s.Loads .value (base + s.regs .value * UInt32.ofNat element.size)
          [.value, .base, .value]) fun s t u hscale hbase => by
          rw [hscale.value] at hbase
          exact hscale.trans hbase
      refine hread.append hsum fun s t u hread hsum => ?_
      rw [hread.value] at hsum
      exact (hread.trans hsum).mono (by decide)
  next => exact nomatch h

/-- A load through an address that was computed. -/
theorem runs_loadThrough {code : Fragment} (address : Memory → UInt32)
    (h : m.Runs code fun s => s.Loads .value (address s.mem) scratch) (ty : Scalar) :
    m.Runs (code ++ .mov .addr .value :: Fragment.callRoutine (.load (.ofScalar ty))) fun s =>
      s.Loads .value (m.read s.mem (address s.mem) ty.size) scratch := by
  have hcall := (m.runs_mov .addr .value).append (m.runs_callLoad (.ofScalar ty))
    (T := fun s => s.Loads .value (m.read s.mem (s.regs .value) ty.size)
      [.addr, .routine, .ret, .value]) fun s t u hmov hload => by
      rw [hmov.value, hmov.mem, Width.bytes_ofScalar] at hload
      exact hmov.trans hload
  refine h.append hcall fun s t u haddress hload => ?_
  rw [haddress.value, haddress.mem] at hload
  exact (haddress.trans hload).mono (by decide)

/-! ## Atomic expressions -/

theorem computes_loadLiteral {e : Expr} {found : Scalar} {value : Int64}
    (heval : ∀ memory, env.eval m memory e = some (UInt32.ofInt value.toInt))
    (h : env.loadLiteral name expected found value = .ok loaded) :
    loaded.code.Computes m env e .value scratch := by
  unfold loadLiteral at h
  split at h
  next =>
    obtain ⟨_, -, h⟩ := bind_eq_ok_iff.mp h
    cases h
    exact ⟨fun _ => UInt32.ofInt value.toInt, heval,
      (m.runs_loadLiteral .value value _).imp fun s t hload => hload.mono (by decide)⟩
  next => exact nomatch h

theorem computes_loadVariable {source : String}
    (h : env.loadVariable name expected source = .ok loaded) :
    loaded.code.Computes m env (.ident source) .value scratch := by
  obtain ⟨v, hv, h⟩ := bind_eq_ok_iff.mp h
  rw [lookup_eq_ok_iff] at hv
  split at h
  next hscalar =>
    cases h
    refine ⟨fun memory => m.read memory v.address v.type.size,
      fun memory => eval_ident hv hscalar.2, ?_⟩
    have hread := m.runs_loadFrom v.address v.type.width
    rw [ValueType.bytes_width hscalar.2] at hread
    exact hread.imp fun s t hload => hload.mono (by decide)
  next => exact nomatch h

theorem computes_loadElement {list : String} {index : Expr}
    (h : env.loadElement name expected list index = .ok loaded) :
    loaded.code.Computes m env (.index list index) .value scratch := by
  obtain ⟨v, hv, h⟩ := bind_eq_ok_iff.mp h
  rw [lookup_eq_ok_iff] at hv
  split at h
  next element len htype =>
    split at h
    next =>
      split at h
      next i hi =>
        obtain ⟨address, haddress, h⟩ := bind_eq_ok_iff.mp h
        cases h
        refine ⟨fun memory => m.read memory address element.size, fun memory => ?_, ?_⟩
        · rw [elementAddress_eq haddress]
          exact eval_index hv htype (eval_of_literalValue? hi memory)
        · have hread := m.runs_loadFrom address (.ofScalar element)
          rw [Width.bytes_ofScalar] at hread
          exact hread.imp fun s t hload => hload.mono (by decide)
      next =>
        obtain ⟨pointer, hpointer, h⟩ := bind_eq_ok_iff.mp h
        cases h
        obtain ⟨value, hvalue, hrun⟩ := runs_elementPointer (m := m) hpointer
        let address (memory : Memory) := v.address + value memory * UInt32.ofNat element.size
        exact ⟨fun memory => m.read memory (address memory) element.size,
          fun memory => eval_index hv htype (hvalue memory),
          runs_loadThrough address hrun element⟩
    next => exact nomatch h
  next => exact nomatch h

theorem computes_loadAddress {target : String}
    (h : env.loadAddress name expected target = .ok loaded) :
    loaded.code.Computes m env (.addressOf target) .value scratch := by
  obtain ⟨v, hv, h⟩ := bind_eq_ok_iff.mp h
  rw [lookup_eq_ok_iff] at hv
  split at h
  next =>
    cases h
    exact ⟨fun _ => v.address, fun memory => eval_addressOf hv,
      (m.runs_ldr_hex .value v.address).imp fun s t hload => hload.mono (by decide)⟩
  next => exact nomatch h

theorem computes_loadTarget {pointer : String}
    (h : env.loadTarget name expected pointer = .ok loaded) :
    loaded.code.Computes m env (.deref pointer) .value scratch := by
  obtain ⟨v, hv, h⟩ := bind_eq_ok_iff.mp h
  rw [lookup_eq_ok_iff] at hv
  split at h
  next target htype =>
    split at h
    next =>
      cases h
      have hpointer : m.Runs (Fragment.loadFrom v.address .word) fun s =>
          s.Loads .value (m.read s.mem v.address 4) scratch :=
        (m.runs_loadFrom v.address .word).imp fun s t hload => hload.mono (by decide)
      exact ⟨fun memory => m.read memory (m.read memory v.address 4) target.size,
        fun memory => eval_deref hv htype,
        runs_loadThrough (fun memory => m.read memory v.address 4) hpointer target⟩
    next => exact nomatch h
  next => exact nomatch h

/-- **The code of an atomic expression computes it.** -/
theorem computes_loadAtom {e : Expr} (h : env.loadAtom name expected e = .ok loaded) :
    loaded.code.Computes m env e .value scratch := by
  cases e with
  | int value => exact computes_loadLiteral (eval_of_literalValue? rfl) h
  | hex value => exact computes_loadLiteral (eval_of_literalValue? rfl) h
  | char code => exact computes_loadLiteral (eval_of_literalValue? rfl) h
  | str text =>
    rw [loadAtom] at h
    split at h
    next code hbytes =>
      refine computes_loadLiteral (fun memory => ?_) h
      have hchar : env.eval m memory (.char code)
          = some (UInt32.ofInt (Int64.ofNat code.toNat).toInt) := eval_of_literalValue? rfl memory
      rw [← hchar]
      show (match Text.bytes text with
        | [code] => some code.toUInt32
        | _ => none) = some code.toUInt32
      rw [hbytes]
    next => exact nomatch h
  | ident source => exact computes_loadVariable h
  | index list index => exact computes_loadElement h
  | addressOf target => exact computes_loadAddress h
  | deref pointer => exact computes_loadTarget h
  | list items => exact nomatch h
  | binary op lhs rhs => exact nomatch h

/-! ## Operators -/

/-- **An operand is computed into its register**, and no other operand is touched. -/
theorem computes_loadInto {cell : Scalar} {rd : Reg} {e : Expr} {code : Fragment}
    (h : env.loadInto name cell rd e = .ok code) :
    code.Computes m env e rd (rd :: scratch) := by
  unfold loadInto at h
  split at h
  next => exact nomatch h
  next => exact nomatch h
  next =>
    split at h
    next value hvalue =>
      obtain ⟨_, -, h⟩ := bind_eq_ok_iff.mp h
      cases h
      refine ⟨fun _ => UInt32.ofInt value.toInt, eval_of_literalValue? hvalue, ?_⟩
      exact (m.runs_loadLiteral rd value _).imp fun s t hload =>
        hload.mono (List.cons_subset_cons rd (List.nil_subset scratch))
    next =>
      obtain ⟨ty, -, h⟩ := bind_eq_ok_iff.mp h
      split at h
      next => exact nomatch h
      next =>
        obtain ⟨loaded, hloaded, h⟩ := bind_eq_ok_iff.mp h
        cases h
        obtain ⟨value, hvalue, hrun⟩ := computes_loadAtom (m := m) hloaded
        refine ⟨value, hvalue, hrun.append (m.runs_mov rd .value) fun s t u hload hmov => ?_⟩
        rw [hload.value] at hmov
        refine (hload.trans hmov).mono ?_
        exact List.append_subset.mpr ⟨List.subset_cons_self rd scratch,
          List.cons_subset_cons rd (List.nil_subset scratch)⟩

/-- The result of an operation is copied to where values are expected. -/
theorem runs_result {op : Item} {value : Machine.State → UInt32}
    (h : m.Runs [op] fun s => s.Loads .lhs (value s) [.lhs]) :
    m.Runs [op, .mov .value .lhs] fun s => s.Loads .value (value s) [.lhs, .value] := by
  refine h.append (m.runs_mov .value .lhs) fun s t u hop hmov => ?_
  rw [hop.value] at hmov
  exact hop.trans hmov

/-- **The code of an operator computes it.** The left operand stays in its register while
the right one is loaded. -/
theorem computes_arithmetic {op : BinaryOp} {lhs rhs : Expr}
    (h : env.arithmetic name expected op lhs rhs = .ok loaded) :
    loaded.code.Computes m env (.binary op lhs rhs) .value (.lhs :: .rhs :: scratch) := by
  unfold arithmetic at h
  split at h
  next =>
    obtain ⟨_, -, h⟩ := bind_eq_ok_iff.mp h
    exact nomatch h
  next =>
    obtain ⟨left, hleft, h⟩ := bind_eq_ok_iff.mp h
    obtain ⟨a, ha, hleft⟩ := computes_loadInto (m := m) hleft
    split at h
    next shift hlower =>
      split at h
      next amount hamount =>
        cases h
        have hb : ∀ memory, env.eval m memory rhs = some (UInt32.ofInt amount.toInt) :=
          eval_of_literalValue? hamount
        have hop : m.Runs [.instr (.shift shift .lhs amount)] fun s =>
            s.Loads .lhs (m.operate op (s.regs .lhs) (UInt32.ofInt amount.toInt)) [.lhs] := by
          refine m.runs_instr fun _ _ s => ?_
          cases op <;> cases hlower <;> rfl
        have hresult := runs_result hop
        refine ⟨fun memory => m.operate op (a memory) (UInt32.ofInt amount.toInt),
          fun memory => eval_binary (ha memory) (hb memory),
          hleft.append hresult fun s t u hleft hresult => ?_⟩
        rw [hleft.value] at hresult
        exact (hleft.trans hresult).mono (by decide)
      next => exact nomatch h
    next alu hlower =>
      obtain ⟨right, hright, h⟩ := bind_eq_ok_iff.mp h
      cases h
      obtain ⟨b, hb, hright⟩ := computes_loadInto (m := m) hright
      have hop : m.Runs [.instr (.alu alu .lhs .lhs .rhs)] fun s =>
          s.Loads .lhs (m.operate op (s.regs .lhs) (s.regs .rhs)) [.lhs] := by
        refine m.runs_instr fun _ _ s => ?_
        cases op <;> cases hlower <;> rfl
      have hresult := runs_result hop
      have hoperands := hleft.append hright
        (T := fun s t =>
          s.Loads .rhs (b s.mem) (.lhs :: .rhs :: scratch) t ∧ t.regs .lhs = a s.mem)
        fun s t u hleft hright => by
          rw [hleft.mem] at hright
          exact ⟨(hleft.trans hright).mono (by decide), hleft.keep hright (by decide)⟩
      refine ⟨fun memory => m.operate op (a memory) (b memory),
        fun memory => eval_binary (ha memory) (hb memory),
        hoperands.append hresult fun s t u ⟨hoperands, ha⟩ hresult => ?_⟩
      rw [ha, hoperands.value] at hresult
      exact (hoperands.trans hresult).mono (by decide)

/-! ## Loads -/

theorem computes_load {e : Expr} (h : env.load name expected e = .ok loaded) :
    loaded.code.Computes m env e .value e.touched := by
  unfold load at h
  split at h
  next => exact computes_arithmetic h
  next =>
    obtain ⟨_, -, h⟩ := bind_eq_ok_iff.mp h
    exact nomatch h
  next =>
    have hatom := computes_loadAtom (m := m) h
    cases e with
    | binary op lhs rhs => exact nomatch h
    | _ => exact hatom

/-- **The code of an expression computes the expression.** Wherever it stands and in
whatever state it is run, it ends with the value that the expression has in memory in
`Reg.value`. Memory stays as it was, and so do all registers but those that loads are
made with and, for arithmetic only, those of the operands. The code that loads an
operand into a register of its own does the same for that register. -/
theorem load_computes (m : Machine) (env : Env) (name : String) (e : Expr) :
    (∀ expected loaded, env.load name expected e = .ok loaded → ∀ offset (s : Machine.State),
      ∃ value s', env.eval m s.mem e = some value ∧ m.exec offset loaded.code s = some s'
        ∧ s.Loads .value value e.touched s')
    ∧ ∀ cell rd code, env.loadInto name cell rd e = .ok code → ∀ offset (s : Machine.State),
      ∃ value s', env.eval m s.mem e = some value ∧ m.exec offset code s = some s'
        ∧ s.Loads rd value (rd :: scratch) s' := by
  refine ⟨fun expected loaded h offset s => ?_, fun cell rd code h offset s => ?_⟩
  · obtain ⟨value, hvalue, hrun⟩ := computes_load (m := m) h
    obtain ⟨s', hexec, hloads⟩ := hrun.exec_eq offset s
    exact ⟨value s.mem, s', hvalue s.mem, hexec, hloads⟩
  · obtain ⟨value, hvalue, hrun⟩ := computes_loadInto (m := m) h
    obtain ⟨s', hexec, hloads⟩ := hrun.exec_eq offset s
    exact ⟨value s.mem, s', hvalue s.mem, hexec, hloads⟩

/-- A list of characters, a character that is used as an index, and a pointer. -/
def pointedElement : Env where
  vars := (((∅ : Table Variable).insert "xs" ⟨0x10000000, .list .char 3, .zeroed⟩).insert "i"
    ⟨0x10000003, .scalar .char, .zeroed⟩).insert "p" ⟨0x10000004, .pointer .int, .zeroed⟩
  line := 1

/-- Memory in which the list holds 5, 6 and 7, the index is 2, and the pointer points
behind itself, at a word whose bytes are 0, 0, 1 and 4. -/
def pointedMemory : Memory := fun address =>
  ([5, 6, 7, 2, 0x10, 0, 0, 8, 0, 0, 1, 4] : List UInt8).getD (address - 0x10000000).toNat 0

end Env

/-- A machine that has the highest byte of a word first, and the routines in a row. -/
def Machine.bigEndianSample : Machine where
  bigEndian := true
  div a b := a / b
  shift
    | .left, a, b => a <<< b
    | .right, a, b => a >>> b
  place
    | "lmemb" => 12
    | "lmemh" => 20
    | "lmemw" => 28
    | "cmemb" => 36
    | "cmemh" => 44
    | "cmemw" => 52
    | _ => 0
  place_injective := by decide

theorem Env.load_computes_pointedElement :
    Env.pointedElement.eval .bigEndianSample Env.pointedMemory
        (.binary .sub (.deref "p") (.index "xs" (.ident "i"))) = some 0xfd
      ∧ ∃ loaded, Env.pointedElement.load "y" (.scalar .int)
          (.binary .sub (.deref "p") (.index "xs" (.ident "i"))) = .ok loaded
        ∧ ∃ value s', Env.pointedElement.eval .bigEndianSample Env.pointedMemory
            (.binary .sub (.deref "p") (.index "xs" (.ident "i"))) = some value
          ∧ Machine.bigEndianSample.exec 0 loaded.code ⟨fun _ => 0, Env.pointedMemory⟩ = some s'
          ∧ Machine.State.Loads .value value (.lhs :: .rhs :: scratch)
            ⟨fun _ => 0, Env.pointedMemory⟩ s' := by
  have hloads : (Env.pointedElement.load "y" (.scalar .int)
      (.binary .sub (.deref "p") (.index "xs" (.ident "i")))).isOk = true := by decide
  refine ⟨by decide, ?_⟩
  cases h : Env.pointedElement.load "y" (.scalar .int)
      (.binary .sub (.deref "p") (.index "xs" (.ident "i"))) with
  | error e =>
    rw [h] at hloads
    exact nomatch hloads
  | ok loaded =>
    exact ⟨loaded, rfl,
      (Env.load_computes .bigEndianSample Env.pointedElement "y" _).1 _ loaded h 0
      ⟨fun _ => 0, Env.pointedMemory⟩⟩

end RegMachine
