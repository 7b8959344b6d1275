import Mathlib.Algebra.Ring.Nat
import RegMachine.Proofs.Carrier

/-!
# A machine for generated code

What generated code computes is said by running it. A machine has registers of
32 bits and a memory of bytes, and `Machine.exec` runs straight line code on
them. Memory is reached by jumping to a routine, which does its work and
returns to the address in `Reg.ret`. Such a jump is a step of straight line code
exactly if that address is the one behind the jump; the machine is stuck
otherwise.

The instruction set leaves some things open, and so does `Machine`: the order of
the bytes of a word, what a quotient is, what a shift does with amounts beyond
the word, and where labels are placed. What is proved holds for every choice.

Code is used in the middle of other code. So the laws of pieces of code are
about the piece with anything behind it (`Machine.Runs`), and they are put
together with `Machine.Runs.append`.
-/

namespace RegMachine

/-! ## Machines -/

/-- A byte at every address. -/
abbrev Memory := UInt32 → UInt8

/-- The bytes that an access of a width moves. -/
def Width.bytes : Width → Nat
  | byte => 1
  | half => 2
  | word => 4

/-- All memory routines. -/
def Routine.all : List Routine :=
  [.store .byte, .store .half, .store .word, .load .byte, .load .half, .load .word]

theorem Routine.mem_all (r : Routine) : r ∈ all := by
  rcases r with width | width <;> cases width <;> decide

/-- **What the instruction set and the rest of a program decide.** -/
structure Machine where
  /-- Whether the highest byte of a value comes first in memory. -/
  bigEndian : Bool
  /-- The quotient of two words. -/
  div : UInt32 → UInt32 → UInt32
  /-- A word shifted by an amount. -/
  shift : ShiftOp → UInt32 → UInt32 → UInt32
  /-- The address of a label. -/
  place : String → UInt32
  /-- No two routines stand at the same address. -/
  place_injective : ∀ r ∈ Routine.all, ∀ r' ∈ Routine.all, place r.label = place r'.label → r = r'

namespace Machine

variable (m : Machine)

/-! ### Memory -/

/-- Where the byte of an index stands in a value of so many bytes, and equally which
byte stands there. -/
def position (size index : Nat) : Nat :=
  if m.bigEndian then size - 1 - index else index

/-- The number whose lowest bytes are given. -/
def ofBytes (byte : Nat → UInt8) : Nat → Nat
  | 0 => 0
  | count + 1 => ofBytes byte count + 256 ^ count * (byte count).toNat

/-- The byte of an index of a number, from the lowest on. -/
def byteOf (value index : Nat) : UInt8 := UInt8.ofNat (value / 256 ^ index)

/-- **Read so many bytes** from an address on. -/
def read (memory : Memory) (address : UInt32) (size : Nat) : UInt32 :=
  UInt32.ofNat
    (ofBytes (fun index => memory (address + UInt32.ofNat (m.position size index))) size)

/-- **Write so many bytes** of a value from an address on. -/
def write (memory : Memory) (address : UInt32) (size : Nat) (value : UInt32) : Memory :=
  fun other =>
    let offset := (other - address).toNat
    if offset < size then byteOf value.toNat (m.position size offset) else memory other

theorem position_lt {size index : Nat} (h : index < size) : m.position size index < size := by
  unfold position
  split <;> omega

theorem position_position {size index : Nat} (h : index < size) :
    m.position size (m.position size index) = index := by
  unfold position
  split <;> omega

theorem ofBytes_congr {byte byte' : Nat → UInt8} {count : Nat}
    (h : ∀ index < count, byte index = byte' index) :
    ofBytes byte count = ofBytes byte' count := by
  induction count with
  | zero => rfl
  | succ count ih =>
    rw [ofBytes, ofBytes, ih fun index hindex => h index (Nat.lt_succ_of_lt hindex),
      h count (Nat.lt_succ_self count)]

/-- The bytes of a number make up the number, as far as they go. -/
theorem ofBytes_byteOf (value count : Nat) :
    ofBytes (byteOf value) count = value % 256 ^ count := by
  induction count with
  | zero => exact (Nat.mod_one value).symm
  | succ count ih =>
    have hbyte : (byteOf value count).toNat = value / 256 ^ count % 256 := UInt8.toNat_ofNat'
    rw [ofBytes, ih, hbyte, Nat.mod_pow_succ]

/-- **What was written is read back**, cut to the bytes that it was written to. -/
theorem read_write_self (memory : Memory) (address : UInt32) {size : Nat}
    (hsize : size ≤ UInt32.size) (value : UInt32) :
    m.read (m.write memory address size value) address size
      = UInt32.ofNat (value.toNat % 256 ^ size) := by
  unfold read
  rw [← ofBytes_byteOf]
  refine congrArg UInt32.ofNat (ofBytes_congr fun index hindex => ?_)
  have hoffset : (address + UInt32.ofNat (m.position size index) - address).toNat
      = m.position size index := by
    rw [UInt32.add_comm, UInt32.add_sub_cancel]
    exact UInt32.toNat_ofNat_of_lt' (Nat.lt_of_lt_of_le (m.position_lt hindex) hsize)
  unfold write
  dsimp only
  rw [hoffset, if_pos (m.position_lt hindex), m.position_position hindex]

/-- **Nothing else is written.** -/
theorem write_of_le (memory : Memory) {address other : UInt32} {size : Nat}
    (h : size ≤ (other - address).toNat) (value : UInt32) :
    m.write memory address size value other = memory other :=
  if_neg (Nat.not_lt.mpr h)

/-! ### Arithmetic -/

/-- **What an arithmetic operation does.** -/
def alu : AluOp → UInt32 → UInt32 → UInt32
  | .add, a, b => a + b
  | .sub, a, b => a - b
  | .mult, a, b => a * b
  | .div, a, b => m.div a b
  | .and, a, b => a &&& b
  | .or, a, b => a ||| b
  | .xor, a, b => a ^^^ b

/-! ### Steps -/

/-- Registers and memory. -/
structure State where
  regs : Reg → UInt32
  mem : Memory

/-- The state with another value in a register. -/
def State.set (s : State) (rd : Reg) (value : UInt32) : State :=
  { s with regs := fun r => if r = rd then value else s.regs r }

@[simp]
theorem State.regs_set_self (s : State) (rd : Reg) (value : UInt32) :
    (s.set rd value).regs rd = value :=
  if_pos rfl

theorem State.regs_set_of_ne (s : State) {r rd : Reg} (h : r ≠ rd) (value : UInt32) :
    (s.set rd value).regs r = s.regs r :=
  if_neg h

/-- **What a memory routine does** with the address and the value register. -/
def perform : Routine → State → State
  | .store width, s =>
    { s with mem := m.write s.mem (s.regs .addr) width.bytes (s.regs .value) }
  | .load width, s => s.set .value (m.read s.mem (s.regs .addr) width.bytes)

/-- The routine that stands at an address. -/
def routineAt? (address : UInt32) : Option Routine :=
  Routine.all.find? fun r => m.place r.label = address

/-- What an operand means to an instruction at an offset, with instructions behind
it. -/
def operand (offset : Nat) (behind : List Instr) : Operand → UInt32
  | .imm value => UInt32.ofInt value.toInt
  | .hex value => value
  | .label name => m.place name
  | .forward distance =>
    UInt32.ofNat (offset + 8 + Fragment.sizeOf (behind.take (max distance 1 - 1)))

/-- **One step**, of an instruction at an offset with instructions behind it. A jump is
one if it calls a routine that returns behind it. Branches leave straight line
code. -/
def step (offset : Nat) (behind : List Instr) : Instr → State → Option State
  | .ldr rd src, s => some (s.set rd (m.operand offset behind src))
  | .mov rd rs, s => some (s.set rd (s.regs rs))
  | .alu op rd ra rb, s => some (s.set rd (m.alu op (s.regs ra) (s.regs rb)))
  | .aluImm op rd imm, s => some (s.set rd (m.alu op (s.regs rd) imm.toUInt32))
  | .shift op rd amount, s => some (s.set rd (m.shift op (s.regs rd) (UInt32.ofInt amount.toInt)))
  | .store width rs addr, s =>
    some { s with mem := m.write s.mem (s.regs addr) width.bytes (s.regs rs) }
  | .jpr target, s =>
    match m.routineAt? (s.regs target) with
    | some r => if s.regs .ret = UInt32.ofNat (offset + 4) then some (m.perform r s) else none
    | none => none
  | .branch .., _ => none

/-- **Run straight line code** that starts at an offset. Embedded lines have no meaning
here. -/
def exec : Nat → Fragment → State → Option State
  | _, [], s => some s
  | offset, .instr i :: rest, s =>
    (m.step offset (Fragment.instructions rest) i s).bind (exec (offset + i.size) rest)
  | offset, .label _ :: rest, s | offset, .comment _ :: rest, s => exec offset rest s
  | _, .raw _ :: _, _ => none

/-! ## Laws of code -/

/-- **Running a piece of code leads from each state to a related one**, wherever the
piece stands and whatever follows it. -/
def Runs (f : Fragment) (R : State → State → Prop) : Prop :=
  ∀ offset s, ∃ s', R s s' ∧
    ∀ rest, m.exec offset (f ++ rest) s = m.exec (offset + f.size) rest s'

/-- **Running leads to a state with a value in a register.** Memory is as it was, and so
are all registers but those that are touched. -/
structure State.Loads (rd : Reg) (value : UInt32) (touched : List Reg) (s s' : State) : Prop where
  mem : s'.mem = s.mem
  value : s'.regs rd = value
  frame : ∀ r, r ∉ touched → s'.regs r = s.regs r

/-- **Running writes a value to memory**, and touches some registers. -/
structure State.Stores (m : Machine) (address : UInt32) (size : Nat) (value : UInt32)
    (touched : List Reg) (s s' : State) : Prop where
  mem : s'.mem = m.write s.mem address size value
  frame : ∀ r, r ∉ touched → s'.regs r = s.regs r

namespace State

variable {m : Machine} {s t u : State} {rd rd' : Reg} {value value' address : UInt32} {size : Nat}
  {touched touched' : List Reg}

theorem loads_set (s : State) (rd : Reg) (value : UInt32) :
    s.Loads rd value [rd] (s.set rd value) where
  mem := rfl
  value := s.regs_set_self rd value
  frame _ hr := s.regs_set_of_ne (fun heq => hr (List.mem_singleton.mpr heq)) value

theorem Loads.mono (h : s.Loads rd value touched t) (hsub : touched ⊆ touched') :
    s.Loads rd value touched' t :=
  { h with frame := fun r hr => h.frame r fun hmem => hr (hsub hmem) }

/-- A register that a second load does not touch keeps what a first one loaded. -/
theorem Loads.keep (h : s.Loads rd value touched t) (h' : t.Loads rd' value' touched' u)
    (hrd : rd ∉ touched') : u.regs rd = value :=
  (h'.frame rd hrd).trans h.value

protected theorem Loads.trans (h : s.Loads rd value touched t)
    (h' : t.Loads rd' value' touched' u) : s.Loads rd' value' (touched ++ touched') u where
  mem := h'.mem.trans h.mem
  value := h'.value
  frame r hr := by
    rw [List.mem_append, not_or] at hr
    exact (h'.frame r hr.2).trans (h.frame r hr.1)

/-- A value that was loaded is stored. -/
theorem Loads.stores (h : s.Loads rd value touched t)
    (h' : t.Stores m address size value' touched' u) :
    s.Stores m address size value' (touched ++ touched') u where
  mem := by rw [h'.mem, h.mem]
  frame r hr := by
    rw [List.mem_append, not_or] at hr
    exact (h'.frame r hr.2).trans (h.frame r hr.1)

end State

section Runs

variable {m} {f g : Fragment} {R S T : State → State → Prop}

theorem Runs.imp (hf : m.Runs f R) (h : ∀ s t, R s t → S s t) : m.Runs f S := by
  intro offset s
  obtain ⟨t, hR, hrun⟩ := hf offset s
  exact ⟨t, h s t hR, hrun⟩

/-- **Code that follows other code** goes on from where that leads. -/
theorem Runs.append (hf : m.Runs f R) (hg : m.Runs g S) (h : ∀ s t u, R s t → S t u → T s u) :
    m.Runs (f ++ g) T := by
  intro offset s
  obtain ⟨t, hR, hfirst⟩ := hf offset s
  obtain ⟨u, hS, hsecond⟩ := hg (offset + f.size) t
  have hsize : (f ++ g).size = f.size + g.size := by
    unfold Fragment.size Fragment.instructions
    rw [List.filterMap_append]
    induction f.filterMap Item.instr? with
    | nil => exact (Nat.zero_add _).symm
    | cons i is ih => rw [List.cons_append, Fragment.sizeOf, Fragment.sizeOf, ih, Nat.add_assoc]
  refine ⟨u, h s t u hR hS, fun rest => ?_⟩
  rw [List.append_assoc, hfirst, hsecond, hsize, Nat.add_assoc]

/-- Comments do nothing. -/
theorem Runs.comment_cons (hf : m.Runs f R) (text : String) : m.Runs (.comment text :: f) R := hf

/-- What runs with anything behind it runs alone. -/
theorem Runs.exec_eq (hf : m.Runs f R) (offset : Nat) (s : State) :
    ∃ s', m.exec offset f s = some s' ∧ R s s' := by
  obtain ⟨s', hR, hrun⟩ := hf offset s
  refine ⟨s', ?_, hR⟩
  have halone := hrun []
  rw [List.append_nil] at halone
  exact halone

variable (m)

/-- An instruction that sets a register, without regard to where it stands. -/
theorem runs_instr {i : Instr} {rd : Reg} {value : State → UInt32}
    (h : ∀ offset behind s, m.step offset behind i s = some (s.set rd (value s))) :
    m.Runs [.instr i] fun s => s.Loads rd (value s) [rd] := by
  intro offset s
  refine ⟨s.set rd (value s), s.loads_set rd (value s), fun rest => ?_⟩
  rw [List.singleton_append, exec, h]
  rfl

theorem runs_ldr_hex (rd : Reg) (value : UInt32) :
    m.Runs [.ldr rd (.hex value)] (State.Loads rd value [rd]) :=
  m.runs_instr fun _ _ _ => rfl

theorem runs_mov (rd rs : Reg) : m.Runs [.mov rd rs] fun s => s.Loads rd (s.regs rs) [rd] :=
  m.runs_instr fun _ _ _ => rfl

/-- A literal is loaded as a word, in either notation. -/
theorem runs_loadLiteral (rd : Reg) (value : Int64) (hex : Bool) :
    m.Runs [.loadLiteral rd value hex] (State.Loads rd (UInt32.ofInt value.toInt) [rd]) := by
  unfold Item.loadLiteral
  split
  next h =>
    have hword : UInt32.ofNat value.toInt.toNat = UInt32.ofInt value.toInt := by
      simp only [Bool.and_eq_true, decide_eq_true_eq] at h
      rw [← ofInt_natCast, Int.toNat_of_nonneg h.1.2]
    rw [hword]
    exact m.runs_ldr_hex rd _
  next => exact m.runs_instr fun _ _ _ => rfl

/-! ### Memory sequences -/

/-- Each routine is found at its label. -/
theorem routineAt?_place (r : Routine) : m.routineAt? (m.place r.label) = some r := by
  unfold routineAt?
  cases h : Routine.all.find? fun r' => m.place r'.label = m.place r.label with
  | none =>
    have hmiss := List.find?_eq_none.mp h r r.mem_all
    exact absurd (decide_eq_true rfl) hmiss
  | some r' =>
    have hplace : m.place r'.label = m.place r.label := by simpa using List.find?_some h
    rw [m.place_injective r' (List.mem_of_find?_eq_some h) r r.mem_all hplace]

/-- **A call of a routine** loads the two registers that it is made with, and then does
what the routine does. -/
theorem runs_callRoutine (r : Routine) :
    m.Runs (Fragment.callRoutine r) fun s s' =>
      ∃ t : State, s.Loads .routine (m.place r.label) [.routine, .ret] t
        ∧ s' = m.perform r t := by
  intro offset s
  -- the forward reference skips the jump, which takes four bytes
  let back : UInt32 := UInt32.ofNat (offset + 8 + 8 + 4)
  let t : State := (s.set .routine (m.place r.label)).set .ret back
  have hroutine : t.regs .routine = m.place r.label := rfl
  refine ⟨m.perform r t, ⟨t, ?_, rfl⟩, fun rest => ?_⟩
  · exact { (State.loads_set s .routine _).trans (State.loads_set _ .ret back) with
      value := hroutine }
  · have hjump : m.step (offset + 8 + 8) (Fragment.instructions rest) (.jpr .routine) t
        = some (m.perform r t) := by
      have hback : t.regs .ret = UInt32.ofNat (offset + 8 + 8 + 4) := t.regs_set_self .ret back
      rw [step, hroutine, routineAt?_place, hback]
      exact if_pos rfl
    show (m.step (offset + 8 + 8) (Fragment.instructions rest) (.jpr .routine) t).bind
      (m.exec (offset + 8 + 8 + 4) rest) = _
    rw [hjump]
    rfl

/-- Calling a routine that loads. -/
theorem runs_callLoad (width : Width) :
    m.Runs (Fragment.callRoutine (.load width)) fun s =>
      s.Loads .value (m.read s.mem (s.regs .addr) width.bytes) [.routine, .ret, .value] := by
  refine (m.runs_callRoutine (.load width)).imp ?_
  rintro s _ ⟨t, ht, rfl⟩
  have haddr : t.regs .addr = s.regs .addr := ht.frame .addr (by decide)
  have hload := ht.trans (t.loads_set .value (m.read t.mem (t.regs .addr) width.bytes))
  rw [ht.mem, haddr] at hload
  rw [perform, ht.mem, haddr]
  exact hload

/-- Calling a routine that stores. -/
theorem runs_callStore (width : Width) :
    m.Runs (Fragment.callRoutine (.store width)) fun s =>
      s.Stores m (s.regs .addr) width.bytes (s.regs .value) [.routine, .ret] := by
  refine (m.runs_callRoutine (.store width)).imp ?_
  rintro s _ ⟨t, ht, rfl⟩
  have haddr : t.regs .addr = s.regs .addr := ht.frame .addr (by decide)
  have hvalue : t.regs .value = s.regs .value := ht.frame .value (by decide)
  refine ⟨?_, ht.frame⟩
  show m.write t.mem (t.regs .addr) width.bytes (t.regs .value) = _
  rw [ht.mem, haddr, hvalue]

/-- **A load from a fixed address.** -/
theorem runs_loadFrom (address : UInt32) (width : Width) :
    m.Runs (Fragment.loadFrom address width) fun s =>
      s.Loads .value (m.read s.mem address width.bytes) [.addr, .routine, .ret, .value] := by
  refine (m.runs_ldr_hex .addr address).append (m.runs_callLoad width) fun s t u haddr hload => ?_
  rw [haddr.mem, haddr.value] at hload
  exact haddr.trans hload

/-- **A store to a fixed address.** -/
theorem runs_storeTo (address : UInt32) (width : Width) :
    m.Runs (Fragment.storeTo address width) fun s =>
      s.Stores m address width.bytes (s.regs .value) [.addr, .routine, .ret] := by
  refine (m.runs_ldr_hex .addr address).append (m.runs_callStore width)
    fun s t u haddr hstore => ?_
  have hvalue : t.regs .value = s.regs .value := haddr.frame .value (by decide)
  rw [haddr.value, hvalue] at hstore
  exact haddr.stores hstore

end Runs

end Machine

end RegMachine
