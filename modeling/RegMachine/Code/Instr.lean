import RegMachine.Isa.Mnemonic
import RegMachine.Text.Numeral
import RegMachine.ValueType

/-!
# Generated instructions

Code is generated as typed instructions and turned into text only at the end.
The text of an instruction is its mnemonic followed by its operands, in the
notation that the assembler reads back: registers as `r20`, decimal numbers
behind `#`, addresses behind `0x`, labels behind a point, forward references
behind `$`. The immediate of an arithmetic instruction is the one number
written in bare hexadecimal digits.
-/

namespace RegMachine

/-! ## Registers -/

/-- A machine register. -/
structure Reg where
  index : UInt8
deriving DecidableEq

namespace Reg

/-- The return address of routines and functions. -/
def ret : Reg := ⟨0⟩

/-- The address of the memory routine that is called. -/
def routine : Reg := ⟨1⟩

/-- The address of the output device. -/
def device : Reg := ⟨5⟩

/-- The memory address that a memory routine works on. -/
def addr : Reg := ⟨11⟩

/-- The left operand and the result of arithmetic. -/
def lhs : Reg := ⟨12⟩

/-- The right operand of arithmetic. -/
def rhs : Reg := ⟨13⟩

/-- The target of a jump over or back to a block. -/
def skip : Reg := ⟨16⟩

/-- The target of a conditional branch. -/
def branch : Reg := ⟨17⟩

/-- The value that is loaded or stored. -/
def value : Reg := ⟨20⟩

/-- The first address of a list whose element is addressed. -/
def base : Reg := ⟨21⟩

/-- The address of the function that is called. -/
def call : Reg := ⟨23⟩

/-- The left side of a comparison. -/
def cmpLhs : Reg := ⟨26⟩

/-- The right side of a comparison. -/
def cmpRhs : Reg := ⟨30⟩

/-- The register as it is written. -/
def text (r : Reg) : String := "r" ++ Text.decimal r.index.toNat

end Reg

/-! ## Operands -/

/-- A value operand. -/
inductive Operand where
  /-- A number, in decimal. -/
  | imm (value : Int64)
  /-- A number or address, in hexadecimal. -/
  | hex (value : UInt32)
  /-- The address of a label. -/
  | label (name : String)
  /-- The address behind the next `distance - 1` instructions. -/
  | forward (distance : Nat)
deriving DecidableEq

/-- The operand as it is written. -/
def Operand.text : Operand → String
  | imm value => "#" ++ Text.signedDecimal value.toInt
  | hex value => Text.hexAddress value
  | label name => "." ++ name
  | forward distance => "$" ++ Text.decimal distance

/-! ## Operations -/

/-- Arithmetic on registers. -/
inductive AluOp where
  | add | sub | mult | div | and | or | xor
deriving DecidableEq

namespace AluOp

/-- All arithmetic operations. -/
def all : List AluOp := [add, sub, mult, div, and, or, xor]

/-- The opcode on three registers. -/
def opcode : AluOp → Opcode
  | add => .add
  | sub => .sub
  | mult => .mult
  | div => .div
  | and => .and
  | or => .or
  | xor => .xor

/-- The opcode on a register and an immediate. -/
def immediate : AluOp → Opcode
  | add => .iadd
  | sub => .isub
  | mult => .imult
  | div => .idiv
  | and => .iand
  | or => .ior
  | xor => .ixor

end AluOp

/-- The direction of a shift. -/
inductive ShiftOp where
  | left | right
deriving DecidableEq

/-- The opcode of a shift. -/
def ShiftOp.opcode : ShiftOp → Opcode
  | left => .lsh
  | right => .rsh

/-- The condition of a jump. -/
inductive BranchCond where
  | equal | notEqual | greater | less
deriving DecidableEq

/-- The opcode of a conditional jump. -/
def BranchCond.opcode : BranchCond → Opcode
  | equal => .jpre
  | notEqual => .jprne
  | greater => .jprgt
  | less => .jprlt

/-- The width of a memory access. -/
inductive Width where
  | byte | half | word
deriving DecidableEq

namespace Width

/-- The width for a value of so many bytes. -/
def ofSize : Nat → Width
  | 1 => byte
  | 2 => half
  | _ => word

/-- The width of a scalar. -/
def ofScalar (ty : Scalar) : Width := ofSize ty.size

/-- The letter of a width. -/
def suffix : Width → String
  | byte => "b"
  | half => "h"
  | word => "w"

/-- The opcode that stores so much. -/
def store : Width → Opcode
  | byte => .stb
  | half => .sth
  | word => .stw

end Width

/-- **The memory routines.** A routine works on the address in `Reg.addr` and
the value in `Reg.value`, and returns through `Reg.ret`. -/
inductive Routine where
  /-- Write the value to the address. -/
  | store (width : Width)
  /-- Read the value from the address. -/
  | load (width : Width)
deriving DecidableEq

/-- The label of a routine. -/
def Routine.label : Routine → String
  | store width => "lmem" ++ width.suffix
  | load width => "cmem" ++ width.suffix

/-! ## Instructions -/

/-- A machine instruction. -/
inductive Instr where
  /-- Load a whole word. -/
  | ldr (rd : Reg) (src : Operand)
  /-- Copy a register. -/
  | mov (rd rs : Reg)
  /-- Jump. -/
  | jpr (target : Reg)
  /-- Jump if a comparison holds. -/
  | branch (cond : BranchCond) (target lhs rhs : Reg)
  /-- Arithmetic on two registers. -/
  | alu (op : AluOp) (rd ra rb : Reg)
  /-- Arithmetic on a register and an immediate. -/
  | aluImm (op : AluOp) (rd : Reg) (imm : UInt16)
  /-- Shift a register. -/
  | shift (op : ShiftOp) (rd : Reg) (amount : Int64)
  /-- Store a register to the address in another. -/
  | store (width : Width) (rs addr : Reg)
deriving DecidableEq

namespace Instr

/-- The mnemonic of an instruction. -/
def mnemonic : Instr → Mnemonic
  | ldr .. => .ldr
  | mov .. => .basic .mov
  | jpr .. => .basic .jpr
  | branch cond .. => .basic cond.opcode
  | alu op .. => .basic op.opcode
  | aluImm op .. => .basic op.immediate
  | shift op .. => .basic op.opcode
  | store width .. => .basic width.store

/-- The operands of an instruction as they are written. -/
def operands : Instr → List String
  | ldr rd src => [rd.text, src.text]
  | mov rd rs => [rd.text, rs.text]
  | jpr target => [target.text]
  | branch _ target lhs rhs => [target.text, lhs.text, rhs.text]
  | alu _ rd ra rb => [rd.text, ra.text, rb.text]
  | aluImm _ rd imm => [rd.text, Text.hexDigits imm.toNat]
  | shift _ rd amount => [rd.text, (Operand.imm amount).text]
  | store _ rs addr => [rs.text, addr.text]

/-- **The instruction as it is written.** -/
def text (i : Instr) : String :=
  i.mnemonic.text ++ " " ++ ", ".intercalate i.operands

end Instr

end RegMachine
