import RegMachine.Isa.Opcode

/-!
# Mnemonics

What can be written at the start of an instruction line: the name of an
opcode, or `ldr`, which loads a whole word. No opcode does that, so `ldr`
stands for two words, one for each half (`ldru`, then `ldrl`).

How the operands are laid out in the word is the mnemonic's *encoding*; the
number of operands and the length in bytes follow from it.
-/

namespace RegMachine

/-- How the operands of an instruction are laid out. -/
inductive Encoding where
  /-- Three registers: opcode, first, second, third. -/
  | threeReg
  /-- A register and a value: opcode, register, high byte, low byte. -/
  | regImm16
  /-- A register and the register that holds an address: opcode, register,
  zero, address register. -/
  | regMem
  /-- One register: opcode, register, zero, zero. -/
  | jump
  /-- Two registers: opcode, first, second, zero. -/
  | move
  /-- A register and a value of a whole word, in two words. -/
  | loadWord
deriving DecidableEq

namespace Encoding

/-- The number of operands. -/
def arity : Encoding → Nat
  | threeReg => 3
  | regImm16 | regMem | move | loadWord => 2
  | jump => 1

/-- The length in bytes. -/
def length : Encoding → Nat
  | loadWord => 8
  | _ => 4

end Encoding

/-- The encoding of an opcode's word. -/
def Opcode.encoding : Opcode → Encoding
  | .add | .sub | .mult | .div | .and | .or | .xor | .not
  | .jpre | .jprne | .jprgt | .jprlt => .threeReg
  | .lsh | .rsh | .ldru | .ldrl
  | .iadd | .isub | .imult | .idiv | .iand | .ior | .ixor | .inot => .regImm16
  | .ldw | .ldh | .ldb | .stw | .sth | .stb => .regMem
  | .jpr => .jump
  | .mov => .move

/-- **A mnemonic**: an opcode's own name, or the load of a whole word. -/
inductive Mnemonic where
  | basic (op : Opcode)
  | ldr
deriving DecidableEq

namespace Mnemonic

/-- All mnemonics. -/
def all : List Mnemonic :=
  Opcode.all.map basic ++ [ldr]

/-- The mnemonic as it is written. -/
def text : Mnemonic → String
  | basic op => op.text
  | ldr => "ldr"

/-- The mnemonic of a given name. -/
def ofText? (s : String) : Option Mnemonic :=
  all.find? fun m => m.text = s

/-- The opcode of the first word. -/
def opcode : Mnemonic → Opcode
  | basic op => op
  | ldr => .ldru

/-- The layout of the operands. -/
def encoding : Mnemonic → Encoding
  | basic op => op.encoding
  | ldr => .loadWord

/-- The number of operands. -/
def arity (m : Mnemonic) : Nat := m.encoding.arity

/-- The length in bytes. -/
def length (m : Mnemonic) : Nat := m.encoding.length

/-- **Reading a written mnemonic gives it back**: no two mnemonics are spelled
alike. -/
@[simp]
theorem ofText?_text (m : Mnemonic) : ofText? m.text = some m := by
  cases m with
  | basic op => cases op <;> decide
  | ldr => decide

/-- An instruction is one word or two. -/
theorem length_eq (m : Mnemonic) : m.length = if m = ldr then 8 else 4 := by
  cases m with
  | basic op => cases op <;> rfl
  | ldr => rfl

end Mnemonic

end RegMachine
