/-!
# Opcodes

The machine has thirty-two opcodes, each one byte. An instruction word is
four bytes, of which the opcode is the first. The bytes leave gaps, so not
every byte is an opcode.
-/

namespace RegMachine

/-- The opcodes of the machine. -/
inductive Opcode where
  | add | sub | mult | div | and | or | xor | not
  | lsh | rsh | ldru | ldrl
  | ldw | ldh | ldb | stw | sth | stb
  | jpr | jpre | jprne | jprgt | jprlt | mov
  | iadd | isub | imult | idiv | iand | ior | ixor | inot
deriving DecidableEq

namespace Opcode

/-- All opcodes, in the order of their bytes. -/
def all : List Opcode :=
  [add, sub, mult, div, and, or, xor, not, lsh, rsh, ldru, ldrl, ldw, ldh, ldb, stw, sth, stb,
    jpr, jpre, jprne, jprgt, jprlt, mov, iadd, isub, imult, idiv, iand, ior, ixor, inot]

/-- The byte of an opcode. -/
def byte : Opcode → UInt8
  | add => 0x00
  | sub => 0x01
  | mult => 0x02
  | div => 0x03
  | and => 0x04
  | or => 0x05
  | xor => 0x06
  | not => 0x07
  | lsh => 0x08
  | rsh => 0x09
  | ldru => 0x10
  | ldrl => 0x11
  | ldw => 0x12
  | ldh => 0x13
  | ldb => 0x14
  | stw => 0x15
  | sth => 0x16
  | stb => 0x17
  | jpr => 0x18
  | jpre => 0x19
  | jprne => 0x20
  | jprgt => 0x21
  | jprlt => 0x22
  | mov => 0x23
  | iadd => 0x30
  | isub => 0x31
  | imult => 0x32
  | idiv => 0x33
  | iand => 0x34
  | ior => 0x35
  | ixor => 0x36
  | inot => 0x37

/-- **The opcode of a byte**, if the byte is one. -/
def ofByte? (b : UInt8) : Option Opcode :=
  all.find? fun op => op.byte = b

/-- The opcode as it is written. -/
def text : Opcode → String
  | add => "add"
  | sub => "sub"
  | mult => "mult"
  | div => "div"
  | and => "and"
  | or => "or"
  | xor => "xor"
  | not => "not"
  | lsh => "lsh"
  | rsh => "rsh"
  | ldru => "ldru"
  | ldrl => "ldrl"
  | ldw => "ldw"
  | ldh => "ldh"
  | ldb => "ldb"
  | stw => "stw"
  | sth => "sth"
  | stb => "stb"
  | jpr => "jpr"
  | jpre => "jpre"
  | jprne => "jprne"
  | jprgt => "jprgt"
  | jprlt => "jprlt"
  | mov => "mov"
  | iadd => "iadd"
  | isub => "isub"
  | imult => "imult"
  | idiv => "idiv"
  | iand => "iand"
  | ior => "ior"
  | ixor => "ixor"
  | inot => "inot"

/-- **Decoding a byte gives back the opcode it was written for**: no two
opcodes share a byte. -/
@[simp]
theorem ofByte?_byte (op : Opcode) : ofByte? op.byte = some op := by
  cases op <;> rfl

end Opcode

end RegMachine
