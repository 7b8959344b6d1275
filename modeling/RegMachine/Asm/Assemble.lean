import RegMachine.Asm.ObjectCode
import RegMachine.Asm.Operand

/-!
# Assembling

The second pass. Every line of the text has been read and the whole program
laid out before the first instruction is encoded, so a fault of reading comes
before a fault of layout, and that before a fault of an operand. In one
instruction the number of operands is looked at first, then the operands from
left to right.
-/

namespace RegMachine

/-- Bits 16 to 31 of a value, in two's complement. -/
def highHalf (value : Int64) : UInt16 := UInt16.ofInt (value.toInt / 0x10000)

/-- Bits 0 to 15 of a value, in two's complement. -/
def lowHalf (value : Int64) : UInt16 := UInt16.ofInt value.toInt

/-- **The bytes of an instruction**, the one of a given index in its
layout. -/
def Instruction.encode (layout : Layout) (index : Nat) (i : Instruction) :
    Except AsmError (List UInt8) := do
  let op := i.mnemonic.opcode.byte
  match i.mnemonic.encoding, i.operands with
  | .threeReg, [a, b, c] =>
    let ra ← readRegister i.line a
    let rb ← readRegister i.line b
    let rc ← readRegister i.line c
    return [op, ra, rb, rc]
  | .regImm16, [a, v] =>
    let ra ← readRegister i.line a
    let value ← readValue layout index i.line v
    return op :: ra :: halfWord (lowHalf value)
  | .regMem, [a, b] =>
    let ra ← readRegister i.line a
    let rb ← readRegister i.line b
    return [op, ra, 0, rb]
  | .jump, [a] =>
    let ra ← readJumpTarget i.line a
    return [op, ra, 0, 0]
  | .move, [a, b] =>
    let ra ← readRegister i.line a
    let rb ← readRegister i.line b
    return [op, ra, rb, 0]
  | .loadWord, [a, v] =>
    let ra ← readRegister i.line a
    let value ← readValue layout index i.line v
    return Opcode.ldru.byte :: ra :: halfWord (highHalf value)
      ++ Opcode.ldrl.byte :: ra :: halfWord (lowHalf value)
  | _, operands => throw ⟨i.line, .arityMismatch i.mnemonic operands.length⟩

/-- The bytes of instructions, the first of which has a given index. -/
def encodeFrom (layout : Layout) : Nat → List Instruction → Except AsmError (List CodeByte)
  | _, [] => .ok []
  | index, i :: rest => do
    let bytes ← i.encode layout index
    let more ← encodeFrom layout (index + 1) rest
    return bytes.map (⟨·, i.line⟩) ++ more

/-- **Assemble a text.** -/
def assemble (source : String) : Except AsmError ObjectCode := do
  let lines ← SourceLine.readAll source
  let layout ← Layout.ofLines lines
  let bytes ← encodeFrom layout 0 (lines.filterMap SourceLine.instruction?)
  return ⟨bytes, layout.labels⟩

end RegMachine
