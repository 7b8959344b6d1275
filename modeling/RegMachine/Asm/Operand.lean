import RegMachine.Asm.Layout

/-!
# Operands of assembly text

An operand is a register or a value, depending on its place. A register is
its number, with or without an `r` in front. A value is one of

* `$n`, a forward reference,
* `#n`, a decimal number of 64 bits,
* `.label`, the offset of a label,
* a hexadecimal number of 64 bits, with or without `0x`,
* a bare label, when the operand is no hexadecimal number.

A value is a signed word of 64 bits.
-/

namespace RegMachine

/-- **A hexadecimal number**: an optional minus sign, an optional `0x` or
`0X`, and a signed number in base sixteen. The minus sign negates a word that
is already read, so the least word is its own negation. (With overflow checks
that one negation stops the program.) -/
def readHex? (cs : List Char) : Option Int64 :=
  let afterBase : List Char → List Char
    | '0' :: 'x' :: rest => rest
    | '0' :: 'X' :: rest => rest
    | rest => rest
  match cs with
  | '-' :: rest => (Text.readSigned? 16 (afterBase rest)).map fun v => -v
  | rest => Text.readSigned? 16 (afterBase rest)

/-- **A register**: its number, with or without an `r` in front, in a
byte. -/
def readRegister (line : Nat) (operand : String) : Except AsmError UInt8 :=
  let digits := match operand.toList with
    | 'r' :: rest => rest
    | rest => rest
  match Text.readUnsigned? UInt32.size digits with
  | none => .error ⟨line, .invalidOperand operand .notRegister⟩
  | some n =>
    if n < 256 then .ok (UInt8.ofNat n) else .error ⟨line, .operandRange operand⟩

/-- **A value**, as seen from the instruction of an index. -/
def readValue (layout : Layout) (index line : Nat) (operand : String) : Except AsmError Int64 :=
  match operand.toList with
  | '$' :: rest =>
    match Text.readUnsigned? UInt64.size rest with
    | none => .error ⟨line, .invalidOperand operand .badForward⟩
    | some distance => (layout.forwardTarget index distance line).map Int64.ofNat
  | '#' :: rest =>
    match Text.readSigned? 10 rest with
    | none => .error ⟨line, .invalidOperand operand .badDecimal⟩
    | some value => .ok value
  | '.' :: rest => (layout.labels.resolve (String.ofList rest) line).map Int64.ofNat
  | cs =>
    match readHex? cs with
    | some value => .ok value
    | none => (layout.labels.resolve operand line).map Int64.ofNat

/-- **The target of a jump**, which has to be written with its `r`. -/
def readJumpTarget (line : Nat) (operand : String) : Except AsmError UInt8 :=
  match operand.toList with
  | 'r' :: _ => readRegister line operand
  | _ => .error ⟨line, .invalidOperand operand .notJumpTarget⟩

end RegMachine
