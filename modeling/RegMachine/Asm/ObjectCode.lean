import RegMachine.Asm.LabelTable

/-!
# Object code

The result of assembling: the bytes of the program, each with the line of the
text that it was written for, and the labels that were resolved.
-/

namespace RegMachine

/-- A byte of the program and the line it was written for. -/
structure CodeByte where
  value : UInt8
  line : Nat
deriving DecidableEq

/-- An assembled program. -/
structure ObjectCode where
  bytes : List CodeByte
  labels : LabelTable
deriving DecidableEq

/-- The two bytes of a half word, the high one first. -/
def halfWord (value : UInt16) : List UInt8 :=
  [(value >>> 8).toUInt8, value.toUInt8]

namespace ObjectCode

/-- The program without bytes and labels. -/
def empty : ObjectCode := ⟨[], ∅⟩

/-- **Append bytes** that were written for one line. -/
def write (o : ObjectCode) (values : List UInt8) (line : Nat) : ObjectCode :=
  { o with bytes := o.bytes ++ values.map (⟨·, line⟩) }

/-- The values of the bytes. -/
def code (o : ObjectCode) : List UInt8 := o.bytes.map (·.value)

/-- The line of each byte. -/
def lines (o : ObjectCode) : List Nat := o.bytes.map (·.line)

/-- The number of bytes. -/
def size (o : ObjectCode) : Nat := o.bytes.length

/-- The line that the byte at an offset was written for. -/
def lineAt? (o : ObjectCode) (offset : Nat) : Option Nat :=
  o.lines[offset]?

/-- **The four bytes from an offset on**, if there are as many. -/
def wordAt? (o : ObjectCode) (offset : Nat) : Option (List UInt8) :=
  let word := (o.code.drop offset).take 4
  if word.length = 4 then some word else none

/-- The opcodes of the words of a byte string, up to the first word that
starts with no opcode. A rest of less than four bytes is no word. -/
def opcodesOf : List UInt8 → List Opcode
  | b :: _ :: _ :: _ :: rest =>
    match Opcode.ofByte? b with
    | some op => op :: opcodesOf rest
    | none => []
  | _ => []

/-- **The opcode of every word**, in order. -/
def opcodes (o : ObjectCode) : List Opcode := opcodesOf o.code

@[simp]
theorem code_write (o : ObjectCode) (values : List UInt8) (line : Nat) :
    (o.write values line).code = o.code ++ values := by
  simp [code, write, Function.comp_def]

/-- Every byte has the number of its line. -/
@[simp]
theorem length_lines (o : ObjectCode) : o.lines.length = o.code.length := by
  simp [lines, code]

end ObjectCode

end RegMachine
