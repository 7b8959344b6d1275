import RegMachine.Asm.Error
import RegMachine.Table

/-!
# Label tables

A label names a byte offset of the program. Labels are kept without the point
they are written with, and each is defined once.
-/

namespace RegMachine

/-- Byte offsets by label. -/
abbrev LabelTable := Table Nat

namespace LabelTable

/-- **Define a label** at an offset, unless it is defined already. -/
def define (labels : LabelTable) (name : String) (offset line : Nat) :
    Except AsmError LabelTable :=
  if labels.contains name then .error ⟨line, .duplicateLabel name⟩
  else .ok (labels.insert name offset)

/-- **The offset of a label** that is used on a line. -/
def resolve (labels : LabelTable) (name : String) (line : Nat) : Except AsmError Nat :=
  match labels.get? name with
  | some offset => .ok offset
  | none => .error ⟨line, .unknownLabel name⟩

end LabelTable

end RegMachine
