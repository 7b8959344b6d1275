import RegMachine.Asm.LabelTable
import RegMachine.Asm.SourceLine

/-!
# The layout of a program

The first pass over a program. It knows the length of every instruction from
its mnemonic alone, so it can tell where each instruction and each label
stands before any operand is looked at. An instruction's offset is the sum of
the lengths before it, and a label's offset is that of the instruction after
it.

A *forward reference* `$n` counts instructions instead of naming a place: it
means the address behind the next `n - 1` instructions, as seen from a load of
a whole word, and `$0` means the same as `$1`.
-/

namespace RegMachine

/-- An instruction with its line. -/
structure Instruction where
  line : Nat
  mnemonic : Mnemonic
  operands : List String
deriving DecidableEq

/-- The instruction of a line, if it holds one. -/
def SourceLine.instruction? (line : SourceLine) : Option Instruction :=
  match line.content with
  | .label _ => none
  | .instruction mnemonic operands => some ⟨line.number, mnemonic, operands⟩

/-- The labels that lines define, when the first of them stands at an
offset. -/
def defineLabels : Nat → LabelTable → List SourceLine → Except AsmError LabelTable
  | _, labels, [] => .ok labels
  | offset, labels, line :: rest =>
    match line.content with
    | .label name =>
      match labels.define name offset line.number with
      | .ok labels => defineLabels offset labels rest
      | .error e => .error e
    | .instruction mnemonic _ => defineLabels (offset + mnemonic.length) labels rest

/-- **The layout of a program**: where its labels are and how long its
instructions are. -/
structure Layout where
  labels : LabelTable
  lengths : List Nat
deriving DecidableEq

namespace Layout

/-- **Lay out the lines of a program.** -/
def ofLines (lines : List SourceLine) : Except AsmError Layout :=
  match defineLabels 0 ∅ lines with
  | .ok labels =>
    .ok ⟨labels, (lines.filterMap SourceLine.instruction?).map (·.mnemonic.length)⟩
  | .error e => .error e

/-- **Lay out a text**, the first pass alone. -/
def ofText (source : String) : Except AsmError Layout := do
  let lines ← SourceLine.readAll source
  ofLines lines

/-- **The bytes that instructions of given lengths take together.** -/
def extent : List Nat → Nat
  | [] => 0
  | length :: rest => length + extent rest

@[simp]
theorem extent_nil : extent [] = 0 := rfl

@[simp]
theorem extent_cons (length : Nat) (rest : List Nat) :
    extent (length :: rest) = length + extent rest := rfl

@[simp]
theorem extent_append (before after : List Nat) :
    extent (before ++ after) = extent before + extent after := by
  induction before with
  | nil => rw [List.nil_append, extent_nil, Nat.zero_add]
  | cons length rest ih => rw [List.cons_append, extent_cons, extent_cons, ih, Nat.add_assoc]

/-- The number of instructions. -/
def count (l : Layout) : Nat := l.lengths.length

/-- The bytes of the program. -/
def size (l : Layout) : Nat := extent l.lengths

/-- The bytes before the instruction of an index. -/
def start (l : Layout) (index : Nat) : Nat := extent (l.lengths.take index)

/-- The offset of the instruction of an index, if there is one. -/
def offset? (l : Layout) (index : Nat) : Option Nat :=
  if index < l.count then some (l.start index) else none

/-- The length of the instruction of an index, if there is one. -/
def length? (l : Layout) (index : Nat) : Option Nat := l.lengths[index]?

/-- **The address that a forward reference means**, seen from the instruction
of an index: past that instruction, taken to be two words long, and past the
instructions that the reference skips. -/
def forwardTarget (l : Layout) (index distance line : Nat) : Except AsmError Nat :=
  let skipped := max distance 1 - 1
  if index + 1 + skipped ≤ l.count then
    .ok (l.start index + 8 + extent ((l.lengths.drop (index + 1)).take skipped))
  else .error ⟨line, .forwardPastEnd distance⟩

@[simp]
theorem start_zero (l : Layout) : l.start 0 = 0 := rfl

/-- An instruction ends where the next one starts. -/
theorem start_succ (l : Layout) {index : Nat} (h : index < l.lengths.length) :
    l.start (index + 1) = l.start index + l.lengths[index] := by
  unfold start
  rw [List.take_succ_eq_append_getElem h, extent_append, extent_cons, extent_nil, Nat.add_zero]

/-- The program ends where its last instruction does. -/
@[simp]
theorem start_count (l : Layout) : l.start l.count = l.size := by
  unfold start count size
  rw [List.take_length]

end Layout

end RegMachine
