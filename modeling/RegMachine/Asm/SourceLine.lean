import RegMachine.Asm.Error
import RegMachine.Text.Lines

/-!
# Lines of assembly text

A line defines a label, holds an instruction, or says nothing. What follows a
semicolon is a comment. A label line starts with a point, and the label is
the first word after it; any other line is a mnemonic followed by operands,
which commas and blanks separate in any mixture.

Lines are numbered from 1 and keep their number when the lines without
content are left out.
-/

namespace RegMachine

/-- What a line holds. -/
inductive LineContent where
  /-- A label, without its point. -/
  | label (name : String)
  /-- A mnemonic and its operands as they are written. -/
  | instruction (mnemonic : Mnemonic) (operands : List String)
deriving DecidableEq

/-- A line with content. -/
structure SourceLine where
  number : Nat
  content : LineContent
deriving DecidableEq

namespace SourceLine

/-- Whether a character separates operands. -/
def isSeparator (c : Char) : Bool :=
  c = ',' || Text.isBlank c

/-- The text of a line without its comment and the blanks around it. -/
def significant (raw : List Char) : List Char :=
  Text.trim (raw.takeWhile (· ≠ ';'))

/-- **Read one line.** The answer is empty for a line that says nothing. -/
def read (number : Nat) (raw : List Char) : Except AsmError (Option SourceLine) :=
  let text := significant raw
  match text with
  | '.' :: rest =>
    match Text.words Text.isBlank rest with
    | [] => .error ⟨number, .invalidOperand (String.ofList text) .unnamedLabel⟩
    | name :: _ => .ok (some ⟨number, .label (String.ofList name)⟩)
  | _ =>
    match Text.words isSeparator text with
    | [] => .ok none
    | name :: operands =>
      match Mnemonic.ofText? (String.ofList name) with
      | none => .error ⟨number, .unboundInstruction (String.ofList name)⟩
      | some mnemonic =>
        .ok (some ⟨number, .instruction mnemonic (operands.map String.ofList)⟩)

/-- Read the lines from a given number on. The first line at fault decides
the error. -/
def readFrom : Nat → List (List Char) → Except AsmError (List SourceLine)
  | _, [] => .ok []
  | number, raw :: rest => do
    let line ← read number raw
    let lines ← readFrom (number + 1) rest
    return line.toList ++ lines

/-- **Read a text**: its lines with content, numbered from 1. -/
def readAll (source : String) : Except AsmError (List SourceLine) :=
  readFrom 1 (Text.lines source.toList)

end SourceLine

end RegMachine
