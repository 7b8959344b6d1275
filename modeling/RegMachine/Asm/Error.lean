import RegMachine.Isa.Mnemonic
import RegMachine.Text.Numeral

/-!
# What can be wrong with assembly text

The assembler stops at the first fault it meets. A fault is a cause, and its
wording follows from the cause alone; the line of the text it was found on is
kept beside it.
-/

namespace RegMachine

/-- Why an operand is refused. -/
inductive OperandFault where
  /-- A label line names no label. -/
  | unnamedLabel
  /-- A register was wanted. -/
  | notRegister
  /-- What follows `$` is no distance. -/
  | badForward
  /-- What follows `#` is no number. -/
  | badDecimal
  /-- A jump takes its target from a register. -/
  | notJumpTarget
deriving DecidableEq

/-- The wording of an operand's fault. -/
def OperandFault.text : OperandFault → String
  | unnamedLabel => "label has no name"
  | notRegister => "expected a register"
  | badForward => "bad forward reference"
  | badDecimal => "bad decimal literal"
  | notJumpTarget => "jump target must be a register"

/-- The causes for which text is not assembled. -/
inductive AsmFault where
  /-- A line starts with no known mnemonic. -/
  | unboundInstruction (name : String)
  /-- An instruction has the wrong number of operands. -/
  | arityMismatch (mnemonic : Mnemonic) (found : Nat)
  /-- A label is used and nowhere defined. -/
  | unknownLabel (label : String)
  /-- A label is defined a second time. -/
  | duplicateLabel (label : String)
  /-- An operand cannot be read. -/
  | invalidOperand (operand : String) (reason : OperandFault)
  /-- A register number takes more than a byte. -/
  | operandRange (operand : String)
  /-- A forward reference skips more instructions than follow. -/
  | forwardPastEnd (distance : Nat)
deriving DecidableEq

/-- A fault and the line of the text it was found on. -/
structure AsmError where
  line : Nat
  fault : AsmFault
deriving DecidableEq

/-- The wording of a fault. -/
def AsmFault.text : AsmFault → String
  | unboundInstruction name => s!"unbound instruction '{name}'"
  | arityMismatch mnemonic found =>
    let name := mnemonic.text
    let expected := Text.decimal mnemonic.arity
    let got := Text.decimal found
    s!"'{name}' expects {expected} operand(s), got {got}"
  | unknownLabel label => s!"unknown label '{label}'"
  | duplicateLabel label => s!"label '{label}' already defined"
  | invalidOperand operand reason =>
    let why := reason.text
    s!"invalid operand '{operand}': {why}"
  | operandRange operand => s!"operand '{operand}' does not fit in a byte"
  | forwardPastEnd distance =>
    let count := Text.decimal distance
    s!"forward reference ${count} runs past the end of the program"

/-- **The message of an error**: its line, then the wording of its fault. -/
def AsmError.message (e : AsmError) : String :=
  "line " ++ Text.decimal e.line ++ ": " ++ e.fault.text

end RegMachine
