import RegMachine.Code.Instr

/-!
# Fragments

A fragment is a run of generated items: instructions, labels, comments, and
raw lines that were embedded by the program. Fragments are put together by
appending, and rendered to assembly text once, one item a line.

Memory is reached through routines, so a load or a store is a short sequence
that puts the address in `Reg.addr`, the routine in `Reg.routine`, the address
behind the sequence in `Reg.ret`, and jumps.
-/

namespace RegMachine

/-- One line of generated assembly. -/
inductive Item where
  | instr (i : Instr)
  | label (name : String)
  | comment (text : String)
  /-- A line of embedded assembly, kept as it is. -/
  | raw (text : String)
deriving DecidableEq

namespace Item

/-- The item as it is written. -/
def text : Item → String
  | instr i => i.text
  | label name => "." ++ name
  | comment text => "; " ++ text
  | raw text => text

/-- Whether the item is a comment. -/
def isComment : Item → Bool
  | comment _ => true
  | _ => false

/-- The instruction of an item, if it is one. -/
def instr? : Item → Option Instr
  | instr i => some i
  | _ => none

/-- The label that an item defines, if it does. -/
def label? : Item → Option String
  | label name => some name
  | _ => none

/-- Load a whole word. -/
def ldr (rd : Reg) (src : Operand) : Item := instr (.ldr rd src)

/-- Copy a register. -/
def mov (rd rs : Reg) : Item := instr (.mov rd rs)

/-- Jump. -/
def jpr (target : Reg) : Item := instr (.jpr target)

/-- Load a literal. A hexadecimal literal keeps its notation if it is a word;
any other number is written in decimal. -/
def loadLiteral (rd : Reg) (value : Int64) (hex : Bool) : Item :=
  if hex && 0 ≤ value.toInt && value.toInt < 0x100000000 then
    ldr rd (.hex (UInt32.ofNat value.toInt.toNat))
  else ldr rd (.imm value)

end Item

/-- A run of generated items. -/
abbrev Fragment := List Item

namespace Fragment

/-! ## Memory sequences -/

/-- **Call a memory routine** on what is in `Reg.addr` and `Reg.value`. The
return address is the one behind the jump. -/
def callRoutine (routine : Routine) : Fragment :=
  [.ldr .routine (.label routine.label), .ldr .ret (.forward 2), .jpr .routine]

/-- Store `Reg.value` to a fixed address. -/
def storeTo (address : UInt32) (width : Width) : Fragment :=
  .ldr .addr (.hex address) :: callRoutine (.store width)

/-- Load `Reg.value` from a fixed address. -/
def loadFrom (address : UInt32) (width : Width) : Fragment :=
  .ldr .addr (.hex address) :: callRoutine (.load width)

/-- Store zero to a fixed address. -/
def storeZero (address : UInt32) (width : Width) : Fragment :=
  .ldr .value (.imm 0) :: storeTo address width

/-! ## Reading a fragment -/

/-- The instructions of a fragment. -/
def instructions (f : Fragment) : List Instr := f.filterMap Item.instr?

/-- The labels that a fragment defines, in order. -/
def labels (f : Fragment) : List String := f.filterMap Item.label?

/-- The texts of the items that are rendered. -/
def texts (f : Fragment) (comments : Bool) : List String :=
  (f.filter fun item => comments || !item.isComment).map Item.text

/-- **The text of a fragment**, one item a line, with or without its
comments. A line break stands between two items only, and none stands before
the first item that is not empty. -/
def render (f : Fragment) (comments : Bool) : String :=
  "\n".intercalate ((f.texts comments).dropWhile (· = ""))

end Fragment

/-! ## Branch labels -/

/-- The two labels of a branch: where its second block starts and where it
ends. -/
structure BranchLabels where
  ifEnd : String
  elseEnd : String

/-- The labels of the branch of an index. -/
def BranchLabels.ofIndex (index : Nat) : BranchLabels where
  ifEnd := "if_end_" ++ Text.decimal index
  elseEnd := "else_end_" ++ Text.decimal index

/-- The two labels of a loop: its start and its end. -/
structure LoopLabels where
  start : String
  stop : String

/-- The labels of the loop of an index. -/
def LoopLabels.ofIndex (index : Nat) : LoopLabels where
  start := "while_start_" ++ Text.decimal index
  stop := "while_end_" ++ Text.decimal index

end RegMachine
