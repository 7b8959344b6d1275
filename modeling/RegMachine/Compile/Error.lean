import RegMachine.Lang.Expr
import RegMachine.Lang.Stmt

/-!
# What can be wrong with a program

Compilation stops at the first fault. A fault is a cause together with the
names and numbers that explain it; its wording follows from it alone. The
source line of the statement at fault is kept beside it, and line 0 stands for
a line that is not known.
-/

namespace RegMachine

/-- A source line as it is written in messages. -/
def lineText (line : Nat) : String :=
  if line = 0 then "unknown line" else "line " ++ Text.decimal line

/-- What a message about types calls a type. -/
inductive TypeLabel where
  /-- A type by its own text. -/
  | exact (type : ValueType)
  /-- Any list. -/
  | anyList
  /-- The shape of an expression, where it stands for no type. -/
  | shape (form : Form)
deriving DecidableEq

/-- The text of a type in a message. -/
def TypeLabel.text : TypeLabel → String
  | exact type => type.text
  | anyList => "list"
  | shape form => form.lowerTag

/-- The expressions that have no code. -/
inductive Unsupported where
  /-- A list initialised from an expression that lists no elements. -/
  | listFrom (name : String) (form : Form)
  /-- An index that is neither a literal nor a variable. -/
  | indexOf (list : String)
  /-- A compound operand of an operator or comparison. -/
  | nestedOperand (form : Form) (name : String)
  /-- Arithmetic stored to an element with a variable index. -/
  | arithmeticAt (list : String)
deriving DecidableEq

/-- The wording for an expression without code. -/
def Unsupported.text : Unsupported → String
  | listFrom name form =>
    let tag := form.tag
    s!"cannot initialise list '{name}' from {tag}"
  | indexOf list => s!"index of '{list}' must be a literal or a variable"
  | nestedOperand form name =>
    let tag := form.tag
    s!"nested {tag} operand in arithmetic for '{name}'"
  | arithmeticAt list => s!"arithmetic into '{list}' with a variable index"

/-- The causes for which a program is not compiled. -/
inductive CompileFault where
  /-- A variable is not bound; the bound names are listed. -/
  | unknownVariable (name : String) (bound : List String)
  /-- A variable is declared although its name is bound. -/
  | variableExists (name : String)
  /-- A value has another type than the place it is stored to. -/
  | typeMismatch (name : String) (found expected : TypeLabel)
  /-- A type has no such name. -/
  | unknownType (name : String)
  /-- A function is not declared. -/
  | unknownFunction (name : String)
  /-- A function's label is taken. -/
  | functionExists (label : String)
  /-- A namespace is not declared; the visible ones are listed. -/
  | namespaceNotFound (name : String) (available : List String)
  /-- A statement has no such tag. -/
  | unknownAction (tag : String)
  /-- A literal does not fit in its destination. -/
  | overflow (name : String) (value : Int) (type : Scalar)
  /-- An index is outside a list. -/
  | outOfBounds (name : String) (index : Int) (len : Nat)
  /-- A call has the wrong number of arguments. -/
  | argumentCount (function : String) (expected found : Nat)
  /-- A shift takes its amount from something other than a literal. -/
  | variableShift (name : String)
  /-- An expression has no code. -/
  | unsupported (what : Unsupported)
  /-- A directive stands where none is allowed. -/
  | unauthorizedBitset
  /-- A directive would move a cursor back. -/
  | addressRegression (requested cursor : UInt32)
  /-- The address space has no room left. -/
  | addressOverflow (size : Nat) (cursor : UInt32)
deriving DecidableEq

/-- A fault and the source line it was found on. -/
structure CompileError where
  line : Nat
  fault : CompileFault
deriving DecidableEq

/-- The wording of a fault. -/
def CompileFault.text : CompileFault → String
  | unknownVariable name bound =>
    let names := ", ".intercalate bound
    s!"unknown variable '{name}' (bound: [{names}])"
  | variableExists name => s!"variable '{name}' already exists"
  | typeMismatch name found expected =>
    let foundText := found.text
    let expectedText := expected.text
    s!"type mismatch for '{name}': found {foundText}, expected {expectedText}"
  | unknownType name => s!"unknown type '{name}'"
  | unknownFunction name => s!"unknown function '{name}'"
  | functionExists label => s!"function '{label}' already exists"
  | namespaceNotFound name available =>
    let names := ", ".intercalate available
    s!"namespace '{name}' not found (available: [{names}])"
  | unknownAction tag => s!"unknown action '{tag}'"
  | overflow name value type =>
    let number := Text.signedDecimal value
    let typeName := type.name
    s!"value {number} overflows {typeName} '{name}'"
  | outOfBounds name index len =>
    let number := Text.signedDecimal index
    let count := Text.decimal len
    s!"index {number} out of bounds for '{name}' of length {count}"
  | argumentCount function expected found =>
    let wanted := Text.decimal expected
    let given := Text.decimal found
    s!"'{function}' takes {wanted} argument(s), {given} supplied"
  | variableShift name => s!"shift amount for '{name}' must be a literal"
  | unsupported what =>
    let message := what.text
    s!"unsupported expression: {message}"
  | unauthorizedBitset =>
    "base address can only be set at the top level with bit setting enabled"
  | addressRegression requested cursor =>
    let low := Text.hexAddress requested
    let high := Text.hexAddress cursor
    s!"cannot move allocation cursor back from {high} to {low}"
  | addressOverflow size cursor =>
    let count := Text.decimal size
    let address := Text.hexAddress cursor
    s!"no room for {count} byte(s) at {address}"

/-- **The message of an error**: its line, then the wording of its fault. -/
def CompileError.message (e : CompileError) : String :=
  "at " ++ lineText e.line ++ ": " ++ e.fault.text

/-! ## Resolving names of types and statements -/

/-- **The scalar type of a name**, which is used on a line. -/
def Scalar.resolve (name : String) (line : Nat) : Except CompileError Scalar :=
  match Scalar.ofName? name with
  | some ty => .ok ty
  | none => .error ⟨line, .unknownType name⟩

/-- **The kind of statement of a tag**, which stands on a line. -/
def StmtKind.resolve (tag : String) (line : Nat) : Except CompileError StmtKind :=
  match StmtKind.ofTag? tag with
  | some kind => .ok kind
  | none => .error ⟨line, .unknownAction tag⟩

end RegMachine
