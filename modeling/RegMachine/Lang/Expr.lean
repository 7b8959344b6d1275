import RegMachine.Text.Bytes
import RegMachine.ValueType

/-!
# Expressions

The right-hand sides of the language. An expression is a literal, a read of a
variable, an element or a pointer's target, an address, or one operator
applied to two operands. Compound operands can be written down but have no
code; they are refused when an expression is compiled.

Each shape has a *form*, whose tag names it in comments and error messages.
-/

namespace RegMachine

/-- The arithmetic operators. -/
inductive BinaryOp where
  | add | sub | mul | div | or | xor | and | shiftLeft | shiftRight
deriving DecidableEq

namespace BinaryOp

/-- All operators. -/
def all : List BinaryOp :=
  [add, sub, mul, div, or, xor, and, shiftLeft, shiftRight]

/-- The operator as it is written. -/
def text : BinaryOp → String
  | add => "+"
  | sub => "-"
  | mul => "*"
  | div => "/"
  | or => "|"
  | xor => "^"
  | and => "&"
  | shiftLeft => "<<"
  | shiftRight => ">>"

/-- The operator of a given spelling. -/
def ofText? (s : String) : Option BinaryOp :=
  all.find? fun op => op.text = s

/-- **Whether the operator is a shift.** A shift takes its amount from a
literal, never from a variable. -/
def isShift : BinaryOp → Bool
  | shiftLeft | shiftRight => true
  | _ => false

/-- No two operators are written alike. -/
@[simp]
theorem ofText?_text (op : BinaryOp) : ofText? op.text = some op := by
  cases op <;> rfl

end BinaryOp

/-- An expression. -/
inductive Expr where
  /-- A decimal literal of 64 bits. -/
  | int (value : Int64)
  /-- A hexadecimal literal. -/
  | hex (value : UInt32)
  /-- A character literal, by its code. -/
  | char (code : UInt8)
  /-- A string literal; its elements are its UTF-8 bytes. -/
  | str (text : String)
  /-- The value of a variable. -/
  | ident (name : String)
  /-- A list literal. -/
  | list (items : List Expr)
  /-- An element of a list variable. -/
  | index (list : String) (index : Expr)
  /-- The address of a variable. -/
  | addressOf (name : String)
  /-- What a pointer variable points at. -/
  | deref (name : String)
  /-- An operator applied to two operands. -/
  | binary (op : BinaryOp) (lhs rhs : Expr)

/-- The shapes of expressions. -/
inductive Form where
  | int | hex | char | str | ident | list | index | addressOf | deref | binary
deriving DecidableEq

/-- The tag of a form. -/
def Form.tag : Form → String
  | int => "INT"
  | hex => "HEX"
  | char => "CHAR"
  | str => "STRING"
  | ident => "ID"
  | list => "LIST"
  | index => "GET_INDEX"
  | addressOf => "POINTER"
  | deref => "DEREFERENCE"
  | binary => "ARITHMETIC"

/-- The tag of a form in lower case. -/
def Form.lowerTag : Form → String
  | int => "int"
  | hex => "hex"
  | char => "char"
  | str => "string"
  | ident => "id"
  | list => "list"
  | index => "get_index"
  | addressOf => "pointer"
  | deref => "dereference"
  | binary => "arithmetic"

namespace Expr

/-- The shape of an expression. -/
def form : Expr → Form
  | int _ => .int
  | hex _ => .hex
  | char _ => .char
  | str _ => .str
  | ident _ => .ident
  | list _ => .list
  | index _ _ => .index
  | addressOf _ => .addressOf
  | deref _ => .deref
  | binary _ _ _ => .binary

/-- The tag of an expression's shape. -/
def tag (e : Expr) : String := e.form.tag

/-- **The number a literal stands for.** A string is no number, not even one
of a single byte. -/
def literalValue? : Expr → Option Int64
  | int value => some value
  | hex value => some (Int64.ofNat value.toNat)
  | char code => some (Int64.ofNat code.toNat)
  | _ => none

/-- Whether an expression is a hexadecimal literal. -/
def isHex : Expr → Bool
  | hex _ => true
  | _ => false

/-- **The elements that an initialiser lists**: the items of a list literal,
or the bytes of a string as character literals. -/
def elements? : Expr → Option (List Expr)
  | list items => some items
  | str text => some ((Text.bytes text).map char)
  | _ => none

end Expr

end RegMachine
