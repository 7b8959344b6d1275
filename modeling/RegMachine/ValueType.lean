import RegMachine.Text.Numeral

/-!
# Storage types

The language has three scalar types and two shapes built on them. Every type
knows how many bytes its own cell takes, which is what addresses are handed
out by and what the width of a load or store follows from.

A list has no cell of its own: its elements are separate cells at consecutive
addresses, and the list only records where they start and how many they are.
-/

namespace RegMachine

/-! ## Scalars -/

/-- A scalar storage type. -/
inductive Scalar where
  /-- One byte, a character code. -/
  | char
  /-- Four bytes, an integer. -/
  | int
  /-- Four bytes, written in hexadecimal. -/
  | hex
deriving DecidableEq

namespace Scalar

/-- The bytes one value takes. -/
def size : Scalar → Nat
  | char => 1
  | int | hex => 4

/-- The name of the type. -/
def name : Scalar → String
  | char => "char"
  | int => "int"
  | hex => "hex"

/-- **The type of a given name.** `int32` is a second name of `int`. -/
def ofName? : String → Option Scalar
  | "char" => some char
  | "int" => some int
  | "int32" => some int
  | "hex" => some hex
  | _ => none

/-- The least value of the type. Integers may be written as negative
numbers. -/
def least : Scalar → Int
  | char | hex => 0
  | int => -0x80000000

/-- The greatest value of the type. Integers may be written up to the
greatest unsigned word. -/
def greatest : Scalar → Int
  | char => 0xff
  | int | hex => 0xffffffff

/-- **Whether a value can be stored in the type** without loss. -/
def fits (ty : Scalar) (value : Int) : Bool :=
  ty.least ≤ value && value ≤ ty.greatest

/-- A type is read back from its name. -/
@[simp]
theorem ofName?_name (ty : Scalar) : ofName? ty.name = some ty := by
  cases ty <;> rfl

end Scalar

/-! ## Value types -/

/-- The type of a variable. -/
inductive ValueType where
  /-- A single scalar. -/
  | scalar (ty : Scalar)
  /-- A word that holds the address of a scalar. -/
  | pointer (target : Scalar)
  /-- A list of `len` elements at consecutive addresses. -/
  | list (element : Scalar) (len : Nat)
deriving DecidableEq

namespace ValueType

/-- **The bytes of the variable's own cell.** A list has none: its elements
are cells of their own. -/
def size : ValueType → Nat
  | scalar ty => ty.size
  | pointer _ => 4
  | list _ _ => 0

/-- **The scalar that a load or store of the value moves**: a pointer moves a
whole word, a list moves its elements. -/
def cell : ValueType → Scalar
  | scalar ty => ty
  | pointer _ => .hex
  | list element _ => element

/-- Whether the type is a list. -/
def isList : ValueType → Bool
  | list _ _ => true
  | _ => false

/-- The type as it is written. -/
def text : ValueType → String
  | scalar ty => ty.name
  | pointer target => target.name ++ "*"
  | list element len => "list<" ++ element.name ++ ">[" ++ Text.decimal len ++ "]"

end ValueType

end RegMachine
