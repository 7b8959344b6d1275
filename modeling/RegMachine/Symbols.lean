import RegMachine.Table
import RegMachine.ValueType

/-!
# Symbols

What a scope knows: its variables, functions and namespaces, and the two
cursors that addresses are handed out from. A cursor only moves forward, so an
address that was handed out is never handed out again.

`Symbols` is one structure at three depths. A scope binds whole functions and
whole namespaces. A namespace binds whole functions, because calls reach them,
but of the namespaces inside it only the names are kept. A function records
the symbols its body ended with, and there the functions are kept by their
labels and the namespaces by their names: nothing is ever called through such
a record.
-/

namespace RegMachine

/-- What is known about the value of a variable. It is bookkeeping only; no
code depends on it. -/
inductive Stored where
  /-- Nothing was stored yet. -/
  | zeroed
  /-- A literal. -/
  | literal (value : Int64)
  /-- The value of another variable. -/
  | copied (source : String)
  /-- The address of another variable. -/
  | address (address : UInt32)
  /-- A value that only the running program knows. -/
  | computed
  /-- A list of which so many elements were given. -/
  | elements (count : Nat)
deriving DecidableEq

/-- A variable. Its address and type never change. -/
structure Variable where
  address : UInt32
  type : ValueType
  value : Stored := .zeroed
deriving DecidableEq

/-- A parameter of a compiled function: callers store the argument at its
address. -/
structure Param where
  name : String
  address : UInt32
  type : ValueType
deriving DecidableEq

/-- **The symbols of a scope**, over what is kept of functions and
namespaces. -/
structure Symbols (Fn Ns : Type) where
  vars : Table Variable := ∅
  functions : Table Fn := ∅
  namespaces : Table Ns := ∅
  /-- The next free address for variables. -/
  nextAddress : UInt32
  /-- The next free address of the data region. -/
  nextDataAddress : UInt32
deriving DecidableEq

/-- A compiled function. -/
structure Function where
  name : String
  /-- The label of its definition. -/
  label : String
  params : List Param
  /-- The cell that the return address is saved to. -/
  returnSlot : UInt32
  /-- What its body knew at its end. Of a function in it only the label is kept,
  and of a namespace only the name. Left out are a function's parameters, return
  slot, text and own symbols, and all that a namespace binds: nothing reads them
  through the record of another function. -/
  symbols : Symbols String Unit
  /-- The text of its definition. -/
  text : String
deriving DecidableEq

/-- A function of which only the name and label are known, as its own body
sees it. -/
def Function.stub (name label : String) (params : List Param) : Function where
  name := name
  label := label
  params := params
  returnSlot := 0
  symbols := { nextAddress := 0, nextDataAddress := 0 }
  text := ""

/-- A namespace. -/
structure Namespace where
  name : String
  /-- What its block knew at its end. Its functions are kept whole, for calls
  reach them. Of a namespace inside it only the name is kept, and all that it
  binds is left out: a call names one namespace at most. -/
  symbols : Symbols Function Unit
deriving DecidableEq

namespace Symbols

variable {Fn Ns : Type}

/-- No symbols, with the cursors at given addresses. -/
def startingAt (nextAddress nextDataAddress : UInt32) : Symbols Fn Ns where
  nextAddress := nextAddress
  nextDataAddress := nextDataAddress

/-- **Hand out `size` bytes.** There is no room if the cursor would leave the
address space; then nothing changes. -/
def allocate? (s : Symbols Fn Ns) (size : Nat) : Option (UInt32 × Symbols Fn Ns) :=
  if s.nextAddress.toNat + size < UInt32.size then
    some (s.nextAddress,
      { s with nextAddress := UInt32.ofNat (s.nextAddress.toNat + size) })
  else none

/-- Bind a variable. -/
def insertVariable (s : Symbols Fn Ns) (name : String) (v : Variable) : Symbols Fn Ns :=
  { s with vars := s.vars.insert name v }

/-- Bind a function. -/
def insertFunction (s : Symbols Fn Ns) (name : String) (f : Fn) : Symbols Fn Ns :=
  { s with functions := s.functions.insert name f }

/-- Bind a namespace. -/
def insertNamespace (s : Symbols Fn Ns) (name : String) (n : Ns) : Symbols Fn Ns :=
  { s with namespaces := s.namespaces.insert name n }

/-- **Record what a bound variable holds now.** Its address and type stay. -/
def setValue? (s : Symbols Fn Ns) (name : String) (value : Stored) :
    Option (Symbols Fn Ns) :=
  (s.vars.get? name).map fun v => s.insertVariable name { v with value := value }

/-- Take over the cursors of other symbols. -/
def adoptCursors {Fn' Ns' : Type} (s : Symbols Fn Ns) (other : Symbols Fn' Ns') :
    Symbols Fn Ns :=
  { s with nextAddress := other.nextAddress, nextDataAddress := other.nextDataAddress }

/-- The symbols with the namespaces reduced to their names. -/
def forgetNamespaces (s : Symbols Fn Ns) : Symbols Fn Unit where
  vars := s.vars
  functions := s.functions
  namespaces := s.namespaces.map fun _ => ()
  nextAddress := s.nextAddress
  nextDataAddress := s.nextDataAddress

/-- **The record that a function keeps**: functions by their labels,
namespaces by their names. -/
def record (s : Symbols Function Ns) : Symbols String Unit where
  vars := s.vars
  functions := s.functions.map (·.label)
  namespaces := s.namespaces.map fun _ => ()
  nextAddress := s.nextAddress
  nextDataAddress := s.nextDataAddress

/-- What is handed out starts at the cursor, and the cursor moves behind
it. -/
theorem allocate?_eq_some_iff {s s' : Symbols Fn Ns} {size : Nat} {address : UInt32} :
    s.allocate? size = some (address, s') ↔
      s.nextAddress.toNat + size < UInt32.size ∧ s.nextAddress = address ∧
        { s with nextAddress := UInt32.ofNat (s.nextAddress.toNat + size) } = s' := by
  unfold allocate?
  split
  next hroom =>
    rw [Option.some.injEq, Prod.mk.injEq]
    exact (and_iff_right hroom).symm
  next hroom =>
    constructor
    · rintro ⟨⟩
    · exact fun h => absurd h.1 hroom

/-- Only the end of the address space keeps bytes from being handed out. -/
theorem allocate?_eq_none_iff {s : Symbols Fn Ns} {size : Nat} :
    s.allocate? size = none ↔ UInt32.size ≤ s.nextAddress.toNat + size := by
  rw [← Nat.not_lt]
  unfold allocate?
  split
  next hroom =>
    constructor
    · rintro ⟨⟩
    · exact fun h => absurd hroom h
  next hroom => exact iff_of_true rfl hroom

end Symbols

end RegMachine
