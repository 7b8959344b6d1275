/-!
# Configuration

The settings of one compilation. Two of them are where the cells of variables
and the data region start; the memory map of the target fixes the defaults.
-/

namespace RegMachine

/-- The settings of a compilation. -/
structure Config where
  /-- The first address of the cells of variables. -/
  bitstart : UInt32 := 0x10000000
  /-- The first address of the data region. -/
  bitdata : UInt32 := 0x10200001
  /-- The name of the top-level namespace. -/
  space : String := "main"
  /-- The address that characters are written to. -/
  outputPort : UInt32 := 0xFFFF0000
  /-- Whether comments are written into the assembly text. -/
  comments : Bool := true
  /-- Whether directives may move the allocation cursors. -/
  allowBitset : Bool := true
deriving DecidableEq

instance : Inhabited Config := ⟨{}⟩

end RegMachine
