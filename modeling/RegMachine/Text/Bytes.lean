/-!
# The bytes of a text

A string of the language is stored by its UTF-8 bytes, one element a byte.
-/

namespace RegMachine.Text

/-- **The UTF-8 bytes of a text.** -/
def bytes (s : String) : List UInt8 :=
  s.toList.flatMap String.utf8EncodeChar

@[simp]
theorem bytes_empty : bytes "" = [] := rfl

/-- The bytes of two texts joined are the bytes of the one, then of the
other. -/
@[simp]
theorem bytes_append (s t : String) : bytes (s ++ t) = bytes s ++ bytes t := by
  unfold bytes
  rw [String.toList_append, List.flatMap_append]

end RegMachine.Text
