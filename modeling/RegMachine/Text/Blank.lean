/-!
# Blank characters

Assembly text is cut into words at *blank* characters, and a blank character
is one with the Unicode property `White_Space`: the control characters from
tab to carriage return, the plain space, the next-line and no-break spaces,
and the typographic spaces and separators. Core's `Char.isWhitespace` knows
only four of them, so the table is written out here.

Text is handled as a list of characters throughout, which is the view all
statements about it are made in.
-/

namespace RegMachine.Text

/-- **The blank characters**: those with the Unicode property `White_Space`. -/
def isBlank (c : Char) : Bool :=
  let n := c.toNat
  (0x09 ≤ n && n ≤ 0x0D) || n == 0x20 || n == 0x85 || n == 0xA0 || n == 0x1680
    || (0x2000 ≤ n && n ≤ 0x200A) || n == 0x2028 || n == 0x2029 || n == 0x202F
    || n == 0x205F || n == 0x3000

/-- The text without the blank characters at its start. -/
def trimStart (cs : List Char) : List Char :=
  cs.dropWhile isBlank

/-- **The text without the blank characters at its two ends.** Blank
characters inside stay. -/
def trim (cs : List Char) : List Char :=
  (trimStart (trimStart cs).reverse).reverse

@[simp]
theorem trim_nil : trim [] = [] := rfl

end RegMachine.Text
