import RegMachine.Text.Blank

/-!
# Lines and words

A text is a run of lines, each ended by a line feed that may be preceded by
one carriage return. The end of the text ends a last line too, unless that
line is empty: a final line feed does not open one more line.

Inside a line, *words* are the maximal runs of characters that are no
separators. Separators may be repeated and may stand at either end; words are
never empty.
-/

namespace RegMachine.Text

/-- **The lines of a text**, without the line feeds that end them. One
carriage return directly before a line feed belongs to the line's end; any
other carriage return is an ordinary character. -/
def lines : List Char → List (List Char)
  | [] => []
  | '\n' :: cs => [] :: lines cs
  | '\r' :: '\n' :: cs => [] :: lines cs
  | c :: cs =>
    match lines cs with
    | [] => [[c]]
    | l :: ls => (c :: l) :: ls

/-- A finished word, if any character was collected. -/
def closeWord (word : List Char) : List (List Char) :=
  if word.isEmpty then [] else [word.reverse]

/-- The words of a text of which `word` (in reverse) has been collected since
the last separator. -/
def wordsFrom (sep : Char → Bool) : List Char → List Char → List (List Char)
  | word, [] => closeWord word
  | word, c :: cs =>
    if sep c then closeWord word ++ wordsFrom sep [] cs
    else wordsFrom sep (c :: word) cs

/-- **The words of a text**: its maximal non-empty runs of characters that
are no separators. -/
def words (sep : Char → Bool) (cs : List Char) : List (List Char) :=
  wordsFrom sep [] cs

@[simp]
theorem lines_nil : lines [] = [] := rfl

@[simp]
theorem words_nil (sep : Char → Bool) : words sep [] = [] := rfl

/-- A separator in front of a text adds no word. -/
theorem words_cons_of_sep {sep : Char → Bool} {c : Char} (h : sep c = true)
    (cs : List Char) : words sep (c :: cs) = words sep cs := by
  simp [words, wordsFrom, h, closeWord]

end RegMachine.Text
