/-!
# Replacing a piece of text

Occurrences are found from left to right and do not overlap: after a match
the search goes on behind it, and the text put in its place is not searched
again.
-/

namespace RegMachine.Text

/-- Replace the occurrences of `piece` in a text of which the first `skip`
characters belong to an occurrence already replaced. -/
def replaceFrom (piece replacement : List Char) : Nat → List Char → List Char
  | _, [] => []
  | skip + 1, _ :: cs => replaceFrom piece replacement skip cs
  | 0, c :: cs =>
    if piece.isPrefixOf (c :: cs) then
      replacement ++ replaceFrom piece replacement (piece.length - 1) cs
    else c :: replaceFrom piece replacement 0 cs

/-- **Every occurrence of a non-empty `piece` replaced**, from left to right
and without overlaps. -/
def replace (piece replacement text : List Char) : List Char :=
  replaceFrom piece replacement 0 text

@[simp]
theorem replace_nil (piece replacement : List Char) :
    replace piece replacement [] = [] := rfl

/-- Passing over `skip` characters is the same as dropping them. -/
theorem replaceFrom_eq_replace_drop (piece replacement : List Char) (skip : Nat)
    (cs : List Char) :
    replaceFrom piece replacement skip cs = replace piece replacement (cs.drop skip) := by
  induction cs generalizing skip with
  | nil => cases skip <;> rfl
  | cons c cs ih =>
    cases skip with
    | zero => rfl
    | succ skip => exact ih skip

end RegMachine.Text
