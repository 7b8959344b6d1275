import RegMachine.Asm.SourceLine

/-!
# Lines and words of a written text

The converse view of `RegMachine.Text.Lines`: a text that was put together from
lines and words is taken apart into the same lines and words again.

A line keeps its text except for one carriage return at its end
(`Text.lines_append_newline`), and that one makes no difference to how an
assembly line is read (`SourceLine.read_dropReturn`). Words come back if they
are words at all (`Text.IsWord`): non-empty, and free of whatever separates
them.
-/

namespace RegMachine

namespace Text

/-! ## Blanks at the ends -/

/-- A text that starts with no blank character keeps its start. -/
theorem trimStart_eq_self {cs : List Char} (h : ∀ c ∈ cs.head?, isBlank c = false) :
    trimStart cs = cs := by
  cases cs with
  | nil => rfl
  | cons c cs =>
    unfold trimStart
    rw [List.dropWhile_cons_of_neg]
    rw [h c rfl]
    exact Bool.false_ne_true

/-- **A text without blank characters at its ends is not trimmed.** -/
theorem trim_eq_self {cs : List Char} (hhead : ∀ c ∈ cs.head?, isBlank c = false)
    (hlast : ∀ c ∈ cs.getLast?, isBlank c = false) : trim cs = cs := by
  unfold trim
  rw [trimStart_eq_self hhead, trimStart_eq_self, List.reverse_reverse]
  rwa [List.head?_reverse]

/-- A blank character at the end is trimmed away. -/
theorem trim_append_blank (cs : List Char) {c : Char} (h : isBlank c = true) :
    trim (cs ++ [c]) = trim cs := by
  unfold trim trimStart
  rw [List.dropWhile_append]
  split
  next hempty =>
    rw [List.isEmpty_iff.mp hempty, List.dropWhile_cons_of_pos h]
    rfl
  next =>
    rw [List.reverse_append, List.reverse_singleton, List.singleton_append,
      List.dropWhile_cons_of_pos h]

/-! ## Lines -/

/-- A line without the carriage return at its end, if it has one. -/
def dropReturn : List Char → List Char
  | [] => []
  | ['\r'] => []
  | c :: cs => c :: dropReturn cs

theorem dropReturn_eq_or (cs : List Char) :
    dropReturn cs = cs ∨ dropReturn cs ++ ['\r'] = cs := by
  induction cs using dropReturn.induct with
  | case1 => exact .inl rfl
  | case2 => exact .inr rfl
  | case3 c cs h ih =>
    rw [dropReturn]
    · rcases ih with ih | ih
      · exact .inl (by rw [ih])
      · exact .inr (by rw [List.cons_append, ih])
    · exact h

/-- A character that ends no line belongs to the line it starts. -/
theorem lines_cons {c : Char} {cs : List Char} (hc : c ≠ '\n')
    (hreturn : c = '\r' → cs.head? ≠ some '\n') :
    lines (c :: cs) = match lines cs with
      | [] => [[c]]
      | l :: ls => (c :: l) :: ls := by
  refine (lines.eq_4 c cs hc ?_).trans rfl
  rintro rest rfl rfl
  exact hreturn rfl rfl

/-- **A line feed ends a line**, together with one carriage return before
it. -/
theorem lines_append_newline {l : List Char} (h : '\n' ∉ l) (rest : List Char) :
    lines (l ++ '\n' :: rest) = dropReturn l :: lines rest := by
  induction l using dropReturn.induct with
  | case1 => rfl
  | case2 => rfl
  | case3 c cs hlast ih =>
    have hc : c ≠ '\n' := fun hc => h (hc ▸ List.mem_cons_self)
    have hcs : '\n' ∉ cs := fun hcs => h (List.mem_cons_of_mem c hcs)
    rw [List.cons_append, lines_cons hc, ih hcs, dropReturn]
    · exact hlast
    · rintro rfl
      cases cs with
      | nil => exact absurd rfl (hlast rfl)
      | cons d cs =>
        rintro ⟨⟩
        exact hcs List.mem_cons_self

/-- **The end of the text ends a last line**, unless that line is empty. -/
theorem lines_of_not_mem {l : List Char} (hne : l ≠ []) (h : '\n' ∉ l) : lines l = [l] := by
  induction l with
  | nil => exact absurd rfl hne
  | cons c cs ih =>
    have hc : c ≠ '\n' := fun hc => h (hc ▸ List.mem_cons_self)
    have hcs : '\n' ∉ cs := fun hcs => h (List.mem_cons_of_mem c hcs)
    rw [lines_cons hc fun _ hhead => hcs (List.mem_of_mem_head? hhead)]
    cases cs with
    | nil => rfl
    | cons d cs => rw [ih (by simp) hcs]

/-! ## Words -/

section Words

variable {sep : Char → Bool} {w : List Char} {c : Char}

/-- Collecting a run of characters that are no separators. -/
theorem wordsFrom_append (h : ∀ c ∈ w, sep c = false) (word rest : List Char) :
    wordsFrom sep word (w ++ rest) = wordsFrom sep (w.reverse ++ word) rest := by
  induction w generalizing word with
  | nil => rfl
  | cons c w ih =>
    rw [List.cons_append, wordsFrom, if_neg (by simp [h c List.mem_cons_self]),
      ih (fun d hd => h d (List.mem_cons_of_mem c hd)), List.reverse_cons, List.append_assoc,
      List.singleton_append]

theorem closeWord_reverse (hne : w ≠ []) : closeWord (w.reverse ++ []) = [w] := by
  unfold closeWord
  rw [List.append_nil, List.isEmpty_reverse, List.isEmpty_eq_false_iff.mpr hne,
    List.reverse_reverse]
  rfl

/-- **A separator ends a word.** -/
theorem words_append_sep (hne : w ≠ []) (h : ∀ c ∈ w, sep c = false) (hc : sep c = true)
    (rest : List Char) : words sep (w ++ c :: rest) = w :: words sep rest := by
  unfold words
  rw [wordsFrom_append h, wordsFrom, if_pos hc, closeWord_reverse hne, List.singleton_append]

/-- The end of the text ends a word. -/
theorem words_singleton (hne : w ≠ []) (h : ∀ c ∈ w, sep c = false) : words sep w = [w] := by
  have hend := wordsFrom_append h [] []
  rw [List.append_nil, wordsFrom, closeWord_reverse hne] at hend
  exact hend

end Words

/-- **A word of an assembly line**: a text that is not empty and contains no
blank character, no comma and no semicolon. -/
structure IsWord (s : String) : Prop where
  ne_nil : s.toList ≠ []
  isSeparator : ∀ c ∈ s.toList, SourceLine.isSeparator c = false
  ne_semicolon : ∀ c ∈ s.toList, c ≠ ';'

namespace IsWord

variable {s t : String}

theorem isBlank (h : IsWord s) {c : Char} (hc : c ∈ s.toList) : Text.isBlank c = false :=
  (Bool.or_eq_false_iff.mp (h.isSeparator c hc)).2

theorem newline_not_mem (h : IsWord s) : '\n' ∉ s.toList := fun hmem => by
  have := h.isBlank hmem
  exact absurd this (by decide)

/-- Words joined are a word. -/
theorem append (hs : IsWord s) (ht : IsWord t) : IsWord (s ++ t) where
  ne_nil := by
    rw [String.toList_append]
    exact fun h => hs.ne_nil (List.append_eq_nil_iff.mp h).1
  isSeparator := by
    rw [String.toList_append, List.forall_mem_append]
    exact ⟨hs.isSeparator, ht.isSeparator⟩
  ne_semicolon := by
    rw [String.toList_append, List.forall_mem_append]
    exact ⟨hs.ne_semicolon, ht.ne_semicolon⟩

instance (s : String) : Decidable (IsWord s) :=
  have := List.decidableBAll (fun c => SourceLine.isSeparator c = false) s.toList
  have := List.decidableBAll (fun c => c ≠ ';') s.toList
  decidable_of_iff (s.toList ≠ [] ∧ (∀ c ∈ s.toList, SourceLine.isSeparator c = false)
      ∧ ∀ c ∈ s.toList, c ≠ ';')
    ⟨fun ⟨h₁, h₂, h₃⟩ => ⟨h₁, h₂, h₃⟩, fun h => ⟨h.1, h.2, h.3⟩⟩

end IsWord

end Text

namespace SourceLine

/-! ## Reading a line -/

/-- A carriage return at the end of a line says nothing. -/
theorem significant_dropReturn (raw : List Char) :
    significant (Text.dropReturn raw) = significant raw := by
  rcases Text.dropReturn_eq_or raw with h | h
  · rw [h]
  · conv => rhs; rw [← h]
    unfold significant
    rw [List.takeWhile_append]
    split
    next hall =>
      have hself := List.takeWhile_prefix (fun c => decide (c ≠ ';')) (l := Text.dropReturn raw)
      rw [hself.eq_of_length hall, List.takeWhile_cons_of_pos (by decide), List.takeWhile_nil,
        Text.trim_append_blank _ (by decide)]
    next => rfl

theorem read_dropReturn (number : Nat) (raw : List Char) :
    read number (Text.dropReturn raw) = read number raw := by
  unfold read
  rw [significant_dropReturn]

end SourceLine

end RegMachine
