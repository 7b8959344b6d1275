import Mathlib.Algebra.Ring.Nat
import RegMachine.Proofs.Runtime

/-!
# Splicing at once

A template has places for two texts. To put both in *at once* is to go through the
template one time, from left to right, and to look for marks in the template only
(`Template.splice`). `Template.render` goes through it twice: the second time it looks for
the mark of the functions in a text that has the body in it already.

The two differ by the marks that the body makes. Such a mark may stand in the body as a
whole, or it may lie across one of its ends. `Template.render_eq_splice_iff` says that
rendering is splicing at once exactly if there are none of them, that is, if the text with
the body in it has as many marks of the functions as the template has.
`Template.render_ne_splice` is a body that makes one.

Both marks start with a brace and have no other opening brace in them. So a text may be cut
in front of every brace without cutting a mark, and its parts may be searched one by one.
-/

namespace RegMachine

namespace Text

/-- **The number of places in a text** at which a piece starts. -/
def occurrences (piece : List Char) : List Char → Nat
  | [] => 0
  | c :: cs => occurrences piece cs + if piece.isPrefixOf (c :: cs) then 1 else 0

section Marks

variable {c : Char} {piece : List Char}

/-- **A mark does not lie across a place where one may start**: it ends in front of it, or
it is none. -/
theorem isPrefixOf_append_cons (h : c ∉ piece) (d : Char) (front rest : List Char) :
    (c :: piece).isPrefixOf (d :: (front ++ c :: rest))
      = (c :: piece).isPrefixOf (d :: front) := by
  rw [Bool.eq_iff_iff, List.isPrefixOf_iff_prefix, List.isPrefixOf_iff_prefix,
    List.cons_prefix_cons, List.cons_prefix_cons]
  refine and_congr_right fun _ => ⟨fun hbegins => ?_, fun hbegins => ?_⟩
  · rcases Nat.lt_or_ge front.length piece.length with hlt | hle
    · -- the mark would go on with the first character of the rest, which it does not have
      have hrest : front ++ [c] <+: front ++ c :: rest :=
        (List.prefix_append_right_inj front).mpr ⟨rest, rfl⟩
      have hlength : (front ++ [c]).length ≤ piece.length := by
        rw [List.length_append, List.length_singleton]
        exact hlt
      have hshort := List.prefix_of_prefix_length_le hrest hbegins hlength
      exact absurd (hshort.subset (List.mem_append_right front (List.mem_singleton_self c))) h
    · exact List.prefix_of_prefix_length_le hbegins (List.prefix_append _ _) hle
  · exact hbegins.trans (List.prefix_append _ _)

/-- **A text is searched in two parts** if the second one starts as a mark does. -/
theorem occurrences_append_cons (h : c ∉ piece) (front rest : List Char) :
    occurrences (c :: piece) (front ++ c :: rest)
      = occurrences (c :: piece) front + occurrences (c :: piece) (c :: rest) := by
  induction front with
  | nil => exact (Nat.zero_add _).symm
  | cons d front ih =>
    rw [List.cons_append, occurrences, occurrences, isPrefixOf_append_cons h, ih,
      Nat.add_right_comm]

theorem replaceFrom_append_cons (h : c ∉ piece) (replacement : List Char) {skip : Nat}
    {front : List Char} (hskip : skip ≤ front.length) (rest : List Char) :
    replaceFrom (c :: piece) replacement skip (front ++ c :: rest)
      = replaceFrom (c :: piece) replacement skip front
        ++ replace (c :: piece) replacement (c :: rest) := by
  induction front generalizing skip with
  | nil =>
    obtain rfl := Nat.le_zero.mp hskip
    rfl
  | cons d front ih =>
    cases skip with
    | succ skip => exact ih (Nat.le_of_succ_le_succ hskip)
    | zero =>
      rw [List.cons_append, replaceFrom, replaceFrom, isPrefixOf_append_cons h]
      split
      next hmark =>
        have hlength := Nat.le_of_succ_le_succ (List.isPrefixOf_iff_prefix.mp hmark).length_le
        rw [List.length_cons, Nat.add_sub_cancel, ih hlength, List.append_assoc]
      next => rw [ih (Nat.zero_le _), List.cons_append]

theorem replace_append_cons (h : c ∉ piece) (replacement front rest : List Char) :
    replace (c :: piece) replacement (front ++ c :: rest)
      = replace (c :: piece) replacement front ++ replace (c :: piece) replacement (c :: rest) :=
  replaceFrom_append_cons h replacement (Nat.zero_le _) rest

/-- No mark starts in text without the character that marks start with. -/
theorem occurrences_append_of_not_mem {front : List Char} (h : c ∉ front) (rest : List Char) :
    occurrences (c :: piece) (front ++ rest) = occurrences (c :: piece) rest := by
  induction front with
  | nil => rfl
  | cons d front ih =>
    have hbegins : ¬ (c :: piece).isPrefixOf (d :: (front ++ rest)) = true := by
      rw [List.isPrefixOf_cons_cons, Bool.and_eq_true, beq_iff_eq]
      exact fun hstart => List.ne_of_not_mem_cons h hstart.1
    rw [List.cons_append, occurrences, if_neg hbegins, ih (List.not_mem_of_not_mem_cons h)]
    rfl

theorem occurrences_mark_append (h : c ∉ piece) (rest : List Char) :
    occurrences (c :: piece) (c :: piece ++ rest) = occurrences (c :: piece) rest + 1 := by
  have hbegins : (c :: piece).isPrefixOf (c :: (piece ++ rest)) = true :=
    List.isPrefixOf_iff_prefix.mpr ⟨rest, rfl⟩
  rw [List.cons_append, occurrences, if_pos hbegins, occurrences_append_of_not_mem h]

/-- Text without a mark stays as it is. -/
theorem replace_of_occurrences_eq_zero {text : List Char} (replacement : List Char)
    (h : occurrences (c :: piece) text = 0) : replace (c :: piece) replacement text = text := by
  induction text with
  | nil => rfl
  | cons d cs ih =>
    rw [occurrences] at h
    obtain ⟨hcs, hmark⟩ := Nat.add_eq_zero_iff.mp h
    have hbegins : ¬ (c :: piece).isPrefixOf (d :: cs) = true :=
      fun hbegins => absurd hmark (by rw [if_pos hbegins]; exact Nat.one_ne_zero)
    unfold replace
    rw [replaceFrom, if_neg hbegins]
    exact congrArg (d :: ·) (ih hcs)

/-! ### Texts between marks -/

/-- **Texts with a mark in front of each** but the first. -/
def between (mark first : List Char) (rest : List (List Char)) : List Char :=
  first ++ rest.flatMap (mark ++ ·)

theorem between_cons (mark first next : List Char) (rest : List (List Char)) :
    between mark first (next :: rest) = first ++ (mark ++ between mark next rest) := by
  unfold between
  rw [List.flatMap_cons, List.append_assoc]

/-- Texts without a mark stay as they are. -/
theorem map_replace_of_occurrences_eq_zero {rest : List (List Char)} (replacement : List Char)
    (h : ∀ text ∈ rest, occurrences (c :: piece) text = 0) :
    rest.map (replace (c :: piece) replacement) = rest :=
  (List.map_congr_left fun text htext =>
    replace_of_occurrences_eq_zero replacement (h text htext)).trans (List.map_id rest)

theorem length_between (mark first : List Char) (rest : List (List Char)) :
    (between mark first rest).length
      = first.length + (rest.map List.length).sum + rest.length * mark.length := by
  induction rest generalizing first with
  | nil => simp [between]
  | cons next rest ih =>
    rw [between_cons, List.length_append, List.length_append, ih, List.map_cons, List.sum_cons,
      List.length_cons, Nat.succ_mul]
    omega

/-- **Texts between marks are searched one by one.** -/
theorem replace_between (h : c ∉ piece) (replacement first : List Char)
    (rest : List (List Char)) :
    replace (c :: piece) replacement (between (c :: piece) first rest)
      = between replacement (replace (c :: piece) replacement first)
        (rest.map (replace (c :: piece) replacement)) := by
  induction rest generalizing first with
  | nil => simp only [between, List.flatMap_nil, List.append_nil, List.map_nil]
  | cons next rest ih =>
    rw [between_cons, List.cons_append, replace_append_cons h, ← List.cons_append,
      replace_mark_append, ih, List.map_cons, between_cons]

theorem occurrences_between (h : c ∉ piece) (first : List Char) (rest : List (List Char)) :
    occurrences (c :: piece) (between (c :: piece) first rest)
      = occurrences (c :: piece) first + (rest.map (occurrences (c :: piece))).sum
        + rest.length := by
  induction rest generalizing first with
  | nil => simp only [between, List.flatMap_nil, List.append_nil, List.map_nil, List.sum_nil,
      List.length_nil, Nat.add_zero]
  | cons next rest ih =>
    rw [between_cons, List.cons_append, occurrences_append_cons h, ← List.cons_append,
      occurrences_mark_append h, ih, List.map_cons, List.sum_cons, List.length_cons]
    omega

/-- **Every text is made of texts without a mark**, with marks between them. -/
theorem exists_between (c : Char) (piece text : List Char) :
    ∃ first rest, text = between (c :: piece) first rest
      ∧ occurrences (c :: piece) first = 0
      ∧ ∀ next ∈ rest, occurrences (c :: piece) next = 0 := by
  induction hlength : text.length using Nat.strong_induction_on generalizing text with
  | h length ih =>
    cases text with
    | nil => exact ⟨[], [], rfl, rfl, nofun⟩
    | cons d cs =>
      cases hbegins : (c :: piece).isPrefixOf (d :: cs) with
      | true =>
        obtain ⟨more, hmore⟩ := List.isPrefixOf_iff_prefix.mp hbegins
        have hshorter : more.length < length := by
          rw [← hlength, ← hmore, List.length_append, List.length_cons]
          omega
        obtain ⟨first, rest, hbetween, hfirst, hrest⟩ := ih _ hshorter more rfl
        refine ⟨[], first :: rest, ?_, rfl, List.forall_mem_cons.mpr ⟨hfirst, hrest⟩⟩
        rw [between_cons, ← hbetween, hmore]
        rfl
      | false =>
        obtain ⟨first, rest, hbetween, hfirst, hrest⟩ := ih cs.length
          (hlength ▸ Nat.lt_succ_self _) cs rfl
        refine ⟨d :: first, rest, congrArg (d :: ·) hbetween, ?_, hrest⟩
        have hstart : ¬ (c :: piece).isPrefixOf (d :: first) = true := by
          intro hstart
          have hcs : d :: first <+: d :: cs := ⟨rest.flatMap (c :: piece ++ ·), by
            rw [hbetween]
            rfl⟩
          have htrans := (List.isPrefixOf_iff_prefix.mp hstart).trans hcs
          rw [← List.isPrefixOf_iff_prefix, hbegins] at htrans
          exact absurd htrans Bool.false_ne_true
        rw [occurrences, hfirst, if_neg hstart]

/-- To replace marks by themselves changes nothing. -/
theorem replace_self (h : c ∉ piece) (text : List Char) :
    replace (c :: piece) (c :: piece) text = text := by
  obtain ⟨first, rest, rfl, hfirst, hrest⟩ := exists_between c piece text
  rw [replace_between h, replace_of_occurrences_eq_zero _ hfirst,
    map_replace_of_occurrences_eq_zero _ hrest]

/-- Each mark takes its length away and gives that of the replacement. -/
theorem length_replace (h : c ∉ piece) (replacement text : List Char) :
    (replace (c :: piece) replacement text).length
        + occurrences (c :: piece) text * (c :: piece).length
      = text.length + occurrences (c :: piece) text * replacement.length := by
  obtain ⟨first, rest, rfl, hfirst, hrest⟩ := exists_between c piece text
  have hnone : (rest.map (occurrences (c :: piece))).sum = 0 := by
    exact List.sum_eq_zero_iff_forall_eq_nat.mpr (List.forall_mem_map.mpr hrest)
  rw [replace_between h, replace_of_occurrences_eq_zero replacement hfirst,
    map_replace_of_occurrences_eq_zero replacement hrest, length_between, length_between,
    occurrences_between h, hfirst, hnone, Nat.add_zero, Nat.zero_add]
  omega

/-- A text in which a mark stands does not survive that the mark is replaced by something
else of the same length. -/
theorem eq_of_replace_eq_self (h : c ∉ piece) {replacement text : List Char}
    (hlength : replacement.length = (c :: piece).length)
    (hmark : occurrences (c :: piece) text ≠ 0)
    (hsame : replace (c :: piece) replacement text = text) : replacement = c :: piece := by
  obtain ⟨first, rest, rfl, hfirst, hrest⟩ := exists_between c piece text
  cases rest with
  | nil =>
    rw [occurrences_between h, hfirst] at hmark
    exact absurd rfl hmark
  | cons next rest =>
    rw [replace_between h, replace_of_occurrences_eq_zero replacement hfirst, List.map_cons,
      between_cons, between_cons] at hsame
    exact (List.append_inj (List.append_cancel_left hsame) hlength).1

/-- Texts of the same lengths between the same marks are the same. -/
theorem eq_of_between_map_eq {mark first : List Char} {rest : List (List Char)}
    {f : List Char → List Char} (hlength : ∀ text, (f text).length = text.length)
    (h : between mark (f first) (rest.map f) = between mark first rest) :
    ∀ text ∈ first :: rest, f text = text := by
  induction rest generalizing first with
  | nil =>
    refine List.forall_mem_singleton.mpr ?_
    unfold between at h
    rwa [List.map_nil, List.flatMap_nil, List.append_nil, List.append_nil] at h
  | cons next rest ih =>
    rw [List.map_cons, between_cons, between_cons] at h
    obtain ⟨hfirst, hrest⟩ := List.append_inj h (hlength first)
    exact List.forall_mem_cons.mpr ⟨hfirst, ih (List.append_cancel_left hrest)⟩

/-- **Marks that stand in the texts between marks are replaced too**, and this shows, unless
each is replaced by itself. -/
theorem replace_between_eq_iff (h : c ∉ piece) (replacement first : List Char)
    (rest : List (List Char)) :
    replace (c :: piece) replacement (between (c :: piece) first rest)
        = between replacement first rest
      ↔ replacement = c :: piece
        ∨ occurrences (c :: piece) (between (c :: piece) first rest) = rest.length := by
  have hcount := occurrences_between h first rest
  constructor
  · intro hsame
    by_cases hnone : occurrences (c :: piece) (between (c :: piece) first rest) = rest.length
    · exact .inr hnone
    · left
      have htotal := length_replace h replacement (between (c :: piece) first rest)
      -- the marks that stand in the texts are as many times as long as what replaces them
      have hextra : (occurrences (c :: piece) (between (c :: piece) first rest) - rest.length)
            * replacement.length
          = (occurrences (c :: piece) (between (c :: piece) first rest) - rest.length)
            * (c :: piece).length := by
        rw [hsame, length_between, length_between] at htotal
        rw [Nat.sub_mul, Nat.sub_mul]
        have hle : rest.length ≤ occurrences (c :: piece) (between (c :: piece) first rest) := by
          omega
        have hle₁ := Nat.mul_le_mul_right replacement.length hle
        have hle₂ := Nat.mul_le_mul_right (c :: piece).length hle
        omega
      have hlength := Nat.eq_of_mul_eq_mul_left (by omega) hextra
      have hkept : ∀ text, (replace (c :: piece) replacement text).length = text.length := by
        intro text
        have hreplace := length_replace h replacement text
        rw [hlength] at hreplace
        exact Nat.add_right_cancel hreplace
      rw [replace_between h] at hsame
      have htexts := eq_of_between_map_eq hkept hsame
      -- one of the texts has a mark
      obtain ⟨text, htext, hmark⟩ :
          ∃ text ∈ first :: rest, occurrences (c :: piece) text ≠ 0 := by
        by_contra hall
        have hzero : ∀ text ∈ first :: rest, occurrences (c :: piece) text = 0 := by
          intro text htext
          by_contra hmark
          exact hall ⟨text, htext, hmark⟩
        obtain ⟨hfirst, hrest⟩ := List.forall_mem_cons.mp hzero
        have hsum : (rest.map (occurrences (c :: piece))).sum = 0 :=
          List.sum_eq_zero_iff_forall_eq_nat.mpr (List.forall_mem_map.mpr hrest)
        omega
      exact eq_of_replace_eq_self h hlength hmark (htexts text htext)
  · rintro (rfl | hnone)
    · exact replace_self h _
    · have hfirst : occurrences (c :: piece) first = 0 := by omega
      have hsum : (rest.map (occurrences (c :: piece))).sum = 0 := by omega
      have hrest := List.forall_mem_map.mp (List.sum_eq_zero_iff_forall_eq_nat.mp hsum)
      rw [replace_between h, replace_of_occurrences_eq_zero replacement hfirst,
        map_replace_of_occurrences_eq_zero replacement hrest]

end Marks

/-! ### Two marks in one pass -/

/-- The two marks replaced, in a text of which the first `skip` characters belong to a mark
already replaced. -/
def spliceFrom (mark₁ text₁ mark₂ text₂ : List Char) : Nat → List Char → List Char
  | _, [] => []
  | skip + 1, _ :: cs => spliceFrom mark₁ text₁ mark₂ text₂ skip cs
  | 0, c :: cs =>
    if mark₁.isPrefixOf (c :: cs) then
      text₁ ++ spliceFrom mark₁ text₁ mark₂ text₂ (mark₁.length - 1) cs
    else if mark₂.isPrefixOf (c :: cs) then
      text₂ ++ spliceFrom mark₁ text₁ mark₂ text₂ (mark₂.length - 1) cs
    else c :: spliceFrom mark₁ text₁ mark₂ text₂ 0 cs

/-- **Two marks replaced in one pass**, from left to right: what is put in the place of a
mark is not searched. -/
def splice (mark₁ text₁ mark₂ text₂ text : List Char) : List Char :=
  spliceFrom mark₁ text₁ mark₂ text₂ 0 text

theorem spliceFrom_eq_splice_drop (mark₁ text₁ mark₂ text₂ : List Char) (skip : Nat)
    (cs : List Char) :
    spliceFrom mark₁ text₁ mark₂ text₂ skip cs
      = splice mark₁ text₁ mark₂ text₂ (cs.drop skip) := by
  induction cs generalizing skip with
  | nil => cases skip <;> rfl
  | cons c cs ih =>
    cases skip with
    | zero => rfl
    | succ skip => exact ih skip

section TwoMarks

variable {c : Char} {piece₁ piece₂ : List Char} (text₁ text₂ : List Char)

theorem spliceFrom_append_cons (h₁ : c ∉ piece₁) (h₂ : c ∉ piece₂) {skip : Nat}
    {front : List Char} (hskip : skip ≤ front.length) (rest : List Char) :
    spliceFrom (c :: piece₁) text₁ (c :: piece₂) text₂ skip (front ++ c :: rest)
      = spliceFrom (c :: piece₁) text₁ (c :: piece₂) text₂ skip front
        ++ splice (c :: piece₁) text₁ (c :: piece₂) text₂ (c :: rest) := by
  induction front generalizing skip with
  | nil =>
    obtain rfl := Nat.le_zero.mp hskip
    rfl
  | cons d front ih =>
    cases skip with
    | succ skip => exact ih (Nat.le_of_succ_le_succ hskip)
    | zero =>
      rw [List.cons_append, spliceFrom, spliceFrom, isPrefixOf_append_cons h₁,
        isPrefixOf_append_cons h₂]
      split
      next hmark =>
        have hlength := Nat.le_of_succ_le_succ (List.isPrefixOf_iff_prefix.mp hmark).length_le
        rw [List.length_cons, Nat.add_sub_cancel, ih hlength, List.append_assoc]
      next =>
        split
        next hmark =>
          have hlength := Nat.le_of_succ_le_succ (List.isPrefixOf_iff_prefix.mp hmark).length_le
          rw [List.length_cons, Nat.add_sub_cancel, ih hlength, List.append_assoc]
        next => rw [ih (Nat.zero_le _), List.cons_append]

/-- Without the second mark only the first one is replaced. -/
theorem spliceFrom_of_occurrences_eq_zero {text : List Char}
    (h : occurrences (c :: piece₂) text = 0) (skip : Nat) :
    spliceFrom (c :: piece₁) text₁ (c :: piece₂) text₂ skip text
      = replaceFrom (c :: piece₁) text₁ skip text := by
  induction text generalizing skip with
  | nil => cases skip <;> rfl
  | cons d cs ih =>
    rw [occurrences] at h
    obtain ⟨hcs, hmark⟩ := Nat.add_eq_zero_iff.mp h
    cases skip with
    | succ skip => exact ih hcs skip
    | zero =>
      have hbegins : ¬ (c :: piece₂).isPrefixOf (d :: cs) = true :=
        fun hbegins => absurd hmark (by rw [if_pos hbegins]; exact Nat.one_ne_zero)
      rw [spliceFrom, replaceFrom, if_neg hbegins, ih hcs, ih hcs]

variable (hapart : ∀ rest, ¬ (c :: piece₁).isPrefixOf (c :: (piece₂ ++ rest)) = true)
include hapart

/-- The second mark is passed over in the search for the first one. -/
theorem replace_other_append (h₂ : c ∉ piece₂) (rest : List Char) :
    replace (c :: piece₁) text₁ (c :: piece₂ ++ rest)
      = c :: piece₂ ++ replace (c :: piece₁) text₁ rest := by
  show replaceFrom (c :: piece₁) text₁ 0 (c :: (piece₂ ++ rest)) = _
  rw [replaceFrom, if_neg (hapart rest)]
  exact congrArg (c :: ·) (replace_append_of_not_mem h₂ rest)

theorem splice_other_append (rest : List Char) :
    splice (c :: piece₁) text₁ (c :: piece₂) text₂ (c :: piece₂ ++ rest)
      = text₂ ++ splice (c :: piece₁) text₁ (c :: piece₂) text₂ rest := by
  have hbegins : (c :: piece₂).isPrefixOf (c :: (piece₂ ++ rest)) = true :=
    List.isPrefixOf_iff_prefix.mpr ⟨rest, rfl⟩
  show spliceFrom (c :: piece₁) text₁ (c :: piece₂) text₂ 0 (c :: (piece₂ ++ rest)) = _
  rw [spliceFrom, if_neg (hapart rest), if_pos hbegins, spliceFrom_eq_splice_drop,
    List.length_cons, Nat.add_sub_cancel, List.drop_left]

/-- The texts between second marks are searched for the first one, one by one. -/
theorem replace_between_other (h₁ : c ∉ piece₁) (h₂ : c ∉ piece₂) (first : List Char)
    (rest : List (List Char)) :
    replace (c :: piece₁) text₁ (between (c :: piece₂) first rest)
      = between (c :: piece₂) (replace (c :: piece₁) text₁ first)
        (rest.map (replace (c :: piece₁) text₁)) := by
  induction rest generalizing first with
  | nil => simp only [between, List.flatMap_nil, List.append_nil, List.map_nil]
  | cons next rest ih =>
    rw [between_cons, List.cons_append, replace_append_cons h₁, ← List.cons_append,
      replace_other_append text₁ hapart h₂, ih, List.map_cons, between_cons]

/-- **One pass over texts between second marks** replaces the first mark in the texts and the
marks between them. -/
theorem splice_between (h₁ : c ∉ piece₁) (h₂ : c ∉ piece₂) {first : List Char}
    {rest : List (List Char)} (hfirst : occurrences (c :: piece₂) first = 0)
    (hrest : ∀ text ∈ rest, occurrences (c :: piece₂) text = 0) :
    splice (c :: piece₁) text₁ (c :: piece₂) text₂ (between (c :: piece₂) first rest)
      = between text₂ (replace (c :: piece₁) text₁ first)
        (rest.map (replace (c :: piece₁) text₁)) := by
  induction rest generalizing first with
  | nil =>
    simp only [between, List.flatMap_nil, List.append_nil, List.map_nil]
    exact spliceFrom_of_occurrences_eq_zero text₁ text₂ hfirst 0
  | cons next rest ih =>
    obtain ⟨hnext, hrest⟩ := List.forall_mem_cons.mp hrest
    have hcut : splice (c :: piece₁) text₁ (c :: piece₂) text₂
          (first ++ (c :: piece₂ ++ between (c :: piece₂) next rest))
        = splice (c :: piece₁) text₁ (c :: piece₂) text₂ first
          ++ splice (c :: piece₁) text₁ (c :: piece₂) text₂
            (c :: piece₂ ++ between (c :: piece₂) next rest) :=
      spliceFrom_append_cons text₁ text₂ h₁ h₂ (Nat.zero_le _) _
    have hfront : splice (c :: piece₁) text₁ (c :: piece₂) text₂ first
        = replace (c :: piece₁) text₁ first :=
      spliceFrom_of_occurrences_eq_zero text₁ text₂ hfirst 0
    rw [between_cons, hcut, hfront, splice_other_append text₁ text₂ hapart, ih hnext hrest,
      List.map_cons, between_cons]

/-- **Two passes do what one does** exactly if the first one makes no second mark, or if the
second one changes nothing. -/
theorem replace_replace_eq_splice_iff (h₁ : c ∉ piece₁) (h₂ : c ∉ piece₂) (text : List Char) :
    replace (c :: piece₂) text₂ (replace (c :: piece₁) text₁ text)
        = splice (c :: piece₁) text₁ (c :: piece₂) text₂ text
      ↔ text₂ = c :: piece₂
        ∨ occurrences (c :: piece₂) (replace (c :: piece₁) text₁ text)
          = occurrences (c :: piece₂) text := by
  obtain ⟨first, rest, rfl, hfirst, hrest⟩ := exists_between c piece₂ text
  have hsum : (rest.map (occurrences (c :: piece₂))).sum = 0 :=
    List.sum_eq_zero_iff_forall_eq_nat.mpr (List.forall_mem_map.mpr hrest)
  have hmarks : occurrences (c :: piece₂) (between (c :: piece₂) first rest)
      = (rest.map (replace (c :: piece₁) text₁)).length := by
    rw [occurrences_between h₂, hfirst, hsum, Nat.zero_add, List.length_map]
  rw [splice_between text₁ text₂ hapart h₁ h₂ hfirst hrest,
    replace_between_other text₁ hapart h₁ h₂, hmarks]
  exact replace_between_eq_iff h₂ text₂ _ _

end TwoMarks

end Text

namespace Template

/-- **The body and the functions put into a template at once**: one pass over the template,
in which the texts put in are not searched. -/
def splice (template body functions : String) : String :=
  String.ofList
    (Text.splice bodyMark.toList body.toList functionsMark.toList functions.toList
      template.toList)

/-- **Rendering is splicing at once** exactly if the body makes no mark of the functions:
none that stands in it, and none across its ends. (It is also if each such mark is
replaced by itself.) -/
theorem render_eq_splice_iff (template body functions : String) :
    render template body functions = splice template body functions
      ↔ functions = functionsMark
        ∨ Text.occurrences functionsMark.toList
            (Text.replace bodyMark.toList body.toList template.toList)
          = Text.occurrences functionsMark.toList template.toList := by
  have hbody : '\x7b' ∉ "code\x7d".toList := by decide
  have hfunctions : '\x7b' ∉ "func_code\x7d".toList := by decide
  have hapart : ∀ rest, ¬ ('\x7b' :: "code\x7d".toList).isPrefixOf
      ('\x7b' :: ("func_code\x7d".toList ++ rest)) = true := fun _ => Bool.false_ne_true
  have hmark : functions = functionsMark
      ↔ functions.toList = '\x7b' :: "func_code\x7d".toList := String.toList_inj.symm
  rw [hmark]
  exact String.ofList_inj.trans (Text.replace_replace_eq_splice_iff body.toList functions.toList
    hapart hbody hfunctions template.toList)

/-- **A body that makes a mark**: the path of an included file stands in the comment that the
body has for it. The functions are put in its place too. -/
theorem render_ne_splice :
    ¬ ∀ template body functions,
      render template body functions = splice template body functions := by
  intro h
  have hrender : render (bodyMark ++ "\n.halt\n" ++ functionsMark ++ "\n")
        ("; include " ++ functionsMark) ".f\njpr r20"
      = "; include .f\njpr r20\n.halt\n.f\njpr r20\n" := by decide +kernel
  have hsplice : splice (bodyMark ++ "\n.halt\n" ++ functionsMark ++ "\n")
        ("; include " ++ functionsMark) ".f\njpr r20"
      = "; include " ++ functionsMark ++ "\n.halt\n.f\njpr r20\n" := by decide +kernel
  rw [h, hsplice] at hrender
  exact absurd hrender (by decide)

end Template

end RegMachine
