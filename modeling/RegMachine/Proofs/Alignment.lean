import RegMachine.Proofs.Runtime
import RegMachine.Proofs.Skeleton
import RegMachine.Proofs.Spliced

/-!
# Texts up to addresses

The texts of matching fragments are *aligned* (`Text.Aligned`): they agree
character by character, except behind the semicolon of a comment and in the word
at the end of a line that loads one. A placeholder never starts in such a place
nor runs into it, so aligned streams that are put into the same template, whatever
it is, give aligned texts again (`Text.Aligned.render`).

Aligned texts have as many lines. A line of a template may go on where a line of
the stream starts, so two lines that differ in a word have any text in front of
it. Reading that text does not depend on the word. The line is a comment, it
defines a label, or it is an instruction whose last operand is the word
(`SourceLine.Similar`).
-/

namespace RegMachine

/-! ## Loads of a word -/

/-- The operands of the load of a word as they are written. -/
def loadOperands (rd : Reg) (word : UInt32) : List Char :=
  (", ".intercalate [rd.text, (Operand.hex word).text]).toList

/-- **The load of a word as it is written.** -/
def loadText (rd : Reg) (word : UInt32) : List Char := "ldr".toList ++ ' ' :: loadOperands rd word

theorem Item.toList_text_ldr (rd : Reg) (word : UInt32) :
    (Item.ldr rd (.hex word)).text.toList = loadText rd word := by
  show ("ldr" ++ " " ++ ", ".intercalate [rd.text, (Operand.hex word).text]).toList = _
  rw [String.toList_append, String.toList_append, List.append_assoc]
  rfl

section LoadText

variable (rd : Reg) (word : UInt32)

theorem isWord_loadOperands : ∀ op ∈ [rd.text, (Operand.hex word).text], Text.IsWord op := by
  rw [List.forall_mem_cons, List.forall_mem_singleton]
  exact ⟨rd.isWord_text, Operand.isWord_text nofun⟩

theorem isPlain_ldr : Text.IsPlain (Item.ldr rd (.hex word)).text :=
  have hoperands := Instr.isPlain_operands (i := .ldr rd (.hex word)) nofun
  .append (.append (Mnemonic.isPlain_text .ldr) (by decide)) (.intercalate (by decide) hoperands)

theorem newline_not_mem_loadText : '\n' ∉ loadText rd word := by
  rw [← Item.toList_text_ldr]
  exact fun hmem => (isPlain_ldr rd word '\n' hmem).1 rfl

theorem brace_not_mem_loadText : '\x7b' ∉ loadText rd word := by
  rw [← Item.toList_text_ldr]
  exact fun hmem => (isPlain_ldr rd word '\x7b' hmem).2 rfl

theorem semicolon_not_mem_loadText : ';' ∉ loadText rd word := by
  intro hmem
  unfold loadText at hmem
  rw [List.mem_append, List.mem_cons] at hmem
  obtain hmem | hmem | hmem := hmem
  · exact absurd hmem (by decide)
  · exact absurd hmem (by decide)
  · rcases Text.mem_intercalate hmem with hmem | ⟨op, hop, hmem⟩
    · exact absurd hmem (by decide)
    · exact (isWord_loadOperands rd word op hop).ne_semicolon _ hmem rfl

theorem words_loadOperands :
    Text.words SourceLine.isSeparator (loadOperands rd word)
      = [rd.text.toList, (Operand.hex word).text.toList] :=
  words_intercalate (isWord_loadOperands rd word)

end LoadText

/-! ## Aligned texts -/

/-- **Two texts are aligned**: they are the same but for comments, which are of one line
and open no brace, and for words that are loaded at the end of a line. -/
inductive Text.Aligned : List Char → List Char → Prop
  | nil : Aligned [] []
  | char (c : Char) {xs ys : List Char} (h : Aligned xs ys) : Aligned (c :: xs) (c :: ys)
  | comment {x y xs ys : List Char} (hx : ∀ c ∈ x, c ≠ '\n' ∧ c ≠ '\x7b')
      (hy : ∀ c ∈ y, c ≠ '\n' ∧ c ≠ '\x7b') (h : Aligned xs ys) :
      Aligned (';' :: (x ++ xs)) (';' :: (y ++ ys))
  | load (rd : Reg) (a b : UInt32) {xs ys : List Char} (h : Aligned xs ys) :
      Aligned (loadText rd a ++ '\n' :: xs) (loadText rd b ++ '\n' :: ys)

namespace Text.Aligned

variable {xs ys r r' piece : List Char}

protected theorem refl (xs : List Char) : Aligned xs xs := by
  induction xs with
  | nil => exact .nil
  | cons c xs ih => exact .char c ih

protected theorem symm (h : Aligned xs ys) : Aligned ys xs := by
  induction h with
  | nil => exact .nil
  | char c _ ih => exact .char c ih
  | comment hx hy _ ih => exact .comment hy hx ih
  | load rd a b _ ih => exact .load rd b a ih

protected theorem append (h : Aligned xs ys) (h' : Aligned r r') :
    Aligned (xs ++ r) (ys ++ r') := by
  induction h with
  | nil => exact h'
  | char c _ ih => exact .char c ih
  | comment hx hy _ ih =>
    rw [List.cons_append, List.cons_append, List.append_assoc, List.append_assoc]
    exact .comment hx hy ih
  | load rd a b _ ih =>
    rw [List.append_assoc, List.append_assoc]
    exact .load rd a b ih

/-! ### Replacing marks -/

/-- Aligned texts start alike, up to the first place where they may differ. -/
theorem exists_of_append (hsemi : ';' ∉ piece) (hload : 'l' ∉ piece) {rest : List Char}
    (h : Aligned (piece ++ rest) ys) : ∃ rest', ys = piece ++ rest' ∧ Aligned rest rest' := by
  induction piece generalizing ys with
  | nil => exact ⟨ys, rfl, h⟩
  | cons c piece ih =>
    rw [List.mem_cons, not_or] at hsemi hload
    generalize hxs : c :: piece ++ rest = xs at h
    cases h with
    | nil => exact nomatch hxs
    | char d h =>
      cases hxs
      obtain ⟨rest', rfl, hrest⟩ := ih hsemi.2 hload.2 h
      exact ⟨rest', rfl, hrest⟩
    | comment => exact absurd (List.cons.inj hxs).1.symm hsemi.1
    | load rd a b => exact absurd (List.cons.inj hxs).1.symm hload.1

/-- **A mark is replaced alike** in aligned texts. -/
theorem replace (h : Aligned xs ys) (hsemi : ';' ∉ piece) (hload : 'l' ∉ piece)
    (hr : Aligned r r') :
    Aligned (Text.replace ('\x7b' :: piece) r xs) (Text.replace ('\x7b' :: piece) r' ys) := by
  have hsemi : ';' ∉ '\x7b' :: piece := List.not_mem_cons_of_ne_of_not_mem (by decide) hsemi
  have hload : 'l' ∉ '\x7b' :: piece := List.not_mem_cons_of_ne_of_not_mem (by decide) hload
  -- behind a mark the search goes on in what is left, which is shorter
  induction hlength : xs.length using Nat.strong_induction_on generalizing xs ys with
  | _ n ih =>
    subst hlength
    cases h with
    | nil => exact .nil
    | @char c xs ys h =>
      by_cases hstart : '\x7b' :: piece <+: c :: xs
      · obtain ⟨rest, hrest⟩ := hstart
        have hchar := Aligned.char c h
        rw [← hrest] at hchar
        obtain ⟨rest', hrest', htail⟩ := exists_of_append hsemi hload hchar
        rw [← hrest, hrest', replace_mark_append, replace_mark_append]
        refine hr.append (ih rest.length ?_ htail rfl)
        rw [← hrest, List.length_append, List.length_cons]
        omega
      · have hstart' : ¬ '\x7b' :: piece <+: c :: ys := by
          rintro ⟨rest, hrest⟩
          have hchar := (Aligned.char c h).symm
          rw [← hrest] at hchar
          obtain ⟨rest', hrest', -⟩ := exists_of_append hsemi hload hchar
          exact hstart ⟨rest', hrest'.symm⟩
        rw [← List.isPrefixOf_iff_prefix] at hstart hstart'
        unfold Text.replace
        rw [replaceFrom, replaceFrom, if_neg hstart, if_neg hstart']
        exact .char c (ih xs.length (Nat.lt_succ_self _) h rfl)
    | @comment x y xs ys hx hy h =>
      have hfront : ∀ z : List Char, (∀ c ∈ z, c ≠ '\n' ∧ c ≠ '\x7b') → '\x7b' ∉ ';' :: z :=
        fun z hz => List.not_mem_cons_of_ne_of_not_mem (by decide) fun hmem => (hz _ hmem).2 rfl
      rw [← List.cons_append, ← List.cons_append, replace_append_of_not_mem (hfront x hx),
        replace_append_of_not_mem (hfront y hy)]
      refine .comment hx hy (ih xs.length ?_ h rfl)
      rw [List.length_cons, List.length_append]
      omega
    | @load rd a b xs ys h =>
      have hline : ∀ word r zs, Text.replace ('\x7b' :: piece) r (loadText rd word ++ '\n' :: zs)
          = loadText rd word ++ '\n' :: Text.replace ('\x7b' :: piece) r zs := by
        intro word r zs
        have hnewline : '\x7b' ∉ ['\n'] := by decide
        rw [replace_append_of_not_mem (brace_not_mem_loadText rd word)]
        exact congrArg (loadText rd word ++ ·) (replace_append_of_not_mem hnewline zs)
      rw [hline, hline]
      refine .load rd a b (ih xs.length ?_ h rfl)
      rw [List.length_append, List.length_cons]
      omega

/-- **Aligned streams are spliced into a template alike.** -/
theorem render {body body' functions functions' : String}
    (hbody : Aligned body.toList body'.toList)
    (hfunctions : Aligned functions.toList functions'.toList) (template : String) :
    Aligned (Template.render template body functions).toList
      (Template.render template body' functions').toList := by
  have hbodyMark : Template.bodyMark.toList = '\x7b' :: "code\x7d".toList := rfl
  have hfunctionsMark : Template.functionsMark.toList = '\x7b' :: "func_code\x7d".toList := rfl
  unfold Template.render
  rw [String.toList_ofList, String.toList_ofList, hbodyMark, hfunctionsMark]
  exact ((Aligned.refl template.toList).replace (by decide) (by decide) hbody).replace (by decide)
    (by decide) hfunctions

end Text.Aligned

/-! ## Texts of fragments -/

namespace Fragment

variable {f g : Fragment}

/-- The comments of a fragment are plain. -/
def PlainComments (f : Fragment) : Prop := ∀ text, .comment text ∈ f → Text.IsPlain text

/-- What is rendered of similar fragments is similar. -/
theorem Similar.shown (h : Similar f g) (comments : Bool) :
    Similar (f.shown comments) (g.shown comments) := by
  have hskeleton : ∀ f : Fragment, (f.shown comments).map Item.skeleton
      = Fragment.shown (f.map Item.skeleton) comments := by
    intro f
    unfold Fragment.shown
    rw [List.filter_map]
    refine congrArg (fun p => (f.filter p).map Item.skeleton) (funext fun item => ?_)
    unfold Function.comp Item.skeleton
    split <;> rfl
  unfold Similar
  rw [hskeleton, h, hskeleton]

/-- What is rendered of a complete fragment is complete. -/
theorem Complete.shown (h : Complete f) (comments : Bool) : Complete (f.shown comments) := by
  have hlast : Fragment.last? (f.shown comments) = f.last? := by
    unfold Fragment.last? Fragment.shown
    rw [List.filter_filter]
    congr 2
    funext item
    cases item.isComment <;> cases comments <;> rfl
  unfold Complete
  rw [hlast]
  exact h

theorem Complete.of_cons {item : Item} (h : Complete (item :: f)) : Complete f := by
  intro last hlast
  refine h last ?_
  have happend := last?_append [item] f
  rw [List.singleton_append, Option.mem_def.mp hlast] at happend
  exact happend

theorem PlainComments.of_cons {item : Item} (h : PlainComments (item :: f)) : PlainComments f :=
  fun text hmem => h text (List.mem_cons_of_mem item hmem)

end Fragment

section Items

variable {a b : Item} {xs ys : List Char}

/-- The lines of two comments are aligned in front of aligned texts. -/
theorem Text.Aligned.comment_line {text text' : String} (htext : IsPlain text)
    (htext' : IsPlain text') (h : Aligned xs ys) :
    Aligned ((Item.comment text).text.toList ++ xs) ((Item.comment text').text.toList ++ ys) := by
  have hblank : ∀ text : String, IsPlain text → ∀ c ∈ ' ' :: text.toList, c ≠ '\n' ∧ c ≠ '\x7b' :=
    fun text htext => List.forall_mem_cons.mpr ⟨by decide, htext⟩
  rw [Item.text, Item.text, String.toList_append, String.toList_append]
  exact .comment (hblank text htext) (hblank text' htext') h

/-- Items that are the same up to addresses have aligned lines. -/
theorem Item.aligned_line (hab : a.skeleton = b.skeleton)
    (ha : ∀ text, a = .comment text → Text.IsPlain text)
    (hb : ∀ text, b = .comment text → Text.IsPlain text) (h : Text.Aligned xs ys) :
    Text.Aligned (a.text.toList ++ '\n' :: xs) (b.text.toList ++ '\n' :: ys) := by
  obtain rfl | ⟨text, text', rfl, rfl⟩ | ⟨rd, word, word', rfl, rfl⟩ := cases_of_skeleton hab
  · exact (Text.Aligned.refl _).append (.char '\n' h)
  · exact .comment_line (ha text rfl) (hb text' rfl) (.char '\n' h)
  · rw [toList_text_ldr, toList_text_ldr]
    exact .load rd word word' h

/-- The last line needs no line feed behind it if it loads no word. -/
theorem Item.aligned_last (hab : a.skeleton = b.skeleton)
    (ha : ∀ text, a = .comment text → Text.IsPlain text)
    (hb : ∀ text, b = .comment text → Text.IsPlain text) (hload : a.loadsWord = false) :
    Text.Aligned a.text.toList b.text.toList := by
  obtain rfl | ⟨text, text', rfl, rfl⟩ | ⟨rd, word, word', rfl, rfl⟩ := cases_of_skeleton hab
  · exact .refl _
  · have hcomment := Text.Aligned.comment_line (ha text rfl) (hb text' rfl) .nil
    rwa [List.append_nil, List.append_nil] at hcomment
  · exact nomatch hload

end Items

namespace Fragment

variable {f g : Fragment}

theorem aligned_intercalate
    (h : List.Forall₂ (fun a b : Item => a.skeleton = b.skeleton) f g)
    (hcomplete : Complete f) (hf : PlainComments f) (hg : PlainComments g) :
    Text.Aligned ("\n".intercalate (f.map Item.text)).toList
      ("\n".intercalate (g.map Item.text)).toList := by
  induction h with
  | nil => exact .nil
  | @cons a b f g hab hrest ih =>
    have ha : ∀ text, a = .comment text → Text.IsPlain text :=
      fun text heq => hf text (heq ▸ List.mem_cons_self)
    have hb : ∀ text, b = .comment text → Text.IsPlain text :=
      fun text heq => hg text (heq ▸ List.mem_cons_self)
    have hlines := ih hcomplete.of_cons hf.of_cons hg.of_cons
    cases hrest with
    | nil =>
      rw [List.map_singleton, List.map_singleton, String.intercalate_singleton,
        String.intercalate_singleton]
      refine Item.aligned_last hab ha hb ?_
      cases a with
      | comment text => rfl
      | instr | label | raw => exact hcomplete _ rfl
    | cons =>
      rw [List.map_cons, List.map_cons, List.map_cons, List.map_cons,
        String.intercalate_cons_cons, String.intercalate_cons_cons, String.toList_append,
        String.toList_append, String.toList_append, String.toList_append, List.append_assoc,
        List.append_assoc]
      exact Item.aligned_line hab ha hb hlines

/-- **Matching fragments have aligned texts**, with or without their comments. -/
theorem Matches.aligned_render (h : Matches f g) (hf : ∀ item ∈ f, item.text.toList ≠ [])
    (hg : ∀ item ∈ g, item.text.toList ≠ []) (hplain : PlainComments f)
    (hplain' : PlainComments g)
    (comments : Bool) : Text.Aligned (f.render comments).toList (g.render comments).toList := by
  have hshown : List.Forall₂ (fun a b : Item => a.skeleton = b.skeleton) (f.shown comments)
      (g.shown comments) := by
    rw [← List.forall₂_map_right_iff, ← List.forall₂_map_left_iff, List.forall₂_eq_eq_eq]
    exact h.similar.shown comments
  rw [render_eq hf, render_eq hg]
  exact aligned_intercalate hshown (h.complete.shown comments)
    (fun text hmem => hplain text (List.mem_filter.mp hmem).1)
    fun text hmem => hplain' text (List.mem_filter.mp hmem).1

end Fragment

/-! ## Lines -/

/-- **Two lines are the same up to addresses**: they are equal, or differ in a comment, or
in a word that is loaded at their end. -/
inductive SameLine : List Char → List Char → Prop
  | same (raw : List Char) : SameLine raw raw
  | comment (front x y : List Char) : SameLine (front ++ ';' :: x) (front ++ ';' :: y)
  | load (front : List Char) (rd : Reg) (a b : UInt32) :
      SameLine (front ++ loadText rd a) (front ++ loadText rd b)

theorem SameLine.cons (c : Char) {raw raw' : List Char} (h : SameLine raw raw') :
    SameLine (c :: raw) (c :: raw') := by
  cases h with
  | same => exact .same (c :: raw)
  | comment front x y => exact .comment (c :: front) x y
  | load front rd a b => exact .load (c :: front) rd a b

/-- **Aligned texts start with the same line up to addresses**, or are such a line. -/
theorem Text.Aligned.split {xs ys : List Char} (h : Aligned xs ys) :
    (∃ l l' rest rest', xs = l ++ '\n' :: rest ∧ ys = l' ++ '\n' :: rest' ∧ '\n' ∉ l ∧ '\n' ∉ l'
        ∧ SameLine l l' ∧ Aligned rest rest')
      ∨ '\n' ∉ xs ∧ '\n' ∉ ys ∧ SameLine xs ys ∧ (xs = [] ↔ ys = []) := by
  induction h with
  | nil => exact .inr ⟨List.not_mem_nil, List.not_mem_nil, .same [], Iff.rfl⟩
  | @char c xs ys h ih =>
    by_cases hc : c = '\n'
    · subst hc
      exact .inl ⟨[], [], xs, ys, rfl, rfl, List.not_mem_nil, List.not_mem_nil, .same [], h⟩
    · have hne : ∀ l : List Char, '\n' ∉ l → '\n' ∉ c :: l :=
        fun l => List.not_mem_cons_of_ne_of_not_mem (Ne.symm hc)
      obtain ⟨l, l', rest, rest', rfl, rfl, hl, hl', hline, hrest⟩ | ⟨hxs, hys, hline, -⟩ := ih
      · exact .inl ⟨c :: l, c :: l', rest, rest', rfl, rfl, hne l hl, hne l' hl', hline.cons c,
          hrest⟩
      · exact .inr ⟨hne xs hxs, hne ys hys, hline.cons c, iff_of_false nofun nofun⟩
  | @comment x y xs ys hx hy h ih =>
    have hne : ∀ z l : List Char, (∀ c ∈ z, c ≠ '\n' ∧ c ≠ '\x7b') → '\n' ∉ l →
        '\n' ∉ ';' :: (z ++ l) := by
      intro z l hz hl
      refine List.not_mem_cons_of_ne_of_not_mem (by decide) fun hmem => ?_
      obtain hmem | hmem := List.mem_append.mp hmem
      · exact (hz _ hmem).1 rfl
      · exact hl hmem
    obtain ⟨l, l', rest, rest', rfl, rfl, hl, hl', -, hrest⟩ | ⟨hxs, hys, -, -⟩ := ih
    · refine .inl ⟨';' :: (x ++ l), ';' :: (y ++ l'), rest, rest', ?_, ?_, hne x l hx hl,
        hne y l' hy hl', .comment [] _ _, hrest⟩
      · rw [List.cons_append, List.append_assoc]
      · rw [List.cons_append, List.append_assoc]
    · exact .inr ⟨hne x xs hx hxs, hne y ys hy hys, .comment [] _ _, iff_of_false nofun nofun⟩
  | @load rd a b xs ys h =>
    exact .inl ⟨_, _, xs, ys, rfl, rfl, newline_not_mem_loadText rd a,
      newline_not_mem_loadText rd b, .load [] rd a b, h⟩

/-! ## Words behind any text -/

namespace Text

variable {sep : Char → Bool}

/-- The words on both sides of a separator. -/
theorem words_append_cons {c : Char} (hc : sep c = true) (front rest : List Char) :
    words sep (front ++ c :: rest) = words sep front ++ words sep rest := by
  suffices h : ∀ word, wordsFrom sep word (front ++ c :: rest)
      = wordsFrom sep word front ++ words sep rest from h []
  induction front with
  | nil =>
    intro word
    show (if sep c then closeWord word ++ words sep rest else _)
      = closeWord word ++ words sep rest
    rw [if_pos hc]
  | cons d front ih =>
    intro word
    rw [List.cons_append, wordsFrom, wordsFrom]
    split
    · rw [ih, List.append_assoc]
    · exact ih _

/-- Text that ends in a word ends in it, or in a longer one. -/
theorem exists_words_append {w : List Char} (hne : w ≠ []) (hw : ∀ c ∈ w, sep c = false)
    (front : List Char) : ∃ before glued, words sep (front ++ w) = before ++ [glued ++ w] := by
  suffices h :
      ∀ word, ∃ before glued, wordsFrom sep word (front ++ w) = before ++ [glued ++ w] from
    h []
  induction front with
  | nil =>
    intro word
    refine ⟨[], word.reverse, ?_⟩
    have hend := wordsFrom_append hw word []
    rw [List.append_nil, wordsFrom, closeWord, if_neg (by simp [hne])] at hend
    rw [List.nil_append, hend, List.reverse_append, List.reverse_reverse]
    rfl
  | cons c front ih =>
    intro word
    rw [List.cons_append, wordsFrom]
    split
    · obtain ⟨before, glued, hwords⟩ := ih []
      exact ⟨closeWord word ++ before, glued, by rw [hwords, List.append_assoc]⟩
    · exact ih _

/-- Text that ends in no blank character is trimmed at its start only, if at all. -/
theorem trim_append {front text : List Char} (hne : text ≠ [])
    (hhead : ∀ c ∈ text.head?, isBlank c = false)
    (hlast : ∀ c ∈ text.getLast?, isBlank c = false) :
    trim (front ++ text) = trimStart front ++ text := by
  have hstart : trimStart (front ++ text) = trimStart front ++ text := by
    unfold trimStart
    rw [List.dropWhile_append]
    split
    next hempty =>
      rw [List.isEmpty_iff.mp hempty]
      exact trimStart_eq_self hhead
    next => rfl
  unfold trim
  rw [hstart, trimStart_eq_self, List.reverse_reverse]
  intro c hc
  rw [List.head?_reverse, List.getLast?_append, Option.or_of_isSome (by simpa using hne)] at hc
  exact hlast c hc

end Text

/-! ## Reading -/

/-- The operands of an instruction that goes on in the load of a word. -/
def gluedOperands (before : List String) (glued : List Char) (rd : Reg) (word : UInt32) :
    List String :=
  before ++ [String.ofList (glued ++ "ldr".toList), rd.text, (Operand.hex word).text]

/-- **Lines with the same content up to addresses**: equal ones, loads of two words, and
instructions that go on in a load of two words. -/
inductive SourceLine.Similar : SourceLine → SourceLine → Prop
  | same (line : SourceLine) : Similar line line
  | load (number : Nat) (rd : Reg) (a b : UInt32) :
      Similar ⟨number, .instruction .ldr [rd.text, (Operand.hex a).text]⟩
        ⟨number, .instruction .ldr [rd.text, (Operand.hex b).text]⟩
  | glued (number : Nat) (m : Mnemonic) (before : List String) (glued : List Char) (rd : Reg)
      (a b : UInt32) :
      Similar ⟨number, .instruction m (gluedOperands before glued rd a)⟩
        ⟨number, .instruction m (gluedOperands before glued rd b)⟩

theorem SourceLine.Similar.toList_refl (line : Option SourceLine) :
    List.Forall₂ Similar line.toList line.toList :=
  List.forall₂_same.mpr fun line _ => .same line

/-- No mnemonic but `ldr` ends like it. -/
theorem Mnemonic.eq_ldr_of_ofText? {glued : List Char} {m : Mnemonic}
    (h : ofText? (String.ofList (glued ++ "ldr".toList)) = some m) : m = .ldr := by
  have htext : m.text.toList = glued ++ "ldr".toList := by
    have hfound := List.find?_some h
    rw [of_decide_eq_true hfound, String.toList_ofList]
  have hsuffix : "ldr".toList <:+ m.text.toList := ⟨glued, htext.symm⟩
  cases m with
  | basic op => exact absurd hsuffix (by cases op <;> decide)
  | ldr => rfl

namespace SourceLine

/-- A line is read up to its first semicolon. -/
theorem significant_append_of_mem {front : List Char} (h : ';' ∈ front) (rest : List Char) :
    significant (front ++ rest) = significant front := by
  unfold significant
  rw [List.takeWhile_append, if_neg]
  intro hlength
  have hall := (List.takeWhile_prefix fun c => decide (c ≠ ';')).eq_of_length hlength
  have hsemi := List.takeWhile_eq_self_iff.mp hall ';' h
  exact absurd hsemi (by decide)

/-- A load at the end of a line without comments stays as it is. -/
theorem significant_append_loadText {front : List Char} (h : ';' ∉ front) (rd : Reg)
    (word : UInt32) :
    significant (front ++ loadText rd word) = Text.trimStart front ++ loadText rd word := by
  have hne : loadOperands rd word ≠ [] := by
    intro hnil
    have hwords := words_loadOperands rd word
    rw [hnil] at hwords
    exact nomatch hwords
  have hself : (front ++ loadText rd word).takeWhile (· ≠ ';') = front ++ loadText rd word := by
    refine List.takeWhile_eq_self_iff.mpr fun c hc => decide_eq_true ?_
    rintro rfl
    obtain hc | hc := List.mem_append.mp hc
    · exact h hc
    · exact semicolon_not_mem_loadText rd word hc
  unfold significant
  rw [hself]
  refine Text.trim_append (List.cons_ne_nil _ _) ?_ ?_
  · rintro c ⟨⟩
    decide
  · unfold loadText
    rw [List.getLast?_append, List.getLast?_cons_of_ne_nil hne,
      Option.or_of_isSome (by simpa using hne)]
    exact isBlank_getLast?_intercalate (isWord_loadOperands rd word)

/-- A line that starts with no mnemonic is refused. -/
theorem read_eq_unbound {number : Nat} {raw name : List Char} {operands : List (List Char)}
    (hhead : (significant raw).head? ≠ some '.')
    (hwords : Text.words isSeparator (significant raw) = name :: operands)
    (hname : Mnemonic.ofText? (String.ofList name) = none) :
    read number raw = .error ⟨number, .unboundInstruction (String.ofList name)⟩ := by
  unfold read
  dsimp only
  split
  next rest hsig =>
    rw [hsig] at hhead
    exact absurd rfl hhead
  next =>
    rw [hwords]
    dsimp only
    rw [hname]

/-- A load behind the point of a label is not looked at. -/
theorem exists_read_load_of_label {front rest : List Char} (number : Nat) {rd : Reg}
    (hsig : ∀ word, significant (front ++ loadText rd word) = '.' :: (rest ++ loadText rd word)) :
    ∃ line, ∀ word, read number (front ++ loadText rd word) = .ok (some line) := by
  have hldr : ∀ c ∈ "ldr".toList, Text.isBlank c = false :=
    fun c hc => (Mnemonic.isWord_text .ldr).isBlank hc
  obtain ⟨before, glued, hend⟩ := Text.exists_words_append (by decide) hldr rest
  have hwords : ∀ word, Text.words Text.isBlank (rest ++ loadText rd word)
      = before ++ [glued ++ "ldr".toList] ++ Text.words Text.isBlank (loadOperands rd word) := by
    intro word
    unfold loadText
    rw [← List.append_assoc, Text.words_append_cons (by decide), hend]
  cases before with
  | nil => exact ⟨_, fun word => read_eq_label (hsig word) (hwords word)⟩
  | cons name before => exact ⟨_, fun word => read_eq_label (hsig word) (hwords word)⟩

/-- **A load behind any text** is read to the same content up to the word, or refused. -/
theorem sameOutcome_read_load (number : Nat) (front : List Char) (rd : Reg) (a b : UInt32) :
    SameOutcome (fun l l' => List.Forall₂ Similar l.toList l'.toList)
      (read number (front ++ loadText rd a)) (read number (front ++ loadText rd b)) := by
  by_cases hsemi : ';' ∈ front
  · have hread : ∀ word, read number (front ++ loadText rd word) = read number front := by
      intro word
      unfold read
      rw [significant_append_of_mem hsemi]
    rw [hread a, hread b]
    exact .refl Similar.toList_refl _
  have hsig := significant_append_loadText hsemi rd
  generalize Text.trimStart front = start at hsig
  by_cases hpoint : ∃ rest, start = '.' :: rest
  · obtain ⟨rest, rfl⟩ := hpoint
    obtain ⟨line, hread⟩ := exists_read_load_of_label number hsig
    rw [hread a, hread b]
    exact .ok (.cons (.same line) .nil)
  have hhead : ∀ word, (significant (front ++ loadText rd word)).head? ≠ some '.' := by
    intro word
    rw [hsig]
    cases start with
    | nil => exact nofun
    | cons c start =>
      rintro ⟨⟩
      exact hpoint ⟨start, rfl⟩
  have hldr : ∀ c ∈ "ldr".toList, isSeparator c = false := (Mnemonic.isWord_text .ldr).isSeparator
  obtain ⟨before, glued, hend⟩ := Text.exists_words_append (by decide) hldr start
  have hwords : ∀ word, Text.words isSeparator (significant (front ++ loadText rd word))
      = before ++ [glued ++ "ldr".toList]
        ++ [rd.text.toList, (Operand.hex word).text.toList] := by
    intro word
    rw [hsig, ← words_loadOperands]
    unfold loadText
    rw [← List.append_assoc, Text.words_append_cons (by decide), hend]
  cases before with
  | nil =>
    cases hm : Mnemonic.ofText? (String.ofList (glued ++ "ldr".toList)) with
    | none =>
      rw [read_eq_unbound (hhead a) (hwords a) hm, read_eq_unbound (hhead b) (hwords b) hm]
      exact .error _
    | some m =>
      rw [read_eq_instruction (hhead a) (hwords a) hm,
        read_eq_instruction (hhead b) (hwords b) hm, Mnemonic.eq_ldr_of_ofText? hm]
      simp only [List.append_eq, List.nil_append, List.map_cons, List.map_nil,
        String.ofList_toList]
      exact .ok (.cons (.load number rd a b) .nil)
  | cons name before =>
    cases hm : Mnemonic.ofText? (String.ofList name) with
    | none =>
      rw [read_eq_unbound (hhead a) (hwords a) hm, read_eq_unbound (hhead b) (hwords b) hm]
      exact .error _
    | some m =>
      rw [read_eq_instruction (hhead a) (hwords a) hm,
        read_eq_instruction (hhead b) (hwords b) hm]
      simp only [List.append_eq, List.map_append, List.map_cons, List.map_nil,
        String.ofList_toList, List.append_assoc]
      exact .ok (.cons (.glued number m (before.map String.ofList) glued rd a b) .nil)

/-- **Lines that are the same up to addresses** are read to the same content, or refused with
the same error. -/
theorem sameOutcome_read {raw raw' : List Char} (h : SameLine raw raw') (number : Nat) :
    SameOutcome (fun l l' => List.Forall₂ Similar l.toList l'.toList) (read number raw)
      (read number raw') := by
  cases h with
  | same => exact .refl Similar.toList_refl _
  | comment front x y =>
    have hread : ∀ z, read number (front ++ ';' :: z) = read number (front ++ [';']) := by
      intro z
      unfold read
      rw [← significant_append_of_mem
          (List.mem_append_right front (List.mem_singleton_self ';')) z,
        List.append_assoc, List.singleton_append]
    rw [hread x, hread y]
    exact .refl Similar.toList_refl _
  | load front rd a b => exact sameOutcome_read_load number front rd a b

/-- **Aligned texts are read to the same content up to addresses**, or refused with the same
error. -/
theorem sameOutcome_readFrom {xs ys : List Char} (h : Text.Aligned xs ys) (number : Nat) :
    SameOutcome (List.Forall₂ Similar) (readFrom number (Text.lines xs))
      (readFrom number (Text.lines ys)) := by
  -- the induction is on the length: a line is read, and the texts behind it are aligned
  induction hlength : xs.length using Nat.strong_induction_on generalizing xs ys number with
  | _ n ih =>
    subst hlength
    obtain ⟨l, l', rest, rest', rfl, rfl, hl, hl', hline, hrest⟩
      | ⟨hxs, hys, hline, hnil⟩ := h.split
    · rw [Text.lines_append_newline hl, Text.lines_append_newline hl', readFrom, readFrom,
        read_dropReturn, read_dropReturn]
      refine (sameOutcome_read hline number).bind fun _ _ hread =>
        (ih rest.length ?_ hrest (number + 1) rfl).bind fun _ _ hmore =>
          .ok (List.rel_append hread hmore)
      rw [List.length_append, List.length_cons]
      omega
    · by_cases hempty : xs = []
      · rw [hempty, hnil.mp hempty]
        exact .ok .nil
      · rw [Text.lines_of_not_mem hempty hxs, Text.lines_of_not_mem (mt hnil.mpr hempty) hys]
        exact (sameOutcome_read hline number).bind fun _ _ hread =>
          .ok (List.rel_append hread .nil)

end SourceLine

end RegMachine
