import RegMachine.Template
import RegMachine.Proofs.Carrier
import RegMachine.Proofs.Vocabulary

/-!
# The runtime around generated code

The default template puts the streams of a program into a frame: an entry
label in front of the body, then a halting loop and the memory routines, then
the definitions of functions. `Runtime.contents` says what the lines of that
frame hold behind the body, and `Template.holds_render` that the text of a
build holds the contents of the two streams around them.

Placeholders are found by searching, and the text of the body is searched for
the second one after it has been put in place. So the body has to be plain: a
placeholder spelled in it would be replaced as well.
-/

namespace RegMachine

/-! ## Replacing marks -/

namespace Text

section Replace

variable {c : Char} {piece replacement : List Char}

/-- Text in which no mark starts stays as it is. -/
theorem replace_append_of_not_mem {front : List Char} (h : c ∉ front) (rest : List Char) :
    replace (c :: piece) replacement (front ++ rest)
      = front ++ replace (c :: piece) replacement rest := by
  induction front with
  | nil => rfl
  | cons d front ih =>
    have hfront := List.not_mem_of_not_mem_cons h
    have hprefix : ¬ (c :: piece).isPrefixOf (d :: (front ++ rest)) = true := by
      rw [List.isPrefixOf_cons_cons, Bool.and_eq_true, beq_iff_eq]
      exact fun hstart => List.ne_of_not_mem_cons h hstart.1
    rw [List.cons_append]
    unfold replace
    rw [replaceFrom, if_neg hprefix]
    exact congrArg (d :: ·) (ih hfront)

/-- A mark is replaced, and the search goes on behind it. -/
theorem replace_mark_append (rest : List Char) :
    replace (c :: piece) replacement (c :: piece ++ rest)
      = replacement ++ replace (c :: piece) replacement rest := by
  have hprefix : (c :: piece).isPrefixOf (c :: (piece ++ rest)) = true :=
    List.isPrefixOf_iff_prefix.mpr ⟨rest, rfl⟩
  show replaceFrom (c :: piece) replacement 0 (c :: (piece ++ rest)) = _
  rw [replaceFrom, if_pos hprefix, replaceFrom_eq_replace_drop, List.length_cons,
    Nat.add_sub_cancel, List.drop_left]

/-- **Text is passed over** in the search for a mark: no mark starts in it. -/
def PassedOver (mark text : List Char) : Prop :=
  ∀ replacement rest, replace mark replacement (text ++ rest)
    = text ++ replace mark replacement rest

theorem passedOver_of_not_mem {text : List Char} (h : c ∉ text) : PassedOver (c :: piece) text :=
  fun _ rest => replace_append_of_not_mem h rest

theorem PassedOver.append {mark text more : List Char} (htext : PassedOver mark text)
    (hmore : PassedOver mark more) : PassedOver mark (text ++ more) := by
  intro replacement rest
  rw [List.append_assoc, htext, hmore, List.append_assoc]

end Replace

end Text

/-! ## Plain code -/

/-- **A vocabulary whose labels and comments are plain.** -/
structure Vocabulary.Plain (v : Vocabulary) : Prop where
  target : ∀ l, v.target l → Text.IsPlain l
  label : ∀ l, v.label l → Text.IsPlain l
  plain : v.plain

/-- **A vocabulary whose code is read back** and in which no placeholder
starts. -/
structure Vocabulary.Legible (v : Vocabulary) : Prop extends v.Plain where
  isWord_target : ∀ l, v.target l → Text.IsWord l
  isWord_label : ∀ l, v.label l → Text.IsWord l
  not_embeds : ¬ v.embeds

theorem Mnemonic.isPlain_text (m : Mnemonic) : Text.IsPlain m.text := by
  cases m with
  | basic op => cases op <;> decide
  | ldr => decide

theorem Reg.isPlain_text (r : Reg) : Text.IsPlain r.text := .append (by decide) (.decimal _)

theorem Operand.isPlain_text {o : Operand} (h : ∀ name, o = .label name → Text.IsPlain name) :
    Text.IsPlain o.text := by
  cases o with
  | imm value => exact .append (by decide) (.signedDecimal _)
  | hex value => exact .hexAddress value
  | label name => exact .append (by decide) (h name rfl)
  | forward distance => exact .append (by decide) (.decimal _)

theorem Instr.isPlain_operands {i : Instr}
    (h : ∀ name, i.label? = some name → Text.IsPlain name) :
    ∀ op ∈ i.operands, Text.IsPlain op := by
  refine forall_mem_operands Reg.isPlain_text Text.IsPlain.hexDigits
    (fun _ => Operand.isPlain_text nofun)
    fun src hsrc => Operand.isPlain_text fun name hname => ?_
  exact h name (by rw [Instr.label?, hsrc, hname])

theorem Routine.isWord_label (r : Routine) : Text.IsWord r.label := by
  rcases r with ⟨⟨⟩⟩ | ⟨⟨⟩⟩ <;> decide

theorem Routine.isPlain_label (r : Routine) : Text.IsPlain r.label := by
  rcases r with ⟨⟨⟩⟩ | ⟨⟨⟩⟩ <;> decide

/-- **The text of an item is plain**, unless it is embedded. -/
theorem Vocabulary.Plain.isPlain_text {v : Vocabulary} (hv : v.Plain) {item : Item}
    (h : item.Uses v) (hraw : ∀ text, item ≠ .raw text) : Text.IsPlain item.text := by
  cases item with
  | instr i =>
    have hoperands := Instr.isPlain_operands fun name hname => by
      rcases h name hname with htarget | ⟨r, rfl⟩
      · exact hv.target name htarget
      · exact r.isPlain_label
    exact .append (.append i.mnemonic.isPlain_text (by decide))
      (.intercalate (by decide) hoperands)
  | label name => exact .append (by decide) (hv.label name h)
  | comment text => exact .append (by decide) (h hv.plain)
  | raw text => exact absurd rfl (hraw text)

namespace Vocabulary.Legible

variable {v : Vocabulary} {f : Fragment}

theorem readable (hv : v.Legible) (h : f.Uses v) : f.Readable := by
  intro item hitem
  have huses := h.items item hitem
  cases item with
  | instr i =>
    intro name hname
    rcases huses name hname with htarget | ⟨r, rfl⟩
    · exact hv.isWord_target name htarget
    · exact r.isWord_label
  | label name => exact hv.isWord_label name huses
  | comment text => exact fun hnewline => (huses hv.plain '\n' hnewline).1 rfl
  | raw text => exact hv.not_embeds huses.1

/-- No placeholder starts in the text of legible code. -/
theorem not_mem_render (hv : v.Legible) (h : f.Uses v) (comments : Bool) :
    '\x7b' ∉ (f.render comments).toList := by
  rw [Fragment.render_eq (hv.readable h).text_ne_nil]
  intro hmem
  rcases Text.mem_intercalate hmem with hmem | ⟨text, htext, hmem⟩
  · exact absurd hmem (by decide)
  · obtain ⟨item, hitem, rfl⟩ := List.mem_map.mp htext
    have huses := h.items item (List.mem_filter.mp hitem).1
    have hraw := ((hv.readable h) item (List.mem_filter.mp hitem).1).not_raw
    exact (hv.isPlain_text huses hraw '\x7b' hmem).2 rfl

end Vocabulary.Legible

/-! ## What the frame holds -/

/-- A content as it is written. -/
def LineContent.text : LineContent → String
  | label name => "." ++ name
  | instruction m operands => m.text ++ " " ++ ", ".intercalate operands

/-- The contents that are read back from their line. -/
def LineContent.Readable : LineContent → Prop
  | label name => Text.IsWord name
  | instruction _ operands => operands ≠ [] ∧ ∀ op ∈ operands, Text.IsWord op

instance (content : LineContent) : Decidable content.Readable :=
  match content with
  | .label name => inferInstanceAs (Decidable (Text.IsWord name))
  | .instruction _ operands =>
    inferInstanceAs (Decidable (operands ≠ [] ∧ ∀ op ∈ operands, Text.IsWord op))

theorem LineContent.lineHolds {content : LineContent} (h : content.Readable) :
    LineHolds content.text.toList (some content) := by
  cases content with
  | label name => exact lineHolds_label h
  | instruction m operands => exact lineHolds_instruction m h.1 h.2

namespace Runtime

/-- All memory routines, in the order of the template. -/
def routines : List Routine :=
  [.store .byte, .store .half, .store .word, .load .byte, .load .half, .load .word]

/-- The memory instruction of a routine. -/
def opcode : Routine → Opcode
  | .store width => width.store
  | .load .byte => .ldb
  | .load .half => .ldh
  | .load .word => .ldw

/-- The lines of a routine. -/
def routineContents (r : Routine) : List LineContent :=
  [.label r.label, .instruction (.basic (opcode r)) [Reg.value.text, Reg.addr.text],
    .instruction (.basic .jpr) [Reg.ret.text]]

/-- The halting loop behind the body. -/
def halt : Fragment := [.label "halt", .ldr .routine (.label "halt"), .jpr .routine]

/-- **The lines between the two streams.** -/
def contents : List LineContent := halt.contents ++ routines.flatMap routineContents

/-- **The labels of the runtime.** -/
def labels : List String := "start" :: "halt" :: routines.map Routine.label

/-- **The lines of a build**: the entry, the body, the runtime, and the
definitions of functions. -/
def frame (body definitions : Fragment) : List LineContent :=
  .label "start" :: (body.contents ++ (contents ++ definitions.contents))

/-- Contents as they are written, a line each. -/
def written (contents : List LineContent) : List Char :=
  contents.flatMap fun content => content.text.toList ++ ['\n']

theorem holds_written {cs : List LineContent} (h : ∀ c ∈ cs, c.Readable ∧ '\n' ∉ c.text.toList)
    {rest : List Char} {more : List LineContent} (hrest : Holds rest more) :
    Holds (written cs ++ rest) (cs ++ more) := by
  induction cs with
  | nil => exact hrest
  | cons c cs ih =>
    obtain ⟨⟨hread, hnewline⟩, h⟩ := List.forall_mem_cons.mp h
    have htext : written (c :: cs) ++ rest = c.text.toList ++ '\n' :: (written cs ++ rest) := by
      unfold written
      rw [List.flatMap_cons, List.append_assoc, List.append_assoc]
      rfl
    rw [htext]
    exact Holds.cons (LineContent.lineHolds hread) hnewline (ih h)

end Runtime

/-! ## The text of a build -/

namespace Template

/-- The template is the frame with placeholders for the streams. -/
theorem toList_base :
    base.toList = ".start\n".toList ++ (bodyMark.toList
      ++ ('\n' :: Runtime.written Runtime.contents ++ (functionsMark.toList ++ ['\n']))) := by
  have hlines : [".start", bodyMark, ".halt", "ldr r1, .halt", "jpr r1"]
      ++ routine "lmemb" "stb" ++ routine "lmemh" "sth" ++ routine "lmemw" "stw"
      ++ routine "cmemb" "ldb" ++ routine "cmemh" "ldh" ++ routine "cmemw" "ldw"
      ++ [functionsMark]
      = ".start" :: bodyMark :: (Runtime.contents.map LineContent.text ++ [functionsMark]) := by
    decide +kernel
  have hwritten : (Runtime.contents.map fun content => content.text ++ "\n").flatMap String.toList
      = Runtime.written Runtime.contents := by
    unfold Runtime.written
    rw [List.flatMap_map]
    congr 1
    funext content
    exact String.toList_append
  unfold base
  rw [hlines, String.toList_join, List.map_cons, List.map_cons, List.map_append, List.map_map,
    List.flatMap_cons, List.flatMap_cons, List.flatMap_append]
  show (".start" ++ "\n").toList ++ ((bodyMark ++ "\n").toList
    ++ ((Runtime.contents.map fun content => content.text ++ "\n").flatMap String.toList
      ++ [functionsMark ++ "\n"].flatMap String.toList)) = _
  rw [hwritten, String.toList_append, String.toList_append, List.flatMap_singleton,
    String.toList_append, List.append_assoc bodyMark.toList]
  rfl

/-- **The body stands where its placeholder stood.** The second placeholder starts like the
first and is passed over. -/
theorem replace_bodyMark_base (body : List Char) :
    Text.replace bodyMark.toList body base.toList = ".start\n".toList ++ (body
      ++ ('\n' :: Runtime.written Runtime.contents ++ (functionsMark.toList ++ ['\n']))) := by
  have hbody : bodyMark.toList = '\x7b' :: "code\x7d".toList := rfl
  have hstart : '\x7b' ∉ ".start\n".toList := by decide
  have hnewline : '\x7b' ∉ '\n' :: Runtime.written Runtime.contents :=
    List.not_mem_cons_of_ne_of_not_mem (by decide) (by decide +kernel)
  have hother : Text.replace bodyMark.toList body (functionsMark.toList ++ ['\n'])
      = functionsMark.toList ++ ['\n'] := rfl
  rw [toList_base, hbody, Text.replace_append_of_not_mem hstart, Text.replace_mark_append,
    Text.replace_append_of_not_mem hnewline, ← hbody, hother]

/-- **The streams stand where their placeholders stood**, if the body is passed
over in the search for the second one. -/
theorem toList_render {body : String}
    (h : Text.PassedOver functionsMark.toList (body.toList ++ ['\n'])) (functions : String) :
    (render base body functions).toList = ".start\n".toList ++ (body.toList
      ++ ('\n' :: Runtime.written Runtime.contents ++ (functions.toList ++ ['\n']))) := by
  have hfunctions : functionsMark.toList = '\x7b' :: "func_code\x7d".toList := rfl
  have hstart : '\x7b' ∉ ".start\n".toList := by decide
  have hruntime : '\x7b' ∉ Runtime.written Runtime.contents := by decide +kernel
  -- the body is searched once more, for the second placeholder
  have hsearched : Text.PassedOver functionsMark.toList
      (".start\n".toList ++ (body.toList ++ ['\n'] ++ Runtime.written Runtime.contents)) :=
    .append (Text.passedOver_of_not_mem hstart)
      (.append h (Text.passedOver_of_not_mem hruntime))
  have hregroup : ∀ rest, ".start\n".toList ++ (body.toList
      ++ ('\n' :: Runtime.written Runtime.contents ++ rest))
      = ".start\n".toList ++ (body.toList ++ ['\n'] ++ Runtime.written Runtime.contents)
        ++ rest := by
    intro rest
    simp only [List.append_assoc, List.cons_append, List.nil_append]
  unfold render
  dsimp only
  rw [String.toList_ofList, replace_bodyMark_base, hregroup, hsearched, hfunctions,
    Text.replace_mark_append, hregroup]
  rfl

/-- **The text of a build holds both streams**, the runtime between them. -/
theorem holds_render {body functions : Fragment} {comments : Bool} (hbody : body.Readable)
    (hplain : '\x7b' ∉ (body.render comments).toList) (hfunctions : functions.Readable) :
    Holds (render base (body.render comments) (functions.render comments)).toList
      (Runtime.frame body functions) := by
  have hruntime : ∀ c ∈ Runtime.contents, c.Readable ∧ '\n' ∉ c.text.toList := by decide +kernel
  have hend : Holds ((functions.render comments).toList ++ ['\n']) functions.contents := by
    rw [Fragment.render_eq hfunctions.text_ne_nil, ← Fragment.contents_shown functions comments,
      ← List.append_nil (Fragment.contents _)]
    exact Fragment.holds_intercalate_append (hfunctions.shown comments) .nil
  have hpassed : '\x7b' ∉ (body.render comments).toList ++ ['\n'] := by
    rw [List.mem_append, not_or]
    exact ⟨hplain, by decide⟩
  rw [toList_render (Text.passedOver_of_not_mem hpassed), Fragment.render_eq hbody.text_ne_nil,
    Runtime.frame,
    ← Fragment.contents_shown body comments]
  have hstreams := Fragment.holds_intercalate_append (hbody.shown comments)
    (Runtime.holds_written hruntime hend)
  exact Holds.cons (lineHolds_label (show Text.IsWord "start" by decide)) (by decide) hstreams

end Template

end RegMachine
