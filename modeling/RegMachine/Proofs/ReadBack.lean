import Mathlib.Data.List.TakeWhile
import RegMachine.Code.Fragment
import RegMachine.Proofs.Outcome
import RegMachine.Proofs.Text.Numeral

/-!
# Reading generated text back

Generated items are written one a line. The reader finds in each line what the
item was: a label, an instruction with the same mnemonic and operands, or
nothing for a comment (`Item.lineHolds`). So the text of a fragment *holds* the
contents of its items, in order (`Fragment.holds_render`), whether or not its
comments are written.

Line numbers are left out of account. They appear in error messages and in the
line table, and nothing else depends on them, so `Holds` speaks about the
contents of lines alone.
-/

namespace RegMachine

/-! ## Lines and texts -/

/-- A line holds a content, or nothing, whatever its number. -/
def LineHolds (raw : List Char) (content : Option LineContent) : Prop :=
  ∀ number, SourceLine.read number raw = .ok (content.map (⟨number, ·⟩))

/-- **A text holds contents**, in order: it is read without a fault, and so
many lines with these contents are found in it. -/
def Holds (text : List Char) (contents : List LineContent) : Prop :=
  ∀ number, ∃ lines, SourceLine.readFrom number (Text.lines text) = .ok lines
    ∧ lines.map (·.content) = contents

theorem Holds.nil : Holds [] [] := fun _ => ⟨[], rfl, rfl⟩

/-- Reading lines is reading the first, then the others. -/
theorem SourceLine.readFrom_cons_eq_ok {number : Nat} {raw : List Char} {rest : List (List Char)}
    {line : Option SourceLine} {lines : List SourceLine} (hline : read number raw = .ok line)
    (hlines : readFrom (number + 1) rest = .ok lines) :
    readFrom number (raw :: rest) = .ok (line.toList ++ lines) := by
  rw [readFrom]
  simp only [bind_eq_ok_iff, pure_eq_ok_iff]
  exact ⟨line, hline, lines, hlines, rfl⟩

/-- What a line with a content contributes to the contents of a text. -/
theorem map_content_append (number : Nat) (content : Option LineContent)
    (lines : List SourceLine) :
    ((content.map (⟨number, ·⟩ : LineContent → SourceLine)).toList ++ lines).map (·.content)
      = content.toList ++ lines.map (·.content) := by
  cases content <;> rfl

section Holds

variable {raw rest : List Char} {content : Option LineContent} {contents : List LineContent}

/-- **A line in front of a text** is read first. -/
theorem Holds.cons (hraw : LineHolds raw content) (hnewline : '\n' ∉ raw)
    (hrest : Holds rest contents) : Holds (raw ++ '\n' :: rest) (content.toList ++ contents) := by
  intro number
  obtain ⟨lines, hlines, rfl⟩ := hrest (number + 1)
  have hline := hraw number
  rw [← SourceLine.read_dropReturn] at hline
  rw [Text.lines_append_newline hnewline]
  exact ⟨_, SourceLine.readFrom_cons_eq_ok hline hlines, map_content_append number content lines⟩

/-- A text of one line. -/
theorem Holds.singleton (hraw : LineHolds raw content) (hne : raw ≠ []) (hnewline : '\n' ∉ raw) :
    Holds raw content.toList := by
  intro number
  rw [Text.lines_of_not_mem hne hnewline]
  refine ⟨_, SourceLine.readFrom_cons_eq_ok (hraw number) rfl, ?_⟩
  rw [map_content_append, List.map_nil, List.append_nil]

end Holds

/-! ## Kinds of lines -/

theorem lineHolds_nil : LineHolds [] none := fun _ => rfl

/-- A comment says nothing. -/
theorem lineHolds_comment (text : List Char) : LineHolds (';' :: text) none := fun _ => rfl

/-- A text of words keeps its ends and has no comment. -/
theorem significant_eq_self {cs : List Char} (hsemi : ∀ c ∈ cs, c ≠ ';')
    (hhead : ∀ c ∈ cs.head?, Text.isBlank c = false)
    (hlast : ∀ c ∈ cs.getLast?, Text.isBlank c = false) : SourceLine.significant cs = cs := by
  unfold SourceLine.significant
  rw [List.takeWhile_eq_self_iff.mpr fun c hc => by simpa using hsemi c hc]
  exact Text.trim_eq_self hhead hlast

/-- A line that starts with a point is read for its label. -/
theorem SourceLine.read_eq_label {number : Nat} {raw rest name : List Char}
    {more : List (List Char)} (hsig : significant raw = '.' :: rest)
    (hwords : Text.words Text.isBlank rest = name :: more) :
    read number raw = .ok (some ⟨number, .label (String.ofList name)⟩) := by
  unfold read
  rw [hsig]
  simp only [hwords]

/-- Any other line is read for its mnemonic and operands. -/
theorem SourceLine.read_eq_instruction {number : Nat} {raw name : List Char}
    {operands : List (List Char)} {m : Mnemonic} (hhead : (significant raw).head? ≠ some '.')
    (hwords : Text.words isSeparator (significant raw) = name :: operands)
    (hm : Mnemonic.ofText? (String.ofList name) = some m) :
    read number raw = .ok (some ⟨number, .instruction m (operands.map String.ofList)⟩) := by
  unfold read
  dsimp only
  split
  next rest hsig =>
    rw [hsig] at hhead
    exact absurd rfl hhead
  next =>
    rw [hwords]
    dsimp only
    rw [hm]

/-- **A point in front of a word defines a label.** -/
theorem lineHolds_label {name : String} (h : Text.IsWord name) :
    LineHolds ("." ++ name).toList (some (.label name)) := by
  intro number
  have htext : ("." ++ name).toList = '.' :: name.toList := by
    rw [String.toList_append]
    rfl
  have hsig : SourceLine.significant ('.' :: name.toList) = '.' :: name.toList := by
    refine significant_eq_self ?_ ?_ ?_
    · exact List.forall_mem_cons.mpr ⟨by decide, h.ne_semicolon⟩
    · rintro c ⟨⟩
      decide
    · intro c hc
      rw [List.getLast?_cons_of_ne_nil h.ne_nil] at hc
      exact h.isBlank (List.mem_of_getLast? hc)
  have hwords : Text.words Text.isBlank name.toList = [name.toList] :=
    Text.words_singleton h.ne_nil fun c hc => h.isBlank hc
  rw [htext, SourceLine.read_eq_label hsig hwords, String.ofList_toList]
  rfl

/-- A character of texts joined is one of theirs or of what stands between
them. -/
theorem Text.mem_intercalate {sep : String} {texts : List String} {c : Char}
    (hc : c ∈ (sep.intercalate texts).toList) :
    c ∈ sep.toList ∨ ∃ text ∈ texts, c ∈ text.toList := by
  induction texts with
  | nil => exact nomatch hc
  | cons text rest ih =>
    cases rest with
    | nil =>
      rw [String.intercalate_singleton] at hc
      exact .inr ⟨text, List.mem_cons_self, hc⟩
    | cons text' rest =>
      rw [String.intercalate_cons_cons, String.toList_append, String.toList_append] at hc
      rcases List.mem_append.mp hc with hc | hc
      · rcases List.mem_append.mp hc with hc | hc
        · exact .inr ⟨text, List.mem_cons_self, hc⟩
        · exact .inl hc
      · rcases ih hc with hc | ⟨t, ht, hc⟩
        · exact .inl hc
        · exact .inr ⟨t, List.mem_cons_of_mem text ht, hc⟩

/-- Words separated by commas and spaces are found again. -/
theorem words_intercalate {operands : List String} (h : ∀ op ∈ operands, Text.IsWord op) :
    Text.words SourceLine.isSeparator (", ".intercalate operands).toList
      = operands.map String.toList := by
  induction operands with
  | nil => rfl
  | cons op rest ih =>
    have hop := h op List.mem_cons_self
    have hrest := ih fun op' hop' => h op' (List.mem_cons_of_mem op hop')
    cases rest with
    | nil =>
      rw [String.intercalate_singleton]
      exact Text.words_singleton hop.ne_nil hop.isSeparator
    | cons op' rest =>
      rw [String.intercalate_cons_cons, String.append_assoc, String.toList_append,
        String.toList_append]
      show Text.words _ (op.toList ++ ',' :: ' ' :: (", ".intercalate (op' :: rest)).toList) = _
      rw [Text.words_append_sep hop.ne_nil hop.isSeparator (by decide),
        Text.words_cons_of_sep (by decide), hrest]
      rfl

/-- The last character of words separated by commas and spaces is that of a
word. -/
theorem isBlank_getLast?_intercalate {operands : List String}
    (h : ∀ op ∈ operands, Text.IsWord op) :
    ∀ c ∈ (", ".intercalate operands).toList.getLast?, Text.isBlank c = false := by
  induction operands with
  | nil => exact fun c hc => nomatch hc
  | cons op rest ih =>
    have hop := h op List.mem_cons_self
    have hrest := ih fun op' hop' => h op' (List.mem_cons_of_mem op hop')
    cases rest with
    | nil =>
      rw [String.intercalate_singleton]
      exact fun c hc => hop.isBlank (List.mem_of_getLast? hc)
    | cons op' rest =>
      have hne : (", ".intercalate (op' :: rest)).toList ≠ [] := fun hnil => by
        have := words_intercalate fun op'' hop'' => h op'' (List.mem_cons_of_mem op hop'')
        rw [hnil] at this
        exact nomatch this
      rw [String.intercalate_cons_cons, String.toList_append, List.getLast?_append,
        Option.or_of_isSome (by simpa using hne)]
      exact hrest

theorem Mnemonic.isWord_text (m : Mnemonic) : Text.IsWord m.text := by
  cases m with
  | basic op => cases op <;> decide
  | ldr => decide

theorem Mnemonic.head?_text (m : Mnemonic) : m.text.toList.head? ≠ some '.' := by
  cases m with
  | basic op => cases op <;> decide
  | ldr => decide

/-- **A mnemonic and its operands make an instruction line.** -/
theorem lineHolds_instruction (m : Mnemonic) {operands : List String} (hne : operands ≠ [])
    (h : ∀ op ∈ operands, Text.IsWord op) :
    LineHolds (m.text ++ " " ++ ", ".intercalate operands).toList
      (some (.instruction m operands)) := by
  intro number
  have hm := m.isWord_text
  have htext : (m.text ++ " " ++ ", ".intercalate operands).toList
      = m.text.toList ++ ' ' :: (", ".intercalate operands).toList := by
    rw [String.toList_append, String.toList_append, List.append_assoc]
    rfl
  have hoperands : (", ".intercalate operands).toList ≠ [] := fun hnil => by
    have := words_intercalate h
    rw [hnil] at this
    exact hne (List.map_eq_nil_iff.mp this.symm)
  have hhead : (m.text.toList ++ ' ' :: (", ".intercalate operands).toList).head?
      = m.text.toList.head? := by
    rw [List.head?_append, Option.or_of_isSome (by simpa using hm.ne_nil)]
  -- there is no comment to cut off, and no blank at either end
  have hsig : SourceLine.significant (m.text.toList ++ ' ' :: (", ".intercalate operands).toList)
      = m.text.toList ++ ' ' :: (", ".intercalate operands).toList := by
    refine significant_eq_self ?_ ?_ ?_
    · intro c hc
      rcases List.mem_append.mp hc with hc | hc
      · exact hm.ne_semicolon c hc
      · rcases List.mem_cons.mp hc with rfl | hc
        · decide
        · rcases Text.mem_intercalate hc with hc | ⟨op, hop, hc⟩
          · rintro rfl
            exact absurd hc (by decide)
          · exact (h op hop).ne_semicolon c hc
    · rw [hhead]
      exact fun c hc => hm.isBlank (List.mem_of_mem_head? hc)
    · rw [List.getLast?_append, List.getLast?_cons_of_ne_nil hoperands,
        Option.or_of_isSome (by simpa using hoperands)]
      exact isBlank_getLast?_intercalate h
  have hwords : Text.words SourceLine.isSeparator
      (m.text.toList ++ ' ' :: (", ".intercalate operands).toList)
      = m.text.toList :: operands.map String.toList := by
    rw [Text.words_append_sep hm.ne_nil hm.isSeparator (by decide), words_intercalate h]
  rw [htext, SourceLine.read_eq_instruction (by rw [hsig, hhead]; exact m.head?_text)
    (by rw [hsig, hwords]) (by rw [String.ofList_toList, Mnemonic.ofText?_text]), List.map_map,
    show String.ofList ∘ String.toList = id from funext fun _ => String.ofList_toList,
    List.map_id]
  rfl

/-! ## Items -/

/-- The value that an instruction loads, if it loads one. -/
def Instr.source? : Instr → Option Operand
  | ldr _ src => some src
  | _ => none

/-- The label that an instruction names, if it names one. -/
def Instr.label? (i : Instr) : Option String :=
  match i.source? with
  | some (.label name) => some name
  | _ => none

/-- The distance of the forward reference of an instruction, if it has one. -/
def Instr.forward? (i : Instr) : Option Nat :=
  match i.source? with
  | some (.forward distance) => some distance
  | _ => none

/-- What the line of an item holds. -/
def Item.content? : Item → Option LineContent
  | instr i => some (.instruction i.mnemonic i.operands)
  | label name => some (.label name)
  | comment _ | raw _ => none

/-- **The items that are read back**: labels that are words, comments of one
line, and instructions. What was embedded is not among them. -/
def Item.Readable : Item → Prop
  | instr i => ∀ name, i.label? = some name → Text.IsWord name
  | label name => Text.IsWord name
  | comment text => '\n' ∉ text.toList
  | raw _ => False

instance (item : Item) : Decidable item.Readable :=
  match item with
  | .instr i => inferInstanceAs (Decidable (∀ name ∈ i.label?, Text.IsWord name))
  | .label name => inferInstanceAs (Decidable (Text.IsWord name))
  | .comment text => inferInstanceAs (Decidable ('\n' ∉ text.toList))
  | .raw _ => inferInstanceAs (Decidable False)

theorem Reg.isWord_text (r : Reg) : Text.IsWord r.text :=
  .append (by decide) (Text.isWord_decimal _)

theorem Operand.isWord_text {o : Operand} (h : ∀ name, o = .label name → Text.IsWord name) :
    Text.IsWord o.text := by
  cases o with
  | imm value => exact .append (by decide) (Text.isWord_signedDecimal _)
  | hex value => exact Text.isWord_hexAddress value
  | label name => exact .append (by decide) (h name rfl)
  | forward distance => exact .append (by decide) (Text.isWord_decimal _)

/-- What holds of registers, numbers and the value that is loaded holds of all
operands of an instruction. -/
theorem Instr.forall_mem_operands {P : String → Prop} {i : Instr} (hreg : ∀ r : Reg, P r.text)
    (hdigits : ∀ n, P (Text.hexDigits n)) (himm : ∀ value, P (Operand.imm value).text)
    (hsource : ∀ src, i.source? = some src → P src.text) : ∀ op ∈ i.operands, P op := by
  cases i with
  | ldr rd src => simp [operands, hreg, hsource src rfl]
  | aluImm op rd imm => simp [operands, hreg, hdigits]
  | shift op rd amount => simp [operands, hreg, himm]
  | _ => simp [operands, hreg]

/-- The operands of an instruction are words. -/
theorem Instr.isWord_operands {i : Instr} (h : ∀ name, i.label? = some name → Text.IsWord name) :
    ∀ op ∈ i.operands, Text.IsWord op := by
  refine forall_mem_operands Reg.isWord_text Text.isWord_hexDigits
    (fun _ => Operand.isWord_text nofun) fun src hsrc => Operand.isWord_text fun name hname => ?_
  exact h name (by rw [Instr.label?, hsrc, hname])

theorem Instr.operands_ne_nil (i : Instr) : i.operands ≠ [] := by
  cases i <;> exact List.cons_ne_nil _ _

/-- **An item is read back from its line.** -/
theorem Item.lineHolds {item : Item} (h : item.Readable) :
    LineHolds item.text.toList item.content? := by
  cases item with
  | instr i => exact lineHolds_instruction i.mnemonic i.operands_ne_nil (Instr.isWord_operands h)
  | label name => exact lineHolds_label h
  | comment text =>
    rw [Item.text, String.toList_append]
    exact lineHolds_comment _
  | raw text => exact h.elim

theorem Item.Readable.not_raw {item : Item} (h : item.Readable) (text : String) :
    item ≠ .raw text := by
  rintro rfl
  exact h

theorem Item.text_ne_nil {item : Item} (h : ∀ text, item ≠ .raw text) :
    item.text.toList ≠ [] := by
  cases item with
  | instr i =>
    rw [Item.text, Instr.text, String.toList_append, String.toList_append, List.append_assoc]
    exact fun hnil => i.mnemonic.isWord_text.ne_nil (List.append_eq_nil_iff.mp hnil).1
  | raw text => exact absurd rfl (h text)
  | _ =>
    rw [Item.text, String.toList_append]
    exact List.cons_ne_nil _ _

/-- An item is written on one line. -/
theorem Item.newline_not_mem_text {item : Item} (h : item.Readable) :
    '\n' ∉ item.text.toList := by
  cases item with
  | instr i =>
    rw [Item.text, Instr.text, String.toList_append, String.toList_append]
    simp only [List.mem_append, not_or]
    refine ⟨⟨i.mnemonic.isWord_text.newline_not_mem, by decide⟩, fun hc => ?_⟩
    rcases Text.mem_intercalate hc with hc | ⟨op, hop, hc⟩
    · exact absurd hc (by decide)
    · exact (Instr.isWord_operands h op hop).newline_not_mem hc
  | label name => exact (Text.IsWord.append (s := ".") (by decide) h).newline_not_mem
  | comment text =>
    rw [Item.text, String.toList_append, List.mem_append, not_or]
    exact ⟨by decide, h⟩
  | raw text => exact h.elim

/-! ## Fragments -/

namespace Fragment

/-- What the lines of a fragment hold, in order. -/
def contents (f : Fragment) : List LineContent := f.filterMap Item.content?

/-- Every item of a fragment is read back. -/
def Readable (f : Fragment) : Prop := ∀ item ∈ f, item.Readable

/-- The items that are rendered. -/
def shown (f : Fragment) (comments : Bool) : Fragment :=
  f.filter fun item => comments || !item.isComment

theorem Readable.shown {f : Fragment} (h : f.Readable) (comments : Bool) :
    (f.shown comments).Readable :=
  fun item hitem => h item (List.mem_filter.mp hitem).1

/-- Comments hold nothing, so leaving them out changes no contents. -/
theorem contents_shown (f : Fragment) (comments : Bool) :
    (f.shown comments).contents = f.contents := by
  unfold contents shown
  rw [List.filterMap_filter]
  congr 1
  funext item
  cases item <;> cases comments <;> rfl

theorem contents_cons (item : Item) (f : Fragment) :
    contents (item :: f) = item.content?.toList ++ contents f := by
  unfold contents
  rw [List.filterMap_cons]
  cases item.content? <;> rfl

theorem Readable.text_ne_nil {f : Fragment} (h : f.Readable) :
    ∀ item ∈ f, item.text.toList ≠ [] :=
  fun item hitem => Item.text_ne_nil (h item hitem).not_raw

/-- **The text of a fragment is the lines of its items** where no item is empty,
so that none is passed over. -/
theorem render_eq {f : Fragment} (h : ∀ item ∈ f, item.text.toList ≠ []) (comments : Bool) :
    f.render comments = "\n".intercalate ((f.shown comments).map Item.text) := by
  unfold render texts
  show "\n".intercalate (((f.shown comments).map Item.text).dropWhile (· = "")) = _
  cases hshown : f.shown comments with
  | nil => rfl
  | cons item rest =>
    have hmem : item ∈ f.shown comments := hshown ▸ List.mem_cons_self
    have hitem : item.text ≠ "" := fun hempty =>
      h item (List.mem_filter.mp hmem).1 (by rw [hempty]; rfl)
    rw [List.map_cons, List.dropWhile_cons_of_neg (by simpa using hitem)]

/-- The lines of a fragment in front of more text. An empty fragment is an
empty line. -/
theorem holds_intercalate_append {f : Fragment} (h : f.Readable) {rest : List Char}
    {cs : List LineContent} (hrest : Holds rest cs) :
    Holds (("\n".intercalate (f.map Item.text)).toList ++ '\n' :: rest) (f.contents ++ cs) := by
  induction f with
  | nil => exact Holds.cons lineHolds_nil List.not_mem_nil hrest
  | cons item f ih =>
    have hitem := h item List.mem_cons_self
    have hf := ih fun item' hitem' => h item' (List.mem_cons_of_mem item hitem')
    rw [contents_cons, List.append_assoc]
    cases f with
    | nil =>
      rw [List.map_singleton, String.intercalate_singleton]
      exact Holds.cons (Item.lineHolds hitem) (Item.newline_not_mem_text hitem) hrest
    | cons item' f =>
      rw [List.map_cons, List.map_cons, String.intercalate_cons_cons, String.toList_append,
        String.toList_append, List.append_assoc, List.append_assoc]
      exact Holds.cons (Item.lineHolds hitem) (Item.newline_not_mem_text hitem) hf

/-- The lines of a fragment at the end of a text. -/
theorem holds_intercalate {f : Fragment} (h : f.Readable) :
    Holds ("\n".intercalate (f.map Item.text)).toList f.contents := by
  induction f with
  | nil => exact Holds.nil
  | cons item f ih =>
    have hitem := h item List.mem_cons_self
    have hf := ih fun item' hitem' => h item' (List.mem_cons_of_mem item hitem')
    rw [contents_cons]
    cases f with
    | nil =>
      rw [List.map_singleton, String.intercalate_singleton]
      show Holds _ (item.content?.toList ++ [])
      rw [List.append_nil]
      exact Holds.singleton (Item.lineHolds hitem) (Item.text_ne_nil hitem.not_raw)
        (Item.newline_not_mem_text hitem)
    | cons item' f =>
      rw [List.map_cons, List.map_cons, String.intercalate_cons_cons, String.toList_append,
        String.toList_append, List.append_assoc]
      exact Holds.cons (Item.lineHolds hitem) (Item.newline_not_mem_text hitem) hf

/-- **The text of a fragment holds the contents of its items**, with or without
its comments. -/
theorem holds_render {f : Fragment} (h : f.Readable) (comments : Bool) :
    Holds (f.render comments).toList f.contents := by
  rw [render_eq h.text_ne_nil, ← contents_shown f comments]
  exact holds_intercalate (h.shown comments)

end Fragment

end RegMachine
