import RegMachine.Proofs.Runtime

/-!
# The text of a build, line by line

What a program embeds need not be read back as anything in particular, so the
text of a build with embedded lines is not known to hold given contents. It is
known to be cut into lines as it was put together: every item stands on a line of
its own, and no line looks like the placeholder that is searched for last
(`Template.toList_render_lines`). Hence, if the text is read at all, what is found
in it is what the lines of its items hold, one by one, between the lines of the
runtime (`Template.contents_of_readAll`).
-/

namespace RegMachine

/-! ## Lines -/

/-- What a line holds, if it can be read and says something. -/
def contentOf? (raw : List Char) : Option LineContent :=
  match SourceLine.read 0 raw with
  | .ok (some line) => some line.content
  | _ => none

theorem LineHolds.contentOf?_eq {raw : List Char} {content : Option LineContent}
    (h : LineHolds raw content) : contentOf? raw = content := by
  unfold contentOf?
  rw [h 0]
  cases content <;> rfl

/-- A line that is read holds the same wherever it stands. -/
theorem SourceLine.map_content_of_read {number : Nat} {raw : List Char} {line : Option SourceLine}
    (h : read number raw = .ok line) : line.map (·.content) = contentOf? raw := by
  unfold read at h
  unfold contentOf? read
  dsimp only at h ⊢
  split at h
  next =>
    split at h
    next => exact nomatch h
    next =>
      cases h
      rfl
  next =>
    split at h
    next =>
      cases h
      rfl
    next =>
      split at h
      next => exact nomatch h
      next =>
        cases h
        rfl

/-- Lines, each with the line feed that ends it. -/
def Text.ofLines (raws : List (List Char)) : List Char := raws.flatMap (· ++ ['\n'])

theorem Text.ofLines_append (raws more : List (List Char)) :
    ofLines (raws ++ more) = ofLines raws ++ ofLines more := List.flatMap_append

/-- Texts that are joined by line breaks, with one more behind the last, are lines.
-/
theorem Text.toList_intercalate_append {texts : List String} (h : texts ≠ []) :
    ("\n".intercalate texts).toList ++ ['\n'] = ofLines (texts.map String.toList) := by
  induction texts with
  | nil => exact absurd rfl h
  | cons text rest ih =>
    cases rest with
    | nil =>
      rw [String.intercalate_singleton]
      exact (List.append_nil _).symm
    | cons next rest =>
      rw [String.intercalate_cons_cons, String.toList_append, String.toList_append,
        List.append_assoc, ih (List.cons_ne_nil next rest)]
      rfl

/-- Text is cut into the lines that it was put together from, but for the returns at
their ends. -/
theorem Text.lines_ofLines {raws : List (List Char)} (h : ∀ raw ∈ raws, '\n' ∉ raw) :
    lines (ofLines raws) = raws.map dropReturn := by
  induction raws with
  | nil => rfl
  | cons raw raws ih =>
    obtain ⟨hraw, hraws⟩ := List.forall_mem_cons.mp h
    have htext : ofLines (raw :: raws) = raw ++ '\n' :: ofLines raws := by
      unfold ofLines
      rw [List.flatMap_cons, List.append_assoc]
      rfl
    rw [htext, lines_append_newline hraw, ih hraws, List.map_cons]

/-- A carriage return at the end of a line changes nothing, for it is blank. -/
theorem SourceLine.readFrom_map_dropReturn (number : Nat) (raws : List (List Char)) :
    readFrom number (raws.map Text.dropReturn) = readFrom number raws := by
  induction raws generalizing number with
  | nil => rfl
  | cons raw raws ih => rw [List.map_cons, readFrom, readFrom, read_dropReturn, ih]

/-- **What is found in a text that is read** is what its lines hold. -/
theorem contents_of_readFrom {raws : List (List Char)} (hraws : ∀ raw ∈ raws, '\n' ∉ raw)
    {number : Nat} {lines : List SourceLine}
    (h : SourceLine.readFrom number (Text.lines (Text.ofLines raws)) = .ok lines) :
    lines.map (·.content) = raws.filterMap contentOf? := by
  rw [Text.lines_ofLines hraws, SourceLine.readFrom_map_dropReturn] at h
  clear hraws
  induction raws generalizing number lines with
  | nil =>
    cases h
    rfl
  | cons raw raws ih =>
    rw [SourceLine.readFrom] at h
    obtain ⟨line, hline, h⟩ := bind_eq_ok_iff.mp h
    obtain ⟨more, hmore, h⟩ := bind_eq_ok_iff.mp h
    cases h
    rw [List.map_append, ih hmore, List.filterMap_cons, ← SourceLine.map_content_of_read hline]
    cases line <;> rfl

/-! ## Marks in lines -/

/-- **A line is passed over** in the search for a mark that is closed: the mark
would have to end on the line, or to go on behind it. -/
theorem Text.Unclosed.passedOver {line piece : List Char} (hline : Unclosed line)
    (hclosing : '\x7d' ∈ piece) (hnewline : '\n' ∉ piece) :
    PassedOver ('\x7b' :: piece) (line ++ ['\n']) := by
  intro replacement rest
  induction line with
  | nil => exact replace_append_of_not_mem (by decide) rest
  | cons c cs ih =>
    have hprefix : ¬ ('\x7b' :: piece).isPrefixOf (c :: (cs ++ ['\n'] ++ rest)) = true := by
      intro hstart
      rw [List.isPrefixOf_iff_prefix, List.cons_prefix_cons] at hstart
      obtain ⟨rfl, hstart⟩ := hstart
      have hend : cs ++ ['\n'] <+: cs ++ ['\n'] ++ rest := List.prefix_append _ _
      rcases Nat.le_total piece.length (cs ++ ['\n']).length with hle | hle
      · have hmem := (List.prefix_of_prefix_length_le hstart hend hle).subset hclosing
        rw [List.mem_append] at hmem
        exact hmem.elim (hline.1 rfl) (by decide)
      · have hmem := (List.prefix_of_prefix_length_le hend hstart hle).subset
          (List.mem_append_right cs (List.mem_singleton_self '\n'))
        exact hnewline hmem
    rw [List.cons_append, List.cons_append]
    unfold replace
    rw [replaceFrom, if_neg hprefix]
    exact congrArg (c :: ·) (ih hline.2)

/-! ## Fragments -/

namespace Fragment

/-- The lines of a fragment as it is rendered. Without items it still is a line,
an empty one. -/
def lines (f : Fragment) (comments : Bool) : List (List Char) :=
  match f.shown comments with
  | [] => [[]]
  | items => items.map (·.text.toList)

/-- What the lines of a fragment hold, if they are read. -/
def held (f : Fragment) : List LineContent := f.filterMap fun item => contentOf? item.text.toList

theorem held_append (f g : Fragment) : held (f ++ g) = held f ++ held g := List.filterMap_append

variable {f : Fragment} {comments : Bool}

/-- Comments hold nothing, so it does not matter whether they are written. -/
theorem held_shown (f : Fragment) (comments : Bool) : (f.shown comments).held = f.held := by
  have hcomment : ∀ text, contentOf? (Item.comment text).text.toList = none := by
    intro text
    rw [Item.text, String.toList_append]
    exact (lineHolds_comment _).contentOf?_eq
  unfold held shown
  rw [List.filterMap_filter]
  congr 1
  funext item
  cases item with
  | comment text =>
    rw [hcomment]
    exact ite_self none
  | instr | label | raw => cases comments <;> rfl

theorem held_lines (f : Fragment) (comments : Bool) :
    (f.lines comments).filterMap contentOf? = f.held := by
  rw [← held_shown f comments]
  unfold lines
  split
  next hnil =>
    rw [hnil]
    rfl
  next => exact List.filterMap_map ..

theorem isLine_of_mem_lines (h : ∀ item ∈ f, Text.IsLine item.text.toList) :
    ∀ raw ∈ f.lines comments, '\n' ∉ raw ∧ Text.Unclosed raw := by
  unfold lines
  split
  next => exact List.forall_mem_singleton.mpr ⟨List.not_mem_nil, trivial⟩
  next items =>
    intro raw hraw
    obtain ⟨item, hitem, rfl⟩ := List.mem_map.mp hraw
    have hline := h item (List.mem_filter.mp hitem).1
    exact ⟨hline.newline_not_mem, hline.unclosed⟩

/-- **A fragment is rendered line by line**, one for each item that is shown. -/
theorem toList_render_append (h : ∀ item ∈ f, Text.IsLine item.text.toList) :
    (f.render comments).toList ++ ['\n'] = Text.ofLines (f.lines comments) := by
  rw [render_eq fun item hitem => (h item hitem).ne_nil]
  unfold lines
  cases f.shown comments with
  | nil => rfl
  | cons item items =>
    refine (Text.toList_intercalate_append (List.cons_ne_nil item.text _)).trans ?_
    rw [← List.map_cons, List.map_map]
    rfl

theorem passedOver_lines (h : ∀ item ∈ f, Text.IsLine item.text.toList) :
    Text.PassedOver Template.functionsMark.toList (Text.ofLines (f.lines comments)) := by
  have hlines : ∀ raw ∈ f.lines comments, '\n' ∉ raw ∧ Text.Unclosed raw := isLine_of_mem_lines h
  generalize f.lines comments = raws at hlines ⊢
  induction raws with
  | nil => exact fun _ _ => rfl
  | cons raw raws ih =>
    obtain ⟨⟨-, hraw⟩, hraws⟩ := List.forall_mem_cons.mp hlines
    exact .append (hraw.passedOver (by decide) (by decide)) (ih hraws)

end Fragment

/-! ## The text of a build -/

/-- The lines of a build: the entry, the body, the runtime and the definitions. -/
def Runtime.lines (body functions : Fragment) (comments : Bool) : List (List Char) :=
  ".start".toList :: (body.lines comments
    ++ (Runtime.contents.map (·.text.toList) ++ functions.lines comments))

theorem Runtime.newline_not_mem_lines {body functions : Fragment} {comments : Bool}
    (hbody : ∀ item ∈ body, Text.IsLine item.text.toList)
    (hfunctions : ∀ item ∈ functions, Text.IsLine item.text.toList) :
    ∀ raw ∈ lines body functions comments, '\n' ∉ raw := by
  have hnewline : ∀ c ∈ Runtime.contents, '\n' ∉ c.text.toList := by decide +kernel
  have hlines : ∀ f : Fragment, (∀ item ∈ f, Text.IsLine item.text.toList) →
      ∀ raw ∈ f.lines comments, '\n' ∉ raw :=
    fun f hf raw hraw => (Fragment.isLine_of_mem_lines hf raw hraw).1
  refine List.forall_mem_cons.mpr ⟨by decide, List.forall_mem_append.mpr ⟨hlines body hbody,
    List.forall_mem_append.mpr ⟨?_, hlines functions hfunctions⟩⟩⟩
  intro raw hraw
  obtain ⟨c, hc, rfl⟩ := List.mem_map.mp hraw
  exact hnewline c hc

namespace Template

variable {body functions : Fragment} {comments : Bool}

/-- **The text of a build is the lines of its parts.** -/
theorem toList_render_lines (hbody : ∀ item ∈ body, Text.IsLine item.text.toList)
    (hfunctions : ∀ item ∈ functions, Text.IsLine item.text.toList) :
    (render base (body.render comments) (functions.render comments)).toList
      = Text.ofLines (Runtime.lines body functions comments) := by
  have hpassed :
      Text.PassedOver functionsMark.toList ((body.render comments).toList ++ ['\n']) := by
    rw [Fragment.toList_render_append hbody]
    exact Fragment.passedOver_lines hbody
  have hruntime : Runtime.written Runtime.contents
      = Text.ofLines (Runtime.contents.map (·.text.toList)) := by
    unfold Runtime.written Text.ofLines
    rw [List.flatMap_map]
  show _ = Text.ofLines ([".start".toList] ++ (body.lines comments
    ++ (Runtime.contents.map (·.text.toList) ++ functions.lines comments)))
  rw [toList_render hpassed, hruntime, Fragment.toList_render_append hfunctions,
    Text.ofLines_append, Text.ofLines_append, Text.ofLines_append,
    ← Fragment.toList_render_append hbody, List.append_assoc (body.render comments).toList]
  rfl

/-- **What is found in the text of a build** is what the lines of its parts
hold. -/
theorem contents_of_readAll (hbody : ∀ item ∈ body, Text.IsLine item.text.toList)
    (hfunctions : ∀ item ∈ functions, Text.IsLine item.text.toList) {lines : List SourceLine}
    (h : SourceLine.readAll (render base (body.render comments) (functions.render comments))
      = .ok lines) :
    lines.map (·.content)
      = .label "start" :: (body.held ++ (Runtime.contents ++ functions.held)) := by
  have hruntime :
      (Runtime.contents.map (·.text.toList)).filterMap contentOf? = Runtime.contents := by
    decide +kernel
  unfold SourceLine.readAll at h
  rw [toList_render_lines hbody hfunctions] at h
  rw [contents_of_readFrom (Runtime.newline_not_mem_lines hbody hfunctions) h]
  unfold Runtime.lines
  have hstart : contentOf? ".start".toList = some (.label "start") := by decide
  rw [List.filterMap_cons_some hstart, List.filterMap_append, List.filterMap_append, hruntime,
    Fragment.held_lines, Fragment.held_lines]

end Template

end RegMachine
