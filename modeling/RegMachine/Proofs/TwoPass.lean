import RegMachine.Asm.Assemble
import RegMachine.Proofs.Outcome

/-!
# The two passes agree

The first pass lays a program out from the lengths of its mnemonics alone; the
second writes the bytes, instruction by instruction, through six encodings.
Nothing in the code compares the two. They agree because every encoding writes
exactly as many bytes as its mnemonic is long (`Instruction.length_of_encode`),
so the bytes before an instruction are those of the instructions before it, and
the place the first pass gave it is the place the second pass writes it to
(`slice_of_encodeFrom`).

The same observation, word by word, shows that the code can be read back:
every word of an encoding starts with an opcode, so the opcodes of the code
are those of its mnemonics (`words_of_encodeFrom`).

Labels are settled by the first pass alone. A label stands behind the
instructions of the lines before it (`get?_of_defineLabels`), and laying out
fails only if a label is defined twice (`defineLabels_isOk_iff`).
-/

namespace RegMachine

/-! ## Programs as lines -/

/-- The instructions that lines hold, in order. -/
def instructionsOf (lines : List SourceLine) : List Instruction :=
  lines.filterMap SourceLine.instruction?

/-- The bytes that the instructions of lines take together. -/
def extentOf (lines : List SourceLine) : Nat :=
  Layout.extent ((instructionsOf lines).map (·.mnemonic.length))

/-- The label that a line defines, if it does. -/
def SourceLine.label? (line : SourceLine) : Option String :=
  match line.content with
  | .label name => some name
  | .instruction _ _ => none

/-- The labels that lines define, in order. -/
def labelsOf (lines : List SourceLine) : List String :=
  lines.filterMap SourceLine.label?

section Lines

variable (number : Nat) (name : String) (m : Mnemonic) (operands : List String)
variable (rest : List SourceLine)

@[simp]
theorem instructionsOf_nil : instructionsOf [] = [] := rfl

@[simp]
theorem instructionsOf_label :
    instructionsOf (⟨number, .label name⟩ :: rest) = instructionsOf rest := rfl

@[simp]
theorem instructionsOf_instruction :
    instructionsOf (⟨number, .instruction m operands⟩ :: rest)
      = ⟨number, m, operands⟩ :: instructionsOf rest := rfl

@[simp]
theorem extentOf_nil : extentOf [] = 0 := rfl

@[simp]
theorem extentOf_label : extentOf (⟨number, .label name⟩ :: rest) = extentOf rest := rfl

@[simp]
theorem extentOf_instruction :
    extentOf (⟨number, .instruction m operands⟩ :: rest) = m.length + extentOf rest := rfl

@[simp]
theorem labelsOf_nil : labelsOf [] = [] := rfl

@[simp]
theorem labelsOf_label :
    labelsOf (⟨number, .label name⟩ :: rest) = name :: labelsOf rest := rfl

@[simp]
theorem labelsOf_instruction :
    labelsOf (⟨number, .instruction m operands⟩ :: rest) = labelsOf rest := rfl

end Lines

/-- What a successful assembly went through. -/
theorem assemble_eq_ok_iff {source : String} {o : ObjectCode} :
    assemble source = .ok o ↔
      ∃ lines layout bytes, SourceLine.readAll source = .ok lines
        ∧ Layout.ofLines lines = .ok layout
        ∧ encodeFrom layout 0 (instructionsOf lines) = .ok bytes
        ∧ o = ⟨bytes, layout.labels⟩ := by
  unfold assemble
  simp only [bind_eq_ok_iff, pure_eq_ok_iff]
  constructor
  · rintro ⟨lines, hread, layout, hlayout, bytes, hbytes, rfl⟩
    exact ⟨lines, layout, bytes, hread, hlayout, hbytes, rfl⟩
  · rintro ⟨lines, layout, bytes, hread, hlayout, hbytes, rfl⟩
    exact ⟨lines, hread, layout, hlayout, bytes, hbytes, rfl⟩

/-- A layout is its labels and the lengths of its instructions. -/
theorem Layout.ofLines_eq_ok_iff {lines : List SourceLine} {layout : Layout} :
    ofLines lines = .ok layout ↔
      defineLabels 0 ∅ lines = .ok layout.labels
        ∧ layout.lengths = (instructionsOf lines).map (·.mnemonic.length) := by
  unfold ofLines
  obtain ⟨labels, lengths⟩ := layout
  cases defineLabels 0 ∅ lines with
  | error e => exact ⟨nofun, fun h => nomatch h.1⟩
  | ok labels' =>
    simp only [Except.ok.injEq, Layout.mk.injEq]
    exact and_congr Iff.rfl eq_comm

/-! ## One instruction -/

/-- The opcodes of the words that a mnemonic stands for. -/
def Mnemonic.words : Mnemonic → List Opcode
  | basic op => [op]
  | ldr => [.ldru, .ldrl]

/-- A mnemonic is as long as its words, of four bytes each. -/
theorem Mnemonic.length_eq_words (m : Mnemonic) : m.length = 4 * m.words.length := by
  cases m with
  | basic op => cases op <;> rfl
  | ldr => rfl

/-- Only the load of a whole word takes two words. -/
theorem Mnemonic.eq_ldr_of_encoding {m : Mnemonic} (h : m.encoding = .loadWord) : m = .ldr := by
  cases m with
  | basic op => cases op <;> exact nomatch h
  | ldr => rfl

/-- **The words of an encoding.** The bytes of an instruction are a run of
words, one for each opcode of its mnemonic, each with three bytes behind the
opcode. -/
inductive Words : List Opcode → List UInt8 → Prop
  | nil : Words [] []
  | cons (op : Opcode) (a b c : UInt8) {ops : List Opcode} {bytes : List UInt8}
      (rest : Words ops bytes) : Words (op :: ops) (op.byte :: a :: b :: c :: bytes)

theorem Words.length {ops : List Opcode} {bytes : List UInt8} (h : Words ops bytes) :
    bytes.length = 4 * ops.length := by
  induction h with
  | nil => rfl
  | cons op a b c rest ih =>
    simp only [List.length_cons, ih]
    omega

theorem Words.append {ops₁ ops₂ : List Opcode} {bytes₁ bytes₂ : List UInt8}
    (h₁ : Words ops₁ bytes₁) (h₂ : Words ops₂ bytes₂) :
    Words (ops₁ ++ ops₂) (bytes₁ ++ bytes₂) := by
  induction h₁ with
  | nil => exact h₂
  | cons op a b c rest ih => exact .cons op a b c ih

/-- **A run of words is read back in full**: no word stops the reading. -/
theorem Words.opcodesOf {ops : List Opcode} {bytes : List UInt8} (h : Words ops bytes) :
    ObjectCode.opcodesOf bytes = ops := by
  induction h with
  | nil => rfl
  | cons op a b c rest ih => rw [ObjectCode.opcodesOf, Opcode.ofByte?_byte, ih]

/-- Every encoding but the load of a whole word is one word, which starts with
the mnemonic's opcode. -/
theorem Words.single {m : Mnemonic} (h : m.encoding ≠ .loadWord) (a b c : UInt8) :
    Words m.words [m.opcode.byte, a, b, c] := by
  cases m with
  | basic op => exact .cons op a b c .nil
  | ldr => exact absurd rfl h

/-- **Every encoding is the words of its mnemonic.** -/
theorem Instruction.words_of_encode {layout : Layout} {index : Nat} {i : Instruction}
    {bytes : List UInt8} (h : i.encode layout index = .ok bytes) :
    Words i.mnemonic.words bytes := by
  unfold Instruction.encode at h
  dsimp only at h
  split at h
  case h_7 => exact nomatch h
  all_goals rename_i henc _
  all_goals simp only [bind_eq_ok_iff, pure_eq_ok_iff] at h
  case h_1 =>
    obtain ⟨ra, -, rb, -, rc, -, rfl⟩ := h
    exact .single (by simp [henc]) ra rb rc
  case h_2 =>
    obtain ⟨ra, -, value, -, rfl⟩ := h
    exact .single (by simp [henc]) ra _ _
  case h_3 =>
    obtain ⟨ra, -, rb, -, rfl⟩ := h
    exact .single (by simp [henc]) ra 0 rb
  case h_4 =>
    obtain ⟨ra, -, rfl⟩ := h
    exact .single (by simp [henc]) ra 0 0
  case h_5 =>
    obtain ⟨ra, -, rb, -, rfl⟩ := h
    exact .single (by simp [henc]) ra rb 0
  case h_6 =>
    obtain ⟨ra, -, value, -, rfl⟩ := h
    rw [Mnemonic.eq_ldr_of_encoding henc]
    exact .cons .ldru _ _ _ (.cons .ldrl _ _ _ .nil)

/-- **An instruction has as many bytes as its mnemonic is long.** -/
theorem Instruction.length_of_encode {layout : Layout} {index : Nat} {i : Instruction}
    {bytes : List UInt8} (h : i.encode layout index = .ok bytes) :
    bytes.length = i.mnemonic.length := by
  rw [(Instruction.words_of_encode h).length, Mnemonic.length_eq_words]

/-! ## All instructions -/

section EncodeFrom

variable {layout : Layout} {index : Nat} {is : List Instruction} {bytes : List CodeByte}

theorem encodeFrom_cons_eq_ok_iff {i : Instruction} :
    encodeFrom layout index (i :: is) = .ok bytes ↔
      ∃ head tail, i.encode layout index = .ok head
        ∧ encodeFrom layout (index + 1) is = .ok tail
        ∧ head.map (⟨·, i.line⟩) ++ tail = bytes := by
  rw [encodeFrom]
  simp only [bind_eq_ok_iff, pure_eq_ok_iff]
  constructor
  · rintro ⟨head, hhead, tail, htail, rfl⟩
    exact ⟨head, tail, hhead, htail, rfl⟩
  · rintro ⟨head, tail, hhead, htail, rfl⟩
    exact ⟨head, hhead, tail, htail, rfl⟩

/-- The code has as many bytes as the layout says. -/
theorem length_of_encodeFrom (h : encodeFrom layout index is = .ok bytes) :
    bytes.length = Layout.extent (is.map (·.mnemonic.length)) := by
  induction is generalizing index bytes with
  | nil =>
    cases h
    rfl
  | cons i is ih =>
    obtain ⟨head, tail, hhead, htail, rfl⟩ := encodeFrom_cons_eq_ok_iff.mp h
    rw [List.length_append, List.length_map, Instruction.length_of_encode hhead, ih htail,
      List.map_cons, Layout.extent_cons]

/-- **An instruction is written to the place the layout gave it**: behind the
bytes of the instructions before it stand its own bytes, each with its
line. -/
theorem slice_of_encodeFrom (h : encodeFrom layout index is = .ok bytes) {k : Nat}
    {i : Instruction} (hi : is[k]? = some i) :
    ∃ code, i.encode layout (index + k) = .ok code
      ∧ (bytes.drop (Layout.extent ((is.map (·.mnemonic.length)).take k))).take i.mnemonic.length
        = code.map (⟨·, i.line⟩) := by
  induction is generalizing index bytes k with
  | nil => exact nomatch hi
  | cons j is ih =>
    obtain ⟨head, tail, hhead, htail, rfl⟩ := encodeFrom_cons_eq_ok_iff.mp h
    have hlen := Instruction.length_of_encode hhead
    cases k with
    | zero =>
      cases hi
      refine ⟨head, hhead, ?_⟩
      rw [List.take_zero, Layout.extent_nil, List.drop_zero]
      exact List.take_left' (by rw [List.length_map, hlen])
    | succ k =>
      obtain ⟨code, hcode, hslice⟩ := ih htail hi
      refine ⟨code, ?_, ?_⟩
      · rw [show index + (k + 1) = index + 1 + k by omega]
        exact hcode
      · rw [List.map_cons, List.take_succ_cons, Layout.extent_cons, ← List.drop_drop,
          List.drop_left' (by rw [List.length_map, hlen])]
        exact hslice

/-- **The code is the words of its instructions**, one after the other. -/
theorem words_of_encodeFrom (h : encodeFrom layout index is = .ok bytes) :
    Words (is.flatMap (·.mnemonic.words)) (bytes.map (·.value)) := by
  induction is generalizing index bytes with
  | nil =>
    cases h
    exact .nil
  | cons i is ih =>
    obtain ⟨head, tail, hhead, htail, rfl⟩ := encodeFrom_cons_eq_ok_iff.mp h
    rw [List.flatMap_cons, List.map_append, List.map_map]
    refine .append ?_ (ih htail)
    rw [show CodeByte.value ∘ (fun b => (⟨b, i.line⟩ : CodeByte)) = id from rfl, List.map_id]
    exact Instruction.words_of_encode hhead

end EncodeFrom

/-! ## Labels -/

/-- **A label stands at an offset** of a program: the instructions of the lines
before its definition take so many bytes. -/
def StandsAt (lines : List SourceLine) (name : String) (offset : Nat) : Prop :=
  ∃ before number after, lines = before ++ ⟨number, .label name⟩ :: after
    ∧ offset = extentOf before

section StandsAt

variable {number offset : Nat} {name other : String} {m : Mnemonic} {operands : List String}
variable {lines : List SourceLine}

theorem not_standsAt_nil : ¬ StandsAt [] name offset := by
  rintro ⟨before, number, after, h, -⟩
  exact nomatch (List.append_eq_nil_iff.mp h.symm).2

theorem standsAt_label_iff :
    StandsAt (⟨number, .label other⟩ :: lines) name offset ↔
      (other = name ∧ offset = 0) ∨ StandsAt lines name offset := by
  constructor
  · rintro ⟨before, number', after, h, rfl⟩
    cases before with
    | nil =>
      cases h
      exact .inl ⟨rfl, rfl⟩
    | cons hd before =>
      cases h
      exact .inr ⟨before, number', after, rfl, rfl⟩
  · rintro (⟨rfl, rfl⟩ | ⟨before, number', after, rfl, rfl⟩)
    · exact ⟨[], number, lines, rfl, rfl⟩
    · exact ⟨⟨number, .label other⟩ :: before, number', after, rfl, rfl⟩

theorem standsAt_instruction_iff :
    StandsAt (⟨number, .instruction m operands⟩ :: lines) name offset ↔
      ∃ rest, offset = m.length + rest ∧ StandsAt lines name rest := by
  constructor
  · rintro ⟨before, number', after, h, rfl⟩
    cases before with
    | nil => exact nomatch h
    | cons hd before =>
      cases h
      exact ⟨extentOf before, rfl, before, number', after, rfl, rfl⟩
  · rintro ⟨_, rfl, before, number', after, rfl, rfl⟩
    exact ⟨⟨number, .instruction m operands⟩ :: before, number', after, rfl, rfl⟩

/-- The labels that stand somewhere are those that the lines define. -/
theorem exists_standsAt_iff : (∃ offset, StandsAt lines name offset) ↔ name ∈ labelsOf lines := by
  induction lines with
  | nil => exact ⟨fun ⟨_, h⟩ => absurd h not_standsAt_nil, fun h => nomatch h⟩
  | cons line lines ih =>
    obtain ⟨number, content⟩ := line
    cases content with
    | label other =>
      rw [labelsOf_label, List.mem_cons, ← ih, eq_comm]
      simp only [standsAt_label_iff, exists_or, exists_and_left, exists_eq, and_true]
    | instruction m operands =>
      rw [labelsOf_instruction, ← ih]
      simp only [standsAt_instruction_iff]
      exact ⟨fun ⟨_, rest, _, h⟩ => ⟨rest, h⟩, fun ⟨rest, h⟩ => ⟨_, rest, rfl, h⟩⟩

end StandsAt

theorem LabelTable.define_eq_ok_iff {labels labels' : LabelTable} {name : String}
    {offset line : Nat} :
    labels.define name offset line = .ok labels' ↔
      labels.get? name = none ∧ labels.insert name offset = labels' := by
  unfold define Table.contains
  cases labels.get? name <;> simp

section DefineLabels

variable {offset : Nat} {labels table : LabelTable} {lines : List SourceLine}

theorem defineLabels_label_eq_ok_iff {number : Nat} {name : String} :
    defineLabels offset labels (⟨number, .label name⟩ :: lines) = .ok table ↔
      labels.get? name = none
        ∧ defineLabels offset (labels.insert name offset) lines = .ok table := by
  rw [defineLabels]
  dsimp only
  cases h : labels.define name offset number with
  | ok labels' =>
    obtain ⟨hnone, rfl⟩ := LabelTable.define_eq_ok_iff.mp h
    simp [hnone]
  | error e =>
    refine ⟨nofun, fun ⟨hnone, _⟩ => ?_⟩
    rw [LabelTable.define_eq_ok_iff.mpr ⟨hnone, rfl⟩] at h
    exact nomatch h

/-- **Labels stand where the layout says**: the table has the labels it started
with, and those of the lines, each behind the instructions before it. -/
theorem get?_of_defineLabels (h : defineLabels offset labels lines = .ok table) (name : String)
    (place : Nat) :
    table.get? name = some place ↔
      labels.get? name = some place
        ∨ ∃ rest, place = offset + rest ∧ StandsAt lines name rest := by
  induction lines generalizing offset labels with
  | nil =>
    cases h
    refine ⟨.inl, fun h => h.resolve_right ?_⟩
    rintro ⟨_, _, h⟩
    exact not_standsAt_nil h
  | cons line lines ih =>
    obtain ⟨number, content⟩ := line
    cases content with
    | label other =>
      obtain ⟨hnone, h⟩ := defineLabels_label_eq_ok_iff.mp h
      rw [ih h]
      simp only [standsAt_label_iff]
      by_cases hname : name = other
      · subst hname
        rw [Table.get?_insert_self, hnone]
        constructor
        · rintro (hplace | ⟨rest, rfl, hrest⟩)
          · cases hplace
            exact .inr ⟨0, rfl, .inl ⟨rfl, rfl⟩⟩
          · exact .inr ⟨rest, rfl, .inr hrest⟩
        · rintro (hplace | ⟨rest, rfl, ⟨-, rfl⟩ | hrest⟩)
          · exact nomatch hplace
          · exact .inl rfl
          · exact .inr ⟨rest, rfl, hrest⟩
      · rw [Table.get?_insert_of_ne _ hname]
        simp [Ne.symm hname]
    | instruction m operands =>
      rw [defineLabels] at h
      rw [ih h]
      simp only [standsAt_instruction_iff]
      refine or_congr Iff.rfl ⟨?_, ?_⟩
      · rintro ⟨rest, rfl, hrest⟩
        exact ⟨m.length + rest, Nat.add_assoc .., rest, rfl, hrest⟩
      · rintro ⟨_, rfl, rest, rfl, hrest⟩
        exact ⟨rest, (Nat.add_assoc ..).symm, hrest⟩

/-- **Laying out fails only at a label that is defined twice.** -/
theorem defineLabels_isOk_iff :
    (∃ table, defineLabels offset labels lines = .ok table) ↔
      (labelsOf lines).Nodup ∧ ∀ name ∈ labelsOf lines, labels.get? name = none := by
  induction lines generalizing offset labels with
  | nil => exact ⟨fun _ => ⟨List.nodup_nil, nofun⟩, fun _ => ⟨labels, rfl⟩⟩
  | cons line lines ih =>
    obtain ⟨number, content⟩ := line
    cases content with
    | label other =>
      simp only [defineLabels_label_eq_ok_iff, exists_and_left, ih, labelsOf_label,
        List.nodup_cons, List.forall_mem_cons]
      constructor
      · rintro ⟨hnone, hnodup, hfresh⟩
        have hother : other ∉ labelsOf lines := fun hmem => by
          have := hfresh other hmem
          rw [Table.get?_insert_self] at this
          exact nomatch this
        refine ⟨⟨hother, hnodup⟩, hnone, fun name hname => ?_⟩
        rw [← hfresh name hname, Table.get?_insert_of_ne]
        rintro rfl
        exact hother hname
      · rintro ⟨⟨hother, hnodup⟩, hnone, hfresh⟩
        refine ⟨hnone, hnodup, fun name hname => ?_⟩
        rw [Table.get?_insert_of_ne, hfresh name hname]
        rintro rfl
        exact hother hname
    | instruction m operands =>
      rw [labelsOf_instruction]
      exact ih

end DefineLabels

/-- The labels of a layout stand where it says. -/
theorem Layout.get?_labels {lines : List SourceLine} {layout : Layout}
    (h : Layout.ofLines lines = .ok layout) (name : String) (offset : Nat) :
    layout.labels.get? name = some offset ↔ StandsAt lines name offset := by
  rw [get?_of_defineLabels (Layout.ofLines_eq_ok_iff.mp h).1, Table.get?_empty]
  simp

/-! ## The whole program -/

/-- **The object code of lines agrees with their layout.** -/
structure Agree (lines : List SourceLine) (layout : Layout) (o : ObjectCode) : Prop where
  /-- The layout has the instructions of the lines. -/
  count : layout.count = (instructionsOf lines).length
  /-- The code has as many bytes as the layout. -/
  size : o.size = layout.size
  /-- Every byte has its line. -/
  lineCount : o.lines.length = o.size
  /-- An instruction stands at its offset, in its length, with its line. -/
  slice : ∀ (index : Nat) (i : Instruction), (instructionsOf lines)[index]? = some i →
    ∃ offset length code, layout.offset? index = some offset
      ∧ layout.length? index = some length
      ∧ i.encode layout index = .ok code
      ∧ (o.bytes.drop offset).take length = code.map (⟨·, i.line⟩)
  /-- A label stands behind the instructions of the lines before it. -/
  labels : ∀ (name : String) (offset : Nat),
    o.labels.get? name = some offset ↔ StandsAt lines name offset
  /-- Every word can be read back. -/
  opcodes : o.opcodes = (instructionsOf lines).flatMap (·.mnemonic.words)
  /-- There are as many words as four go into the size. -/
  words : o.opcodes.length = layout.size / 4

/-- **The two passes agree** on every text that is assembled. -/
theorem assemble_agree {source : String} {o : ObjectCode} (h : assemble source = .ok o) :
    ∃ lines layout, SourceLine.readAll source = .ok lines ∧ Layout.ofLines lines = .ok layout
      ∧ Agree lines layout o := by
  obtain ⟨lines, layout, bytes, hread, hlayout, hbytes, rfl⟩ := assemble_eq_ok_iff.mp h
  refine ⟨lines, layout, hread, hlayout, ?_⟩
  have hlengths := (Layout.ofLines_eq_ok_iff.mp hlayout).2
  have hsize : bytes.length = layout.size := by
    rw [length_of_encodeFrom hbytes, Layout.size, hlengths]
  have hwords := words_of_encodeFrom hbytes
  have hopcodes : ObjectCode.opcodes ⟨bytes, layout.labels⟩
      = (instructionsOf lines).flatMap (·.mnemonic.words) := hwords.opcodesOf
  exact {
    count := by rw [Layout.count, hlengths, List.length_map]
    size := hsize
    lineCount := by rw [ObjectCode.lines, List.length_map, ObjectCode.size]
    slice := fun index i hi => by
      obtain ⟨code, hcode, hslice⟩ := slice_of_encodeFrom hbytes hi
      rw [Nat.zero_add] at hcode
      have hlength : layout.length? index = some i.mnemonic.length := by
        rw [Layout.length?, hlengths, List.getElem?_map, hi]
        rfl
      have hcount : index < layout.count :=
        (List.getElem?_eq_some_iff.mp hlength).1
      refine ⟨layout.start index, i.mnemonic.length, code, if_pos hcount, hlength, hcode, ?_⟩
      rw [Layout.start, hlengths]
      exact hslice
    labels := Layout.get?_labels hlayout
    opcodes := hopcodes
    words := by
      have hlen := hwords.length
      rw [List.length_map, hsize] at hlen
      rw [hopcodes, hlen, Nat.mul_div_cancel_left _ (by decide)] }

/-- Assembling and agreeing, on a text with a label in front of a load of a
whole word. -/
theorem assemble_agree_loop :
    ∃ o, assemble ".a\nldr r1, .a\njpr r1" = .ok o
      ∧ ∃ lines layout, SourceLine.readAll ".a\nldr r1, .a\njpr r1" = .ok lines
        ∧ Layout.ofLines lines = .ok layout ∧ Agree lines layout o := by
  have h : assemble ".a\nldr r1, .a\njpr r1"
      = .ok ⟨[⟨0x10, 2⟩, ⟨1, 2⟩, ⟨0, 2⟩, ⟨0, 2⟩, ⟨0x11, 2⟩, ⟨1, 2⟩, ⟨0, 2⟩, ⟨0, 2⟩,
        ⟨0x18, 3⟩, ⟨1, 3⟩, ⟨0, 3⟩, ⟨0, 3⟩], (∅ : LabelTable).insert "a" 0⟩ := by
    rfl
  exact ⟨_, h, assemble_agree h⟩

end RegMachine
