import RegMachine.Proofs.ReadBack
import RegMachine.Proofs.TwoPass

/-!
# Text carries generated code faithfully

Generated code is written as text and read again by the assembler. What it
means can be said without the text: `Instr.bytes` is the encoding of an
instruction and `Fragment.code` the code of a fragment, computed from the
typed items alone. A label means the lengths of the instructions before it,
and a forward reference counts the instructions behind it.

The main statement, `Fragment.assemble_render`, is that writing and assembling
yields just that code. Two things make it true. Each operand's notation is read
back as the operand's value (`Fragment.Carried.readValue_text`), and the labels
and lengths that the first pass finds in the text are those of the items
(`Fragment.laidOut_of_contents`).
-/

namespace RegMachine

/-! ## Code without text -/

/-- The bytes an instruction takes. -/
def Instr.size : Instr → Nat
  | ldr .. => 8
  | _ => 4

/-- **The encoding of an instruction**, given what its operand means. A loaded
value is cut to a word and a shift to a half word. -/
def Instr.bytes (value : Operand → Int) : Instr → List UInt8
  | ldr rd src =>
    let word := UInt32.ofInt (value src)
    [Opcode.ldru.byte, rd.index, (word >>> 24).toUInt8, (word >>> 16).toUInt8,
      Opcode.ldrl.byte, rd.index, (word >>> 8).toUInt8, word.toUInt8]
  | mov rd rs => [Opcode.mov.byte, rd.index, rs.index, 0]
  | jpr target => [Opcode.jpr.byte, target.index, 0, 0]
  | branch cond target lhs rhs => [cond.opcode.byte, target.index, lhs.index, rhs.index]
  | alu op rd ra rb => [op.opcode.byte, rd.index, ra.index, rb.index]
  | aluImm op rd imm => [op.immediate.byte, rd.index, (imm >>> 8).toUInt8, imm.toUInt8]
  | shift op rd amount =>
    let half := UInt16.ofInt amount.toInt
    [op.opcode.byte, rd.index, (half >>> 8).toUInt8, half.toUInt8]
  | store width rs addr => [width.store.byte, rs.index, 0, addr.index]

namespace Fragment

/-- The bytes of a run of instructions. -/
def sizeOf : List Instr → Nat
  | [] => 0
  | i :: rest => i.size + sizeOf rest

/-- The bytes of a fragment. -/
def size (f : Fragment) : Nat := sizeOf f.instructions

/-- **The offset of a label**: the bytes of the instructions before it. -/
def offsetOf? : Fragment → String → Option Nat
  | [], _ => none
  | .label other :: rest, name => if other = name then some 0 else offsetOf? rest name
  | .instr i :: rest, name => (offsetOf? rest name).map (i.size + ·)
  | .comment _ :: rest, name | .raw _ :: rest, name => offsetOf? rest name

/-- **The address of a forward reference** of the instruction of an index: past
that instruction and the ones it skips. -/
def forwardTarget (f : Fragment) (index distance : Nat) : Nat :=
  sizeOf (f.instructions.take index) + 8
    + sizeOf ((f.instructions.drop (index + 1)).take (max distance 1 - 1))

/-- What an operand of the instruction of an index means. -/
def value (f : Fragment) (index : Nat) : Operand → Int
  | .imm value => value.toInt
  | .hex value => value.toNat
  | .label name => ((f.offsetOf? name).getD 0 : Nat)
  | .forward distance => f.forwardTarget index distance

/-- **The code of a fragment**: the encodings of its instructions. -/
def code (f : Fragment) : List UInt8 :=
  (f.instructions.mapIdx fun index i => i.bytes (f.value index)).flatten

/-- **The fragments that text carries.** -/
structure Carried (f : Fragment) : Prop where
  /-- There are no embedded lines, comments take one line, and labels are
  words. -/
  readable : f.Readable
  /-- No label is defined twice. -/
  nodup : f.labels.Nodup
  /-- Every label that is named is defined. -/
  defined : ∀ i ∈ f.instructions, ∀ name, i.label? = some name → name ∈ f.labels
  /-- A forward reference skips no more instructions than follow. -/
  forward : ∀ (index : Nat) (i : Instr) (distance : Nat), f.instructions[index]? = some i →
    i.forward? = some distance → max distance 1 - 1 ≤ (f.instructions.drop (index + 1)).length
  /-- Offsets are words. -/
  size : f.size < UInt32.size

theorem carried_iff {f : Fragment} :
    f.Carried ↔ (∀ item ∈ f, item.Readable) ∧ f.labels.Nodup
      ∧ (∀ i ∈ f.instructions, ∀ name ∈ i.label?, name ∈ f.labels)
      ∧ (∀ index < f.instructions.length, ∀ i ∈ f.instructions[index]?, ∀ distance ∈ i.forward?,
          max distance 1 - 1 ≤ (f.instructions.drop (index + 1)).length)
      ∧ f.size < UInt32.size := by
  constructor
  · rintro ⟨hreadable, hnodup, hdefined, hforward, hsize⟩
    exact ⟨hreadable, hnodup, hdefined,
      fun index _ i hi distance hdistance => hforward index i distance hi hdistance, hsize⟩
  · rintro ⟨hreadable, hnodup, hdefined, hforward, hsize⟩
    refine ⟨hreadable, hnodup, hdefined, fun index i distance hi hdistance => ?_, hsize⟩
    exact hforward index (List.getElem?_eq_some_iff.mp hi).1 i hi distance hdistance

instance (f : Fragment) : Decidable f.Carried :=
  decidable_of_iff _ carried_iff.symm

end Fragment

/-! ## Operands -/

theorem Reg.toList_text (r : Reg) : r.text.toList = 'r' :: Nat.toDigits 10 r.index.toNat := by
  rw [Reg.text, String.toList_append, Text.toList_decimal]
  rfl

/-- **A register is read back as itself.** -/
theorem readRegister_text (line : Nat) (r : Reg) : readRegister line r.text = .ok r.index := by
  have hlt : r.index.toNat < 256 := r.index.toNat_lt
  unfold readRegister
  rw [r.toList_text]
  simp only [Text.readUnsigned?_toDigits
    (show r.index.toNat < UInt32.size by unfold UInt32.size; omega)]
  rw [if_pos hlt, UInt8.ofNat_toNat]

theorem readJumpTarget_text (line : Nat) (r : Reg) :
    readJumpTarget line r.text = .ok r.index := by
  unfold readJumpTarget
  rw [r.toList_text]
  exact readRegister_text line r

section ReadValue

variable (layout : Layout) (index line : Nat)

/-- An immediate value is written in decimal and read as such. -/
theorem readValue_imm (value : Int64) :
    readValue layout index line (Operand.imm value).text = .ok value := by
  have htext : (Operand.imm value).text.toList
      = '#' :: (Text.signedDecimal value.toInt).toList := by
    rw [Operand.text, String.toList_append]
    rfl
  unfold readValue
  rw [htext]
  simp only [Text.readSigned?_signedDecimal]

/-- An operand that starts like no other notation is read in hexadecimal. -/
theorem readValue_of_readHex? {operand : String} {value : Int64}
    (hhead : ∀ c ∈ operand.toList.head?, c ≠ '$' ∧ c ≠ '#' ∧ c ≠ '.')
    (hread : readHex? operand.toList = some value) :
    readValue layout index line operand = .ok value := by
  unfold readValue
  split
  next rest hrest =>
    rw [hrest] at hhead
    exact absurd rfl (hhead '$' rfl).1
  next rest hrest =>
    rw [hrest] at hhead
    exact absurd rfl (hhead '#' rfl).2.1
  next rest hrest =>
    rw [hrest] at hhead
    exact absurd rfl (hhead '.' rfl).2.2
  next => rw [hread]

theorem readValue_hex (value : UInt32) :
    readValue layout index line (Operand.hex value).text = .ok (Int64.ofNat value.toNat) := by
  refine readValue_of_readHex? layout index line ?_ (readHex?_hexAddress value)
  rw [Operand.text, Text.toList_hexAddress]
  rintro c ⟨⟩
  decide

/-- A label stands for its place. -/
theorem readValue_label {name : String} {offset : Nat}
    (h : layout.labels.get? name = some offset) :
    readValue layout index line (Operand.label name).text = .ok (Int64.ofNat offset) := by
  have htext : (Operand.label name).text.toList = '.' :: name.toList := by
    rw [Operand.text, String.toList_append]
    rfl
  unfold readValue
  rw [htext]
  show (layout.labels.resolve (String.ofList name.toList) line).map Int64.ofNat = _
  rw [String.ofList_toList, LabelTable.resolve, h]
  rfl

/-- **A forward reference** stands for the place behind the next instruction and those
that are skipped. -/
theorem readValue_forward {distance : Nat} (hdistance : distance < UInt64.size)
    (h : index + 1 + (max distance 1 - 1) ≤ layout.count) :
    readValue layout index line (Operand.forward distance).text
      = .ok (Int64.ofNat (layout.start index + 8 + Layout.extent
        ((layout.lengths.drop (index + 1)).take (max distance 1 - 1)))) := by
  have htext : (Operand.forward distance).text.toList = '$' :: Nat.toDigits 10 distance := by
    rw [Operand.text, String.toList_append, Text.toList_decimal]
    rfl
  unfold readValue
  rw [htext]
  simp only [Text.readUnsigned?_toDigits hdistance]
  rw [Layout.forwardTarget, if_pos h]
  rfl

theorem readValue_hexDigits {n : Nat} (hn : n < 0x8000000000000000) :
    readValue layout index line (Text.hexDigits n) = .ok (Int64.ofNat n) := by
  have hread := readHex?_toDigits hn
  rw [← Text.toList_hexDigits] at hread
  refine readValue_of_readHex? layout index line (fun c hc => ?_) hread
  rw [Text.toList_hexDigits] at hc
  have hdigit :=
    Text.isDigitChar_of_mem_toDigits (by decide) (by decide) (List.mem_of_mem_head? hc)
  refine ⟨?_, ?_, ?_⟩ <;> (rintro rfl; exact absurd hdigit (by decide))

end ReadValue

/-! ## Words -/

/-- A natural number is cut to a word in the same way as an integer. -/
theorem ofInt_natCast (n : Nat) : UInt32.ofInt (n : Int) = UInt32.ofNat n := by
  refine UInt32.toNat_inj.mp ?_
  unfold UInt32.ofInt
  rw [UInt32.toNat_ofNat', UInt32.toNat_ofNat']
  omega

/-- **A word of 64 bits keeps the lower word of its number.** -/
theorem word_ofInt (value : Int) :
    UInt32.ofInt (Int64.ofInt value).toInt = UInt32.ofInt value := by
  have hmod : value.bmod Int64.size % 2 ^ 32 = value % 2 ^ 32 := by
    have hdvd : (2 ^ 32 : Int) ∣ Int64.size := by decide
    rw [← Int.emod_emod_of_dvd _ hdvd, Int.bmod_emod, Int.emod_emod_of_dvd _ hdvd]
  rw [Int64.toInt_ofInt, UInt32.ofInt, UInt32.ofInt, hmod]

/-- So it is with a number that is cut to 64 bits first. -/
theorem word_ofNat (n : Nat) : UInt32.ofInt (Int64.ofNat n).toInt = UInt32.ofInt n := by
  rw [← Int64.ofInt_eq_ofNat, word_ofInt]

/-- The upper half of a value is the upper half of its word. -/
theorem halfWord_highHalf (value : Int64) :
    halfWord (highHalf value)
      = [(UInt32.ofInt value.toInt >>> 24).toUInt8,
        (UInt32.ofInt value.toInt >>> 16).toUInt8] := by
  unfold halfWord highHalf UInt16.ofInt UInt32.ofInt
  simp only [List.cons.injEq, and_true, ← UInt8.toNat_inj, UInt16.toNat_toUInt8,
    UInt32.toNat_toUInt8, UInt16.toNat_shiftRight, UInt32.toNat_shiftRight,
    Nat.shiftRight_eq_div_pow, UInt16.toNat_ofNat', UInt32.toNat_ofNat', UInt16.reduceToNat,
    UInt32.reduceToNat, Nat.reduceMod, Nat.reducePow, Int.reducePow]
  omega

/-- The lower half of a value is the lower half of its word. -/
theorem halfWord_lowHalf (value : Int64) :
    halfWord (lowHalf value)
      = [(UInt32.ofInt value.toInt >>> 8).toUInt8, (UInt32.ofInt value.toInt).toUInt8] := by
  unfold halfWord lowHalf UInt16.ofInt UInt32.ofInt
  simp only [List.cons.injEq, and_true, ← UInt8.toNat_inj, UInt16.toNat_toUInt8,
    UInt32.toNat_toUInt8, UInt16.toNat_shiftRight, UInt32.toNat_shiftRight,
    Nat.shiftRight_eq_div_pow, UInt16.toNat_ofNat', UInt32.toNat_ofNat', UInt16.reduceToNat,
    UInt32.reduceToNat, Nat.reduceMod, Nat.reducePow, Int.reducePow]
  omega

/-- A half word is its own lower half. -/
theorem lowHalf_toNat (half : UInt16) : lowHalf (Int64.ofNat half.toNat) = half := by
  have hlt := half.toNat_lt
  unfold lowHalf UInt16.ofInt
  rw [← UInt16.toNat_inj, UInt16.toNat_ofNat', Int64.toInt_ofNat_of_lt (by omega)]
  omega

/-! ## Instructions -/

section Encode

variable {layout : Layout} {index line : Nat} {m : Mnemonic}

theorem encode_threeReg (h : m.encoding = .threeReg) (a b c : Reg) :
    Instruction.encode layout index ⟨line, m, [a.text, b.text, c.text]⟩
      = .ok [m.opcode.byte, a.index, b.index, c.index] := by
  unfold Instruction.encode
  dsimp only
  rw [h]
  dsimp only
  rw [readRegister_text, readRegister_text, readRegister_text]
  rfl

theorem encode_regMem (h : m.encoding = .regMem) (a b : Reg) :
    Instruction.encode layout index ⟨line, m, [a.text, b.text]⟩
      = .ok [m.opcode.byte, a.index, 0, b.index] := by
  unfold Instruction.encode
  dsimp only
  rw [h]
  dsimp only
  rw [readRegister_text, readRegister_text]
  rfl

theorem encode_regImm16 (h : m.encoding = .regImm16) (a : Reg) {operand : String} {value : Int64}
    (hvalue : readValue layout index line operand = .ok value) :
    Instruction.encode layout index ⟨line, m, [a.text, operand]⟩
      = .ok (m.opcode.byte :: a.index :: halfWord (lowHalf value)) := by
  unfold Instruction.encode
  dsimp only
  rw [h]
  dsimp only
  rw [readRegister_text, hvalue]
  rfl

/-- **The encoding of an instruction in the assembler is its encoding without
text**, if its operand is read as what it means. -/
theorem Instr.encode_eq (i : Instr) {value : Operand → Int}
    (hvalue : ∀ src, i.source? = some src →
      readValue layout index line src.text = .ok (Int64.ofInt (value src))) :
    Instruction.encode layout index ⟨line, i.mnemonic, i.operands⟩ = .ok (i.bytes value) := by
  cases i with
  | ldr rd src =>
    show Instruction.encode layout index ⟨line, .ldr, [rd.text, src.text]⟩ = _
    unfold Instruction.encode
    show (do
      let ra ← readRegister line rd.text
      let value ← readValue layout index line src.text
      return Opcode.ldru.byte :: ra :: halfWord (highHalf value)
        ++ Opcode.ldrl.byte :: ra :: halfWord (lowHalf value)) = _
    rw [readRegister_text, hvalue src rfl]
    show Except.ok (Opcode.ldru.byte :: rd.index :: halfWord (highHalf (Int64.ofInt (value src)))
      ++ Opcode.ldrl.byte :: rd.index :: halfWord (lowHalf (Int64.ofInt (value src)))) = _
    rw [halfWord_highHalf, halfWord_lowHalf, word_ofInt]
    rfl
  | mov rd rs =>
    show Instruction.encode layout index ⟨line, .basic .mov, [rd.text, rs.text]⟩ = _
    unfold Instruction.encode
    show (do
      let ra ← readRegister line rd.text
      let rb ← readRegister line rs.text
      return [Opcode.mov.byte, ra, rb, 0]) = _
    rw [readRegister_text, readRegister_text]
    rfl
  | jpr target =>
    show Instruction.encode layout index ⟨line, .basic .jpr, [target.text]⟩ = _
    unfold Instruction.encode
    show (do
      let ra ← readJumpTarget line target.text
      return [Opcode.jpr.byte, ra, 0, 0]) = _
    rw [readJumpTarget_text]
    rfl
  | branch cond target lhs rhs => exact encode_threeReg (by cases cond <;> rfl) target lhs rhs
  | alu op rd ra rb => exact encode_threeReg (by cases op <;> rfl) rd ra rb
  | aluImm op rd imm =>
    have hlt := imm.toNat_lt
    refine (encode_regImm16 (by cases op <;> rfl) rd
      (readValue_hexDigits layout index line (n := imm.toNat) (by omega))).trans ?_
    rw [lowHalf_toNat]
    rfl
  | shift op rd amount =>
    exact encode_regImm16 (by cases op <;> rfl) rd (readValue_imm layout index line amount)
  | store width rs addr => exact encode_regMem (by cases width <;> rfl) rs addr

end Encode

/-- The size of an instruction is that of its mnemonic. -/
theorem Instr.length_mnemonic (i : Instr) : i.mnemonic.length = i.size := by
  cases i with
  | branch cond => cases cond <;> rfl
  | alu op => cases op <;> rfl
  | aluImm op => cases op <;> rfl
  | shift op => cases op <;> rfl
  | store width => cases width <;> rfl
  | _ => rfl

/-- Encodings that are known one by one make up the code. -/
theorem encodeFrom_of_chunks {layout : Layout} {index : Nat} {is : List Instruction}
    {chunks : List (List UInt8)} (hlength : chunks.length = is.length)
    (h : ∀ (k : Nat) (i : Instruction) (chunk : List UInt8), is[k]? = some i →
      chunks[k]? = some chunk → i.encode layout (index + k) = .ok chunk) :
    ∃ bytes, encodeFrom layout index is = .ok bytes ∧ bytes.map (·.value) = chunks.flatten := by
  induction is generalizing index chunks with
  | nil =>
    rw [List.eq_nil_of_length_eq_zero hlength]
    exact ⟨[], rfl, rfl⟩
  | cons i is ih =>
    cases chunks with
    | nil => exact nomatch hlength
    | cons chunk chunks =>
      have hhead := h 0 i chunk rfl rfl
      obtain ⟨tail, htail, hcode⟩ := ih (Nat.succ.inj hlength)
        fun k j chunk' hj hchunk' => by
          rw [show index + 1 + k = index + (k + 1) by omega]
          exact h (k + 1) j chunk' hj hchunk'
      refine ⟨_, encodeFrom_cons_eq_ok_iff.mpr ⟨chunk, tail, hhead, htail, rfl⟩, ?_⟩
      rw [List.map_append, List.map_map, hcode, List.flatten_cons,
        show CodeByte.value ∘ (fun b => (⟨b, i.line⟩ : CodeByte)) = id from rfl, List.map_id]

/-! ## Layouts of contents

Where labels stand and how long instructions are follows from what the lines
hold, whatever their numbers. -/

/-- The mnemonic and operands of a content that is an instruction. -/
def LineContent.instruction? : LineContent → Option (Mnemonic × List String)
  | .label _ => none
  | .instruction m operands => some (m, operands)

/-- The label that a content defines, if it does. -/
def LineContent.label? : LineContent → Option String
  | .label name => some name
  | .instruction _ _ => none

/-- The offset of the first definition of a label. -/
def offsetIn? : List LineContent → String → Option Nat
  | [], _ => none
  | .label other :: rest, name => if other = name then some 0 else offsetIn? rest name
  | .instruction m _ :: rest, name => (offsetIn? rest name).map (m.length + ·)

section Contents

variable {lines : List SourceLine}

/-- The instructions of lines are those of their contents, without the numbers. -/
theorem map_instructionsOf (lines : List SourceLine) :
    (instructionsOf lines).map (fun i => (i.mnemonic, i.operands))
      = (lines.map (·.content)).filterMap LineContent.instruction? := by
  induction lines with
  | nil => rfl
  | cons line lines ih =>
    obtain ⟨number, content⟩ := line
    cases content with
    | label name => exact ih
    | instruction m operands =>
      rw [instructionsOf_instruction, List.map_cons, ih]
      rfl

theorem labelsOf_eq (lines : List SourceLine) :
    labelsOf lines = (lines.map (·.content)).filterMap LineContent.label? := by
  induction lines with
  | nil => rfl
  | cons line lines ih =>
    obtain ⟨number, content⟩ := line
    cases content with
    | label name =>
      rw [labelsOf_label, ih]
      rfl
    | instruction m operands => exact ih

/-- Where no label is defined twice, a label stands at its first
definition. -/
theorem standsAt_iff_offsetIn? (h : (labelsOf lines).Nodup) (name : String) (offset : Nat) :
    StandsAt lines name offset ↔ offsetIn? (lines.map (·.content)) name = some offset := by
  induction lines generalizing offset with
  | nil => exact ⟨fun hat => absurd hat not_standsAt_nil, nofun⟩
  | cons line lines ih =>
    obtain ⟨number, content⟩ := line
    cases content with
    | label other =>
      obtain ⟨hother, hnodup⟩ := List.nodup_cons.mp h
      rw [standsAt_label_iff, ih hnodup, List.map_cons, offsetIn?]
      by_cases hname : other = name
      · subst hname
        rw [if_pos rfl]
        have hnone : ∀ offset, ¬ offsetIn? (lines.map (·.content)) other = some offset :=
          fun offset hat => hother (exists_standsAt_iff.mp ⟨offset, (ih hnodup offset).mpr hat⟩)
        simp [hnone, eq_comm]
      · rw [if_neg hname]
        simp [hname]
    | instruction m operands =>
      rw [standsAt_instruction_iff, List.map_cons, offsetIn?]
      simp only [ih h, Option.map_eq_some_iff]
      exact ⟨fun ⟨rest, hoffset, hat⟩ => ⟨rest, hat, hoffset.symm⟩,
        fun ⟨rest, hat, hoffset⟩ => ⟨rest, hoffset.symm, hat⟩⟩

/-- **Lines are laid out exactly if no label is defined twice**, and the labels
are then found at their definitions. -/
theorem Layout.ofLines_isOk_iff :
    (∃ layout, Layout.ofLines lines = .ok layout) ↔ (labelsOf lines).Nodup := by
  have hlabels : (∃ table, defineLabels 0 ∅ lines = .ok table) ↔ _ := defineLabels_isOk_iff
  constructor
  · rintro ⟨layout, h⟩
    exact (hlabels.mp ⟨_, (Layout.ofLines_eq_ok_iff.mp h).1⟩).1
  · intro h
    obtain ⟨table, htable⟩ := hlabels.mpr ⟨h, fun _ _ => rfl⟩
    exact ⟨⟨table, _⟩, Layout.ofLines_eq_ok_iff.mpr ⟨htable, rfl⟩⟩

/-- **A label is found at the sizes in front of it.** -/
theorem Layout.get?_labels_eq {layout : Layout} (h : Layout.ofLines lines = .ok layout)
    (name : String) : layout.labels.get? name = offsetIn? (lines.map (·.content)) name := by
  have hnodup := Layout.ofLines_isOk_iff.mp ⟨layout, h⟩
  refine Option.ext fun offset => ?_
  rw [Layout.get?_labels h, standsAt_iff_offsetIn? hnodup]

end Contents

namespace Fragment

variable (f : Fragment)

theorem instructions_contents :
    f.contents.filterMap LineContent.instruction?
      = f.instructions.map fun i => (i.mnemonic, i.operands) := by
  induction f with
  | nil => rfl
  | cons item f ih =>
    rw [contents_cons, List.filterMap_append, ih]
    cases item <;> rfl

/-- Only label items are written as label lines. -/
theorem labels_contents : f.contents.filterMap LineContent.label? = f.labels := by
  induction f with
  | nil => rfl
  | cons item f ih =>
    rw [contents_cons, List.filterMap_append, ih]
    cases item <;> rfl

theorem offsetIn?_contents (name : String) : offsetIn? f.contents name = f.offsetOf? name := by
  induction f with
  | nil => rfl
  | cons item f ih =>
    rw [contents_cons]
    cases item with
    | instr i =>
      show (offsetIn? (contents f) name).map (i.mnemonic.length + ·) = _
      rw [ih, Instr.length_mnemonic]
      rfl
    | label other =>
      show (if other = name then some 0 else offsetIn? (contents f) name) = _
      rw [ih]
      rfl
    | comment text => exact ih
    | raw text => exact ih

/-- The labels that have an offset are those that are defined. -/
theorem isSome_offsetOf?_iff (name : String) : (f.offsetOf? name).isSome ↔ name ∈ f.labels := by
  induction f with
  | nil => exact ⟨nofun, nofun⟩
  | cons item f ih =>
    cases item with
    | instr i =>
      show ((offsetOf? f name).map (i.size + ·)).isSome ↔ name ∈ labels f
      rw [Option.isSome_map, ih]
    | label other =>
      show (if other = name then some 0 else offsetOf? f name).isSome ↔ name ∈ other :: labels f
      rw [List.mem_cons, ← ih]
      by_cases hname : other = name
      · rw [if_pos hname]
        exact ⟨fun _ => .inl hname.symm, fun _ => rfl⟩
      · rw [if_neg hname]
        exact ⟨.inr, fun h => h.resolve_left (Ne.symm hname)⟩
    | comment text => exact ih
    | raw text => exact ih

end Fragment

/-! ## The whole fragment -/

theorem Layout.extent_map_size (is : List Instr) :
    extent (is.map Instr.size) = Fragment.sizeOf is := by
  induction is with
  | nil => rfl
  | cons i rest ih => rw [List.map_cons, extent_cons, ih, Fragment.sizeOf]

/-- **A layout of a fragment**: it has the fragment's labels and lengths. -/
structure Fragment.LaidOut (f : Fragment) (layout : Layout) : Prop where
  labels : ∀ name, layout.labels.get? name = f.offsetOf? name
  lengths : layout.lengths = f.instructions.map Instr.size

/-- Lines that hold the contents of a fragment are laid out as it. -/
theorem Fragment.laidOut_of_contents {f : Fragment} {lines : List SourceLine} {layout : Layout}
    (hcontents : lines.map (·.content) = f.contents) (h : Layout.ofLines lines = .ok layout) :
    f.LaidOut layout where
  labels := fun name => by rw [Layout.get?_labels_eq h, hcontents, offsetIn?_contents]
  lengths := by
    have hpairs := map_instructionsOf lines
    rw [hcontents, instructions_contents] at hpairs
    have := congrArg (List.map fun p => p.1.length) hpairs
    rw [List.map_map, List.map_map] at this
    rw [(Layout.ofLines_eq_ok_iff.mp h).2]
    exact this.trans (List.map_congr_left fun i _ => i.length_mnemonic)

/-- Every instruction takes four bytes at least. -/
theorem Fragment.four_mul_length_le_sizeOf (is : List Instr) : 4 * is.length ≤ sizeOf is := by
  induction is with
  | nil => exact Nat.le_refl 0
  | cons i is ih =>
    have hi : 4 ≤ i.size := by
      unfold Instr.size
      split <;> decide
    rw [sizeOf, List.length_cons]
    omega

/-- A forward reference into a fragment is a word of 64 bits. -/
theorem Fragment.Carried.distance_lt {f : Fragment} (h : f.Carried) {index distance : Nat}
    {i : Instr} (hi : f.instructions[index]? = some i) (hdistance : i.forward? = some distance) :
    distance < UInt64.size := by
  have hforward := h.forward index i distance hi hdistance
  have hsize : sizeOf f.instructions < UInt32.size := h.size
  have hcount := four_mul_length_le_sizeOf f.instructions
  rw [List.length_drop] at hforward
  unfold UInt32.size at hsize
  unfold UInt64.size
  omega

/-- **An operand is read as what it means.** -/
theorem Fragment.Carried.readValue_text {f : Fragment} (h : f.Carried) {layout : Layout}
    (hlayout : f.LaidOut layout) {index : Nat} (line : Nat) {i : Instr} {src : Operand}
    (hi : f.instructions[index]? = some i) (hsrc : i.source? = some src) :
    readValue layout index line src.text = .ok (Int64.ofInt (f.value index src)) := by
  cases src with
  | imm value => rw [readValue_imm, Fragment.value, Int64.ofInt_toInt]
  | hex value => rw [readValue_hex, Fragment.value, Int64.ofInt_eq_ofNat]
  | label name =>
    have hname : i.label? = some name := by rw [Instr.label?, hsrc]
    have hmem := h.defined i (List.mem_of_getElem? hi) name hname
    obtain ⟨offset, hoffset⟩ := Option.isSome_iff_exists.mp
      ((isSome_offsetOf?_iff f name).mpr hmem)
    rw [readValue_label layout index line (by rw [hlayout.labels, hoffset]), value, hoffset,
      Option.getD_some, Int64.ofInt_eq_ofNat]
  | forward distance =>
    have hdistance : i.forward? = some distance := by rw [Instr.forward?, hsrc]
    have hforward := h.forward index i distance hi hdistance
    have hindex := (List.getElem?_eq_some_iff.mp hi).1
    rw [List.length_drop] at hforward
    rw [readValue_forward layout index line (h.distance_lt hi hdistance)]
    · rw [value, Int64.ofInt_eq_ofNat, forwardTarget, Layout.start, hlayout.lengths,
        ← List.map_take, ← List.map_drop, ← List.map_take, Layout.extent_map_size,
        Layout.extent_map_size]
    · rw [Layout.count, hlayout.lengths, List.length_map]
      omega

/-- **Text carries generated code faithfully.** Writing a fragment, with or
without its comments, and assembling the text succeeds; the code is that of
the fragment's instructions, and the labels are the fragment's. -/
theorem Fragment.assemble_render {f : Fragment} (h : f.Carried) (comments : Bool) :
    ∃ o, assemble (f.render comments) = .ok o ∧ o.code = f.code
      ∧ ∀ name, o.labels.get? name = f.offsetOf? name := by
  obtain ⟨lines, hlines, hcontents⟩ := holds_render h.readable comments 1
  have hnodup : (labelsOf lines).Nodup := by
    rw [labelsOf_eq, hcontents, labels_contents]
    exact h.nodup
  obtain ⟨layout, hlayout⟩ := Layout.ofLines_isOk_iff.mpr hnodup
  have hlaid := laidOut_of_contents hcontents hlayout
  have hpairs := map_instructionsOf lines
  rw [hcontents, instructions_contents] at hpairs
  have hencode : ∀ (k : Nat) (ins : Instruction) (chunk : List UInt8),
      (instructionsOf lines)[k]? = some ins →
      (f.instructions.mapIdx fun index i => i.bytes (f.value index))[k]? = some chunk →
      ins.encode layout (0 + k) = .ok chunk := by
    intro k ins chunk hins hchunk
    rw [List.getElem?_mapIdx, Option.map_eq_some_iff] at hchunk
    obtain ⟨i, hi, rfl⟩ := hchunk
    -- the instruction of an index in the text is the one of that index in the fragment
    have hpair := congrArg (·[k]?) hpairs
    simp only [List.getElem?_map, hins, hi, Option.map_some, Option.some.injEq,
      Prod.mk.injEq] at hpair
    obtain ⟨line, m, operands⟩ := ins
    obtain ⟨rfl, rfl⟩ := hpair
    rw [Nat.zero_add]
    exact i.encode_eq fun src hsrc => h.readValue_text hlaid line hi hsrc
  have hlength := (congrArg List.length hpairs).symm
  rw [List.length_map, List.length_map] at hlength
  obtain ⟨bytes, hbytes, hcode⟩ := encodeFrom_of_chunks
    ((List.length_mapIdx ..).trans hlength) hencode
  exact ⟨⟨bytes, layout.labels⟩,
    assemble_eq_ok_iff.mpr ⟨lines, layout, bytes, hlines, hlayout, hbytes, rfl⟩, hcode,
    hlaid.labels⟩

/-- A loop with every notation of an operand: a negative number, an address, a
label and a forward reference, a bare immediate, and a shift beyond a half
word. -/
def Fragment.countdown : Fragment :=
  [.comment "count, down", .ldr ⟨4⟩ (.imm (-1)), .label "top",
    .instr (.aluImm .sub ⟨4⟩ 0xbeef), .instr (.shift .left ⟨4⟩ 65537),
    .ldr ⟨11⟩ (.hex 0xa0), .ldr ⟨5⟩ (.label "top"), .ldr ⟨0⟩ (.forward 2), .jpr ⟨5⟩, .label "end"]

theorem Fragment.assemble_render_countdown :
    countdown.Carried
      ∧ (∀ comments, ∃ o, assemble (countdown.render comments) = .ok o
        ∧ o.code = countdown.code ∧ ∀ name, o.labels.get? name = countdown.offsetOf? name)
      ∧ countdown.code =
        [16, 4, 255, 255, 17, 4, 255, 255, 49, 4, 190, 239, 8, 4, 0, 1,
          16, 11, 0, 0, 17, 11, 0, 160, 16, 5, 0, 0, 17, 5, 0, 8,
          16, 0, 0, 0, 17, 0, 0, 44, 24, 5, 0, 0]
      ∧ countdown.offsetOf? "top" = some 8 := by
  have h : countdown.Carried := by decide
  exact ⟨h, fun comments => assemble_render h comments, by decide, by decide⟩

end RegMachine
