import RegMachine.Build
import RegMachine.Proofs.Spliced
import RegMachine.Proofs.Streams

/-!
# Calls return behind their jump

A call loads the address to return to as a forward reference, which counts
instructions, and the assembler turns the count into bytes. The two fit only if
the sequence of the call is assembled in one piece, with two loads of two words
each in front of the jump.

`call_returns` says that they fit, wherever in a program a call stands. The
sequence is found again in the text of a build as three lines that follow each
other (`Template.contents_of_readAll`), and three such lines are encoded as the
call means them (`Call.returnsAt_of_contents`). What stands before them may be
anything that is assembled, embedded lines included: it only decides at which
offset the sequence lies.
-/

namespace RegMachine

/-! ## The code of a call -/

/-- The code that loads a word into a register. -/
def loadCode (rd : Reg) (word : UInt32) : List UInt8 :=
  [Opcode.ldru.byte, rd.index, (word >>> 24).toUInt8, (word >>> 16).toUInt8,
    Opcode.ldrl.byte, rd.index, (word >>> 8).toUInt8, word.toUInt8]

/-- The code that jumps to the address in a register. -/
def jumpCode (r : Reg) : List UInt8 := [Opcode.jpr.byte, r.index, 0, 0]

/-- **The code of a call**, given the address to return to and the address of its
label. -/
def Call.machineCode (ret target : UInt32) : Call → List UInt8
  | routine _ => loadCode .routine target ++ loadCode .ret ret ++ jumpCode .routine
  | function _ => loadCode .ret ret ++ loadCode .call target ++ jumpCode .call

theorem Call.length_machineCode (c : Call) (ret target : UInt32) :
    (c.machineCode ret target).length = 20 := by
  cases c <;> rfl

/-- **A call returns behind its jump**: its code lies at an offset, the address to
return to is where this code ends, and the address that it jumps to is that of
its label. -/
def Call.ReturnsAt (c : Call) (o : ObjectCode) (offset : Nat) : Prop :=
  ∃ (front back : List UInt8) (ret target : UInt32),
    o.code = front ++ c.machineCode ret target ++ back
      ∧ front.length = offset
      ∧ ret.toNat = (front ++ c.machineCode ret target).length
      ∧ o.labels.get? c.label = some target.toNat

/-! ## Encoding in pieces -/

section Encode

variable {layout : Layout} {index line : Nat} {rd : Reg} {code : List UInt8}

theorem encodeFrom_append_eq_ok_iff {is js : List Instruction} {bytes : List CodeByte} :
    encodeFrom layout index (is ++ js) = .ok bytes ↔
      ∃ head tail, encodeFrom layout index is = .ok head
        ∧ encodeFrom layout (index + is.length) js = .ok tail ∧ head ++ tail = bytes := by
  induction is generalizing index bytes with
  | nil =>
    constructor
    · exact fun h => ⟨[], bytes, rfl, h, rfl⟩
    · rintro ⟨head, tail, hhead, htail, rfl⟩
      cases hhead
      exact htail
  | cons i is ih =>
    rw [List.cons_append, encodeFrom_cons_eq_ok_iff]
    simp only [ih, encodeFrom_cons_eq_ok_iff]
    rw [List.length_cons, show index + (is.length + 1) = index + 1 + is.length by omega]
    constructor
    · rintro ⟨first, _, hfirst, ⟨head, tail, hhead, htail, rfl⟩, rfl⟩
      exact ⟨_, tail, ⟨first, head, hfirst, hhead, rfl⟩, htail, List.append_assoc _ _ _⟩
    · rintro ⟨_, tail, ⟨first, head, hfirst, hhead, rfl⟩, htail, rfl⟩
      exact ⟨first, _, hfirst, ⟨head, tail, hhead, htail, rfl⟩, (List.append_assoc _ _ _).symm⟩

theorem encode_ldr (rd : Reg) {src : Operand} {value : Int64}
    (h : readValue layout index line src.text = .ok value) :
    Instruction.encode layout index ⟨line, .ldr, [rd.text, src.text]⟩
      = .ok (loadCode rd (UInt32.ofInt value.toInt)) := by
  have hencode : Instruction.encode layout index
      ⟨line, (Instr.ldr rd src).mnemonic, (Instr.ldr rd src).operands⟩
      = .ok ((Instr.ldr rd src).bytes fun _ => value.toInt) := by
    refine Instr.encode_eq _ ?_
    rintro _ ⟨⟩
    rw [Int64.ofInt_toInt]
    exact h
  exact hencode

/-- **The load of a label** is encoded only if the label is defined. -/
theorem exists_of_encode_label {name : String}
    (h : Instruction.encode layout index ⟨line, .ldr, [rd.text, (Operand.label name).text]⟩
      = .ok code) :
    ∃ target, layout.labels.get? name = some target
      ∧ code = loadCode rd (UInt32.ofInt (target : Int)) := by
  have htext : (Operand.label name).text.toList = '.' :: name.toList := by
    rw [Operand.text, String.toList_append]
    rfl
  have hencode : (do
      let ra ← readRegister line rd.text
      let value ← readValue layout index line (Operand.label name).text
      return Opcode.ldru.byte :: ra :: halfWord (highHalf value)
        ++ Opcode.ldrl.byte :: ra :: halfWord (lowHalf value)) = .ok code := h
  obtain ⟨_, -, hencode⟩ := bind_eq_ok_iff.mp hencode
  obtain ⟨value, hvalue, -⟩ := bind_eq_ok_iff.mp hencode
  unfold readValue at hvalue
  rw [htext] at hvalue
  obtain ⟨target, htarget, -⟩ := map_eq_ok_iff.mp hvalue
  rw [String.ofList_toList, LabelTable.resolve] at htarget
  split at htarget
  next offset hname =>
    cases htarget
    have hload := encode_ldr rd (readValue_label layout index line hname)
    rw [word_ofNat] at hload
    exact ⟨target, hname, Except.ok.inj (h.symm.trans hload)⟩
  next => cases htarget

/-- **The load of a forward reference** means the address behind the instructions
that it skips, in a layout where these are known. -/
theorem encode_forward (line : Nat) (rd : Reg) {distance : Nat} {before skipped after : List Nat}
    (hdistance : distance < UInt64.size) (hskipped : skipped.length = max distance 1 - 1)
    (hlengths : layout.lengths = before ++ 8 :: (skipped ++ after)) :
    Instruction.encode layout before.length
        ⟨line, .ldr, [rd.text, (Operand.forward distance).text]⟩
      = .ok (loadCode rd (UInt32.ofInt
        ((Layout.extent before + 8 + Layout.extent skipped : Nat) : Int))) := by
  have hcount : before.length + 1 + (max distance 1 - 1) ≤ layout.count := by
    rw [Layout.count, hlengths]
    simp only [List.length_append, List.length_cons]
    omega
  have hstart : layout.start before.length = Layout.extent before := by
    rw [Layout.start, hlengths, List.take_left]
  have hrest : (layout.lengths.drop (before.length + 1)).take (max distance 1 - 1) = skipped := by
    rw [hlengths, ← hskipped, ← List.drop_drop, List.drop_left]
    exact List.take_left
  have hvalue := readValue_forward layout before.length line hdistance hcount
  rw [hstart, hrest] at hvalue
  rw [encode_ldr rd hvalue, word_ofNat]

theorem encode_jpr (r : Reg) :
    Instruction.encode layout index ⟨line, .basic .jpr, [r.text]⟩ = .ok (jumpCode r) := by
  have hencode : Instruction.encode layout index
      ⟨line, (Instr.jpr r).mnemonic, (Instr.jpr r).operands⟩
      = .ok ((Instr.jpr r).bytes fun _ => 0) := Instr.encode_eq _ nofun
  exact hencode

end Encode

/-! ## Three lines of a call -/

theorem encodeFrom_three_eq_ok {layout : Layout} {index : Nat} {is : List Instruction}
    {p q r : Mnemonic × List String} {bytes : List CodeByte}
    (hpairs : is.map (fun i => (i.mnemonic, i.operands)) = [p, q, r])
    (h : encodeFrom layout index is = .ok bytes) :
    ∃ (k l m : Nat) (a b c : List UInt8), Instruction.encode layout index ⟨k, p.1, p.2⟩ = .ok a
      ∧ Instruction.encode layout (index + 1) ⟨l, q.1, q.2⟩ = .ok b
      ∧ Instruction.encode layout (index + 1 + 1) ⟨m, r.1, r.2⟩ = .ok c
      ∧ bytes.map (·.value) = a ++ b ++ c := by
  obtain ⟨⟨k, _, _⟩, _, rfl, rfl, hmore⟩ := List.map_eq_cons_iff.mp hpairs
  obtain ⟨⟨l, _, _⟩, _, rfl, rfl, hlast⟩ := List.map_eq_cons_iff.mp hmore
  obtain ⟨⟨m, _, _⟩, _, rfl, rfl, hnil⟩ := List.map_eq_cons_iff.mp hlast
  obtain rfl := List.map_eq_nil_iff.mp hnil
  obtain ⟨a, _, ha, htail, rfl⟩ := encodeFrom_cons_eq_ok_iff.mp h
  obtain ⟨b, _, hb, hend, rfl⟩ := encodeFrom_cons_eq_ok_iff.mp htail
  obtain ⟨c, _, hc, hdone, rfl⟩ := encodeFrom_cons_eq_ok_iff.mp hend
  cases hdone
  refine ⟨k, l, m, a, b, c, ha, hb, hc, ?_⟩
  simp [Function.comp_def]

/-- **The lines of a call are encoded as its code**: the address to return to lies
behind them. -/
theorem Call.exists_of_encodeFrom {c : Call} {layout : Layout} {before after : List Nat}
    (hlengths : layout.lengths = before ++ ([8, 8, 4] ++ after)) {is : List Instruction}
    (hpairs : is.map (fun i => (i.mnemonic, i.operands))
      = c.code.instructions.map fun i => (i.mnemonic, i.operands))
    {bytes : List CodeByte} (h : encodeFrom layout before.length is = .ok bytes) :
    ∃ target, layout.labels.get? c.label = some target
      ∧ bytes.map (·.value) = c.machineCode
        (UInt32.ofInt ((Layout.extent before + 20 : Nat) : Int))
        (UInt32.ofInt (target : Int)) := by
  cases c with
  | routine r =>
    obtain ⟨k, l, m, code₁, code₂, code₃, h₁, h₂, h₃, hcode⟩ := encodeFrom_three_eq_ok hpairs h
    obtain ⟨target, htarget, rfl⟩ := exists_of_encode_label h₁
    -- the reference stands behind the first load, and skips the jump
    have hsplit : layout.lengths = (before ++ [8]) ++ 8 :: ([4] ++ after) := by
      rw [hlengths, List.append_assoc]
      rfl
    have hforward := encode_forward l .ret (show 2 < UInt64.size by decide) rfl hsplit
    rw [List.length_append, List.length_singleton] at hforward
    cases h₂.symm.trans hforward
    cases h₃.symm.trans (encode_jpr .routine)
    refine ⟨target, htarget, hcode.trans ?_⟩
    rw [Layout.extent_append]
    rfl
  | function label =>
    obtain ⟨k, l, m, code₁, code₂, code₃, h₁, h₂, h₃, hcode⟩ := encodeFrom_three_eq_ok hpairs h
    obtain ⟨target, htarget, rfl⟩ := exists_of_encode_label h₂
    -- the reference comes first, and skips the other load and the jump
    have hforward := encode_forward k .ret (show 3 < UInt64.size by decide) rfl hlengths
    cases h₁.symm.trans hforward
    cases h₃.symm.trans (encode_jpr .call)
    exact ⟨target, htarget, hcode⟩

/-! ## A call among other lines -/

/-- The bytes that a line is assembled to, by what it holds. -/
def LineContent.size : LineContent → Nat
  | label _ => 0
  | instruction m _ => m.length

/-- **The bytes that lines are assembled to**, by what they hold. -/
def extentIn (contents : List LineContent) : Nat := Layout.extent (contents.map LineContent.size)

theorem extentIn_eq (contents : List LineContent) :
    extentIn contents
      = Layout.extent ((contents.filterMap LineContent.instruction?).map (·.1.length)) := by
  induction contents with
  | nil => rfl
  | cons content rest ih =>
    cases content with
    | label name => exact (Nat.zero_add _).trans ih
    | instruction m operands => exact congrArg (m.length + ·) ih

theorem le_of_standsAt {lines : List SourceLine} {name : String} {offset : Nat}
    (h : StandsAt lines name offset) : offset ≤ extentOf lines := by
  obtain ⟨before, number, after, rfl, rfl⟩ := h
  unfold extentOf instructionsOf
  rw [List.filterMap_append, List.map_append, Layout.extent_append]
  exact Nat.le_add_right _ _

/-- **Three lines of a call return behind their jump**, wherever they stand in a
text that is assembled. -/
theorem Call.returnsAt_of_contents {c : Call} {lines : List SourceLine} {layout : Layout}
    {bytes : List CodeByte} (hlayout : Layout.ofLines lines = .ok layout)
    (hbytes : encodeFrom layout 0 (instructionsOf lines) = .ok bytes)
    (hsize : bytes.length < UInt32.size) {front back : List LineContent}
    (hcontents : lines.map (·.content) = front ++ (c.code.contents ++ back)) :
    c.ReturnsAt ⟨bytes, layout.labels⟩ (extentIn front) := by
  have hpairs := map_instructionsOf lines
  rw [hcontents, List.filterMap_append, List.filterMap_append,
    Fragment.instructions_contents] at hpairs
  obtain ⟨before, rest, hinstructions, hbefore, hrest⟩ := List.map_eq_append_iff.mp hpairs
  obtain ⟨call, after, rfl, hcall, -⟩ := List.map_eq_append_iff.mp hrest
  have hextent : Layout.extent (before.map (·.mnemonic.length)) = extentIn front := by
    rw [extentIn_eq, ← hbefore, List.map_map]
    rfl
  have hlengths : layout.lengths
      = before.map (·.mnemonic.length) ++ ([8, 8, 4] ++ after.map (·.mnemonic.length)) := by
    have hthree : call.map (·.mnemonic.length) = [8, 8, 4] := by
      have hmap := congrArg (List.map fun p => p.1.length) hcall
      rw [List.map_map, List.map_map] at hmap
      exact hmap.trans (by cases c <;> rfl)
    rw [(Layout.ofLines_eq_ok_iff.mp hlayout).2, hinstructions, List.map_append, List.map_append,
      hthree]
  -- no label stands behind the end of the code
  have hoffset : ∀ name offset, layout.labels.get? name = some offset → offset < UInt32.size := by
    intro name offset hname
    have hle := le_of_standsAt ((Layout.get?_labels hlayout name offset).mp hname)
    have hlength : bytes.length = extentOf lines := length_of_encodeFrom hbytes
    omega
  rw [hinstructions] at hbytes
  obtain ⟨head, _, hhead, htail, rfl⟩ := encodeFrom_append_eq_ok_iff.mp hbytes
  obtain ⟨mid, last, hmid, -, rfl⟩ := encodeFrom_append_eq_ok_iff.mp htail
  rw [Nat.zero_add, ← List.length_map (fun i : Instruction => i.mnemonic.length)] at hmid
  obtain ⟨target, htarget, hcode⟩ := exists_of_encodeFrom hlengths hcall hmid
  have hheadLength := length_of_encodeFrom hhead
  rw [hextent] at hheadLength hcode
  have hmidLength : mid.length = 20 := by
    rw [← List.length_map (·.value), hcode, length_machineCode]
  have hret : extentIn front + 20 < UInt32.size := by
    rw [List.length_append, List.length_append] at hsize
    omega
  refine ⟨head.map (·.value), last.map (·.value),
    UInt32.ofInt ((extentIn front + 20 : Nat) : Int), UInt32.ofInt (target : Int), ?_, ?_, ?_, ?_⟩
  · rw [ObjectCode.code, List.map_append, List.map_append, hcode, List.append_assoc]
  · rw [List.length_map, hheadLength]
  · rw [ofInt_natCast, UInt32.toNat_ofNat_of_lt' hret, List.length_append, length_machineCode,
      List.length_map, hheadLength]
  · rw [ofInt_natCast, UInt32.toNat_ofNat_of_lt' (hoffset _ target htarget)]
    exact htarget

/-! ## Names -/

/-- **Solid text**: no blank, no comma, no semicolon and no opening brace is in
it. -/
def Text.IsSolid (s : String) : Prop :=
  ∀ c ∈ s.toList, isBlank c = false ∧ c ≠ ',' ∧ c ≠ ';' ∧ c ≠ '\x7b'

namespace Text.IsSolid

variable {s t : String}

instance (s : String) : Decidable (IsSolid s) :=
  List.decidableBAll (fun c => isBlank c = false ∧ c ≠ ',' ∧ c ≠ ';' ∧ c ≠ '\x7b') s.toList

protected theorem append (hs : IsSolid s) (ht : IsSolid t) : IsSolid (s ++ t) := by
  intro c hc
  rw [String.toList_append, List.mem_append] at hc
  exact hc.elim (hs c) (ht c)

protected theorem intercalate {sep : String} (hsep : IsSolid sep) {texts : List String}
    (h : ∀ text ∈ texts, IsSolid text) : IsSolid (sep.intercalate texts) := by
  intro c hc
  rcases Text.mem_intercalate hc with hc | ⟨text, htext, hc⟩
  · exact hsep c hc
  · exact h text htext c hc

/-- A word without braces is solid. -/
theorem of_isWord (hword : IsWord s) (hplain : IsPlain s) : IsSolid s := by
  intro c hc
  refine ⟨hword.isBlank hc, ?_, hword.ne_semicolon c hc, (hplain c hc).2⟩
  rintro rfl
  exact absurd (hword.isSeparator _ hc) (by decide)

theorem isPlain (h : IsSolid s) : IsPlain s := by
  intro c hc
  refine ⟨?_, (h c hc).2.2.2⟩
  rintro rfl
  exact absurd (h _ hc).1 (by decide)

/-- A solid text behind other characters of a word makes a word. -/
theorem isWord_append (h : IsSolid s) (ht : IsWord t) : IsWord (t ++ s) where
  ne_nil := by
    rw [String.toList_append]
    exact fun hnil => ht.ne_nil (List.append_eq_nil_iff.mp hnil).1
  isSeparator := by
    rw [String.toList_append, List.forall_mem_append]
    refine ⟨ht.isSeparator, fun c hc => ?_⟩
    unfold SourceLine.isSeparator
    rw [(h c hc).1, decide_eq_false (h c hc).2.1]
    rfl
  ne_semicolon := by
    rw [String.toList_append, List.forall_mem_append]
    exact ⟨ht.ne_semicolon, fun c hc => (h c hc).2.2.1⟩

end Text.IsSolid

/-- **The statements that declare solid names** and include plain paths, as far as a
statement goes itself. -/
def Stmt.SolidlyNamed : Stmt → Prop
  | declare _ _ name _ | declareList _ name _ _ _ => Text.IsSolid name
  | unroll _ var _ _ => Text.IsSolid var
  | function _ name formals _ => Text.IsSolid name ∧ ∀ p ∈ formals, Text.IsSolid p.name
  | space _ name _ => Text.IsSolid name
  | unit _ path _ => Text.IsPlain path
  | _ => True

/-- The vocabulary of programs with solid names and given labels. -/
def Vocabulary.solid (labels : List String) : Vocabulary where
  target l := l ∈ labels
  label := Text.IsSolid
  name := Text.IsSolid
  plain := True
  embeds := True
  isPlain_name _ _ h := h.isPlain

theorem Vocabulary.complete_solid (labels : List String) : (solid labels).Complete where
  block b index l hl := by
    have hstems : ∀ stem ∈ Block.stems, Text.IsSolid stem := by decide
    obtain ⟨stem, hstem, rfl⟩ := Block.exists_stem_of_mem_labels hl
    exact .append (hstems stem hstem) (.of_isWord (Text.isWord_decimal index) (.decimal index))
  function path name hpath hname := by
    refine .intercalate (by decide) (List.forall_mem_append.mpr ⟨hpath, ?_⟩)
    exact List.forall_mem_singleton.mpr hname

theorem Stmt.SolidlyNamed.fits {stmt : Stmt} (h : stmt.SolidlyNamed) (labels : List String) :
    stmt.Fits (.solid labels) := by
  cases stmt with
  | unit line path body => exact fun _ => h
  | _ => exact h

/-- Where labels are solid, they are plain. -/
theorem Vocabulary.plain_solid {labels : List String} (h : ∀ l ∈ labels, Text.IsSolid l) :
    (solid labels).Plain where
  target l hl := (h l hl).isPlain
  label _ hl := hl.isPlain
  plain := trivial

/-! ## Calls in generated code -/

/-- **Every item is written on a line of its own**, also what is embedded. -/
theorem Vocabulary.Plain.isLine {v : Vocabulary} (hv : v.Plain) {item : Item} (h : item.Uses v) :
    Text.IsLine item.text.toList := by
  by_cases hraw : ∃ text, item = .raw text
  · obtain ⟨text, rfl⟩ := hraw
    exact h.2
  · have hraw : ∀ text, item ≠ .raw text := fun text htext => hraw ⟨text, htext⟩
    have hplain := hv.isPlain_text h hraw
    exact ⟨Item.text_ne_nil hraw, fun hmem => (hplain _ hmem).1 rfl,
      Text.unclosed_of_not_mem fun hmem => (hplain _ hmem).2 rfl⟩

/-- An instruction that names solid labels is read back, also if such a label is
empty. -/
theorem Instr.lineHolds {i : Instr} (h : ∀ name, i.label? = some name → Text.IsSolid name) :
    LineHolds (Item.instr i).text.toList (some (.instruction i.mnemonic i.operands)) := by
  refine lineHolds_instruction i.mnemonic i.operands_ne_nil ?_
  refine forall_mem_operands Reg.isWord_text Text.isWord_hexDigits
    (fun _ => Operand.isWord_text fun _ hlabel => Operand.noConfusion hlabel) fun src hsrc => ?_
  cases src with
  | label name =>
    have hname := h name (by rw [Instr.label?, hsrc])
    exact hname.isWord_append (show Text.IsWord "." by decide)
  | imm | hex | forward => exact Operand.isWord_text fun _ hlabel => Operand.noConfusion hlabel

/-- The sequence of a call is instructions, which name no label but its own. -/
theorem Call.exists_of_mem_code {c : Call} {item : Item} (h : item ∈ c.code) :
    ∃ i, item = .instr i ∧ ∀ name, i.label? = some name → name = c.label := by
  have hnone : ∀ i : Instr, i.label? = none → ∀ name, i.label? = some name → name = c.label :=
    fun i hi name hname => absurd (hname.symm.trans hi) (Option.some_ne_none name)
  have hlabel : ∀ (rd : Reg) (name : String), (Instr.ldr rd (.label c.label)).label? = some name →
      name = c.label := fun rd name hname => (Option.some.inj hname).symm
  cases c with
  | routine r =>
    simp only [code, Fragment.callRoutine, List.mem_cons, List.not_mem_nil, or_false] at h
    rcases h with rfl | rfl | rfl
    · exact ⟨_, rfl, hlabel _⟩
    · exact ⟨_, rfl, hnone _ rfl⟩
    · exact ⟨_, rfl, hnone _ rfl⟩
  | function label =>
    simp only [code, List.mem_cons, List.not_mem_nil, or_false] at h
    rcases h with rfl | rfl | rfl
    · exact ⟨_, rfl, hnone _ rfl⟩
    · exact ⟨_, rfl, hlabel _⟩
    · exact ⟨_, rfl, hnone _ rfl⟩

theorem Fragment.held_eq_contents {f : Fragment}
    (h : ∀ item ∈ f, LineHolds item.text.toList item.content?) : f.held = f.contents := by
  induction f with
  | nil => rfl
  | cons item f ih =>
    obtain ⟨hitem, hf⟩ := List.forall_mem_cons.mp h
    rw [contents_cons, ← ih hf]
    unfold held
    rw [List.filterMap_cons, hitem.contentOf?_eq]
    cases item.content? <;> rfl

/-- The lines of a call hold its instructions. -/
theorem Call.held_code {c : Call} (h : Text.IsSolid c.label) : c.code.held = c.code.contents := by
  refine Fragment.held_eq_contents fun item hitem => ?_
  obtain ⟨i, rfl, hi⟩ := exists_of_mem_code hitem
  exact Instr.lineHolds fun name hname => hi name hname ▸ h

/-- The label of a call that stands in generated code is solid. -/
theorem Call.isSolid_label {c : Call} {labels : List String}
    (hlabels : ∀ l ∈ labels, Text.IsSolid l)
    {f : Fragment} (hf : f.Uses (.solid labels)) (h : c.code <:+: f) : Text.IsSolid c.label := by
  cases c with
  | routine r => exact .of_isWord r.isWord_label r.isPlain_label
  | function label =>
    have hmem : Item.ldr .call (.label label) ∈ f :=
      h.subset (List.mem_cons_of_mem _ List.mem_cons_self)
    rcases hf.items _ hmem label rfl with htarget | ⟨r, hr⟩
    · exact hlabels label htarget
    · exact hr ▸ .of_isWord r.isWord_label r.isPlain_label

/-! ## Builds -/

section Build

variable {config : Config} {stmts : List Stmt} {s : Scope}

theorem exists_of_build {template : String} {b : Build}
    (h : build config template stmts = .ok b) :
    ∃ s, compileAll stmts (Scope.root config) = .ok () s ∧ b.program = .ofScope s
      ∧ assemble (Template.render template b.program.bodyText b.program.definitionsText)
        = .ok b.object := by
  unfold build at h
  split at h
  next => exact nomatch h
  next program hprogram =>
    dsimp only at h
    split at h
    next => exact nomatch h
    next object hobject =>
      cases h
      unfold Program.compile at hprogram
      split at hprogram
      next s hs =>
        cases hprogram
        exact ⟨s, hs, rfl, hobject⟩
      next => exact nomatch hprogram

/-- What lines are assembled to. -/
def assembleLines (raws : List (List Char)) : Except AsmError ObjectCode := do
  let lines ← SourceLine.readFrom 1 (Text.lines (Text.ofLines raws))
  let layout ← Layout.ofLines lines
  let bytes ← encodeFrom layout 0 (instructionsOf lines)
  return ⟨bytes, layout.labels⟩

/-- The streams of a program with solid names are written with solid labels. -/
theorem uses_solid (hnames : ∀ part ∈ partsAll stmts, part.SolidlyNamed)
    (h : compileAll stmts (Scope.root config) = .ok () s) :
    ∃ labels, (∀ l ∈ labels, Text.IsSolid l) ∧ s.body.Uses (.solid labels)
      ∧ s.definitions.Uses (.solid labels) := by
  have hwritten := Scope.Written.of_compileAll (Vocabulary.complete_solid _)
    (fun part hpart => (hnames part hpart).fits _) h fun l hl => hl
  refine ⟨_, fun l hl => ?_, hwritten.body, hwritten.definitions⟩
  obtain ⟨item, hitem, hlabel⟩ := List.mem_filterMap.mp hl
  have huses := (hwritten.body.append hwritten.definitions).items item hitem
  cases item with
  | label name =>
    cases hlabel
    exact huses
  | instr | comment | raw => exact nomatch hlabel

/-- **Every generated call returns to the right place.** Where a program with solid
names is built, whatever lines it embeds, forward references occur in calls
only; and wherever a call stands in the body or among the definitions, it lies
behind the code of the lines before it, loads the offset that is just behind its
own jump, and jumps to the offset of its label. -/
theorem call_returns {b : Build} (hnames : ∀ part ∈ partsAll stmts, part.SolidlyNamed)
    (h : build config Template.base stmts = .ok b) (hsize : b.object.size < UInt32.size) :
    (b.program.body.Sequenced ∧ b.program.definitions.Sequenced)
      ∧ (∀ before c after, b.program.body = before ++ (Call.code c ++ after) →
        c.ReturnsAt b.object (extentIn (Fragment.held before)))
      ∧ ∀ before c after, b.program.definitions = before ++ (Call.code c ++ after) →
        c.ReturnsAt b.object
          (extentIn (b.program.body.held ++ (Runtime.contents ++ Fragment.held before))) := by
  obtain ⟨s, hs, hprogram, hobject⟩ := exists_of_build h
  obtain ⟨labels, hlabels, hbody, hdefinitions⟩ := uses_solid hnames hs
  rw [hprogram] at hobject ⊢
  obtain ⟨lines, layout, bytes, hlines, hlayout, hbytes, hbuilt⟩ := assemble_eq_ok_iff.mp hobject
  rw [hbuilt] at hsize ⊢
  have hplain := Vocabulary.plain_solid hlabels
  have hcontents := Template.contents_of_readAll
    (fun item hitem => hplain.isLine (hbody.items item hitem))
    (fun item hitem => hplain.isLine (hdefinitions.items item hitem)) hlines
  have hreturns : ∀ (c : Call) (front back : List LineContent), Text.IsSolid c.label →
      lines.map (·.content) = .label "start" :: (front ++ (c.code.held ++ back)) →
      c.ReturnsAt ⟨bytes, layout.labels⟩ (extentIn front) := by
    intro c front back hsolid hsplit
    rw [c.held_code hsolid, ← List.cons_append] at hsplit
    have hreturn := Call.returnsAt_of_contents hlayout hbytes hsize hsplit
    -- the label of the entry takes no bytes
    exact (Nat.zero_add (extentIn front)) ▸ hreturn
  refine ⟨⟨hbody.sequenced, hdefinitions.sequenced⟩, fun before c after hsplit => ?_,
    fun before c after hsplit => ?_⟩
  · replace hsplit : s.body = before ++ (c.code ++ after) := hsplit
    have hinfix : c.code <:+: s.body := ⟨before, after, by rw [hsplit, List.append_assoc]⟩
    refine hreturns c _ (Fragment.held after ++ (Runtime.contents ++ s.definitions.held))
      (Call.isSolid_label hlabels hbody hinfix) (hcontents.trans ?_)
    show LineContent.label "start" :: (s.body.held ++ (Runtime.contents ++ s.definitions.held))
      = _
    rw [hsplit, Fragment.held_append, Fragment.held_append, List.append_assoc, List.append_assoc]
  · replace hsplit : s.definitions = before ++ (c.code ++ after) := hsplit
    have hinfix : c.code <:+: s.definitions := ⟨before, after, by rw [hsplit, List.append_assoc]⟩
    refine hreturns c _ (Fragment.held after) (Call.isSolid_label hlabels hdefinitions hinfix)
      (hcontents.trans ?_)
    show LineContent.label "start" :: (s.body.held ++ (Runtime.contents ++ s.definitions.held))
      = LineContent.label "start" :: (s.body.held ++ (Runtime.contents ++ Fragment.held before)
        ++ (c.code.held ++ Fragment.held after))
    rw [hsplit, Fragment.held_append, Fragment.held_append, List.append_assoc s.body.held,
      List.append_assoc Runtime.contents]

/-- A build succeeds if its lines are assembled. -/
theorem exists_build_of_lines (hnames : ∀ part ∈ partsAll stmts, part.SolidlyNamed)
    (h : compileAll stmts (Scope.root config) = .ok () s) {o : ObjectCode}
    (hlines : assembleLines (Runtime.lines s.body s.definitions s.config.comments) = .ok o) :
    ∃ b, build config Template.base stmts = .ok b ∧ b.program = .ofScope s ∧ b.object = o := by
  obtain ⟨labels, hlabels, hbody, hdefinitions⟩ := uses_solid hnames h
  have hplain := Vocabulary.plain_solid hlabels
  have htext : (Template.render Template.base (Program.ofScope s).bodyText
      (Program.ofScope s).definitionsText).toList
      = Text.ofLines (Runtime.lines s.body s.definitions s.config.comments) :=
    Template.toList_render_lines (fun item hitem => hplain.isLine (hbody.items item hitem))
      fun item hitem => hplain.isLine (hdefinitions.items item hitem)
  have hassemble : assemble (Template.render Template.base (Program.ofScope s).bodyText
      (Program.ofScope s).definitionsText) = .ok o := by
    unfold assemble SourceLine.readAll
    rw [htext]
    exact hlines
  refine ⟨⟨.ofScope s, Template.render Template.base (Program.ofScope s).bodyText
    (Program.ofScope s).definitionsText, o⟩, ?_, rfl, rfl⟩
  unfold build Program.compile
  rw [h]
  dsimp only
  rw [hassemble]

end Build

/-- A program that calls a function behind embedded lines, on one of which the
second placeholder is left open. -/
def embeddedCall : List Stmt :=
  [.function 1 "f" [] [], .embed 2 "mov r1, r2 ; \x7bfunc_code\n\nldr r3, #5\n",
    .call 3 none "f" []]

theorem call_returns_embeddedCall :
    ∃ b, build {} Template.base embeddedCall = .ok b ∧ b.object.size < UInt32.size
      ∧ (Call.function "f").ReturnsAt b.object 12
      ∧ (Call.routine (.store .word)).ReturnsAt b.object 104 := by
  have hnames : ∀ part ∈ partsAll embeddedCall, part.SolidlyNamed := by
    simp [embeddedCall, partsAll, Stmt.parts, Stmt.SolidlyNamed]
    decide
  have hrun : CompileM.succeeds (compileAll embeddedCall) (Scope.root {}) = true := by
    decide +kernel
  -- from here on the scope is just one of which these facts hold
  obtain ⟨s, hs, hlines, hbody, hoffset, hdefinitions, hoffset'⟩ :
      ∃ s, compileAll embeddedCall (Scope.root {}) = .ok () s
        ∧ (assembleLines (Runtime.lines s.body s.definitions s.config.comments)).toOption.any
          (·.size < UInt32.size) = true
        ∧ s.body = s.body.take 3 ++ (Call.code (.function "f") ++ [])
        ∧ extentIn (Fragment.held (s.body.take 3)) = 12
        ∧ s.definitions = s.definitions.take 4
          ++ (Call.code (.routine (.store .word)) ++ s.definitions.drop 7)
        ∧ extentIn (s.body.held ++ (Runtime.contents ++ Fragment.held (s.definitions.take 4)))
          = 104 := by
    obtain ⟨_, hs⟩ := CompileM.exists_of_succeeds hrun
    exact ⟨_, hs, by decide +kernel⟩
  cases ho : assembleLines (Runtime.lines s.body s.definitions s.config.comments) with
  | error e =>
    rw [ho] at hlines
    cases hlines
  | ok o =>
    rw [ho] at hlines
    obtain ⟨b, hb, hprogram, rfl⟩ := exists_build_of_lines hnames hs ho
    have hsize : b.object.size < UInt32.size := of_decide_eq_true hlines
    obtain ⟨-, hcalls, hcalls'⟩ := call_returns hnames hb hsize
    rw [hprogram] at hcalls hcalls'
    refine ⟨b, hb, hsize, ?_, ?_⟩
    · rw [← hoffset]
      exact hcalls _ _ _ hbody
    · rw [← hoffset']
      exact hcalls' _ _ _ hdefinitions

end RegMachine
