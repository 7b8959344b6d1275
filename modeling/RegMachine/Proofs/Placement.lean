import RegMachine.Proofs.Acceptance
import RegMachine.Proofs.Alignment
import RegMachine.Proofs.Comments
import RegMachine.Proofs.Relocation

/-!
# Code layout does not depend on where data lives

Where cells, the data region and the output device are placed is a setting.
`Program.moved_of_compile` is the statement that it decides addresses and nothing
else: a program that is compiled with the cells in one place is compiled with them
in another, as long as there is room, to the same labels and the same instructions
on the same registers, and with every variable moved by the distance of the two
places. And it is built in the one place if it is built in the other, with the
same number of bytes, the same opcodes and the same label table.

The first half is that programs relocate (`relocates_compileAll`). For the second,
the two texts are aligned, whatever the template, so their lines are the same but
for words that are loaded. A word is two halves whatever it is, so the layout is the
same, and reading a word never fails. A load that a template has put behind another
mnemonic is refused for either word.
-/

namespace RegMachine

/-! ## Layout -/

section Layout

variable {ls ks : List SourceLine}

theorem defineLabels_of_similar (h : List.Forall₂ SourceLine.Similar ls ks) (offset : Nat)
    (labels : LabelTable) : defineLabels offset labels ls = defineLabels offset labels ks := by
  induction h generalizing offset labels with
  | nil => rfl
  | cons hline _ ih =>
    cases hline with
    | same =>
      unfold defineLabels
      simp only [ih]
    | load number rd a b => exact ih (offset + Mnemonic.ldr.length) labels
    | glued number m before glued rd a b => exact ih (offset + m.length) labels

/-- Instructions that are the same up to addresses. -/
inductive Instruction.Similar : Instruction → Instruction → Prop
  | same (i : Instruction) : Similar i i
  | load (line : Nat) (rd : Reg) (a b : UInt32) :
      Similar ⟨line, .ldr, [rd.text, (Operand.hex a).text]⟩
        ⟨line, .ldr, [rd.text, (Operand.hex b).text]⟩
  | glued (line : Nat) (m : Mnemonic) (before : List String) (glued : List Char) (rd : Reg)
      (a b : UInt32) :
      Similar ⟨line, m, gluedOperands before glued rd a⟩
        ⟨line, m, gluedOperands before glued rd b⟩

theorem Instruction.Similar.mnemonic {i j : Instruction} (h : Similar i j) :
    i.mnemonic = j.mnemonic := by
  cases h <;> rfl

theorem similar_instructionsOf (h : List.Forall₂ SourceLine.Similar ls ks) :
    List.Forall₂ Instruction.Similar (instructionsOf ls) (instructionsOf ks) := by
  induction h with
  | nil => exact .nil
  | @cons line line' _ _ hline _ ih =>
    cases hline with
    | same =>
      obtain ⟨number, content⟩ := line
      cases content with
      | label name => exact ih
      | instruction m operands => exact .cons (.same _) ih
    | load number rd a b => exact .cons (.load number rd a b) ih
    | glued number m before glued rd a b => exact .cons (.glued number m before glued rd a b) ih

/-- **The layout is the same**, since every load of a word is as long as any other. -/
theorem Layout.ofLines_of_similar (h : List.Forall₂ SourceLine.Similar ls ks) :
    ofLines ls = ofLines ks := by
  have hlengths : (ls.filterMap SourceLine.instruction?).map (·.mnemonic.length)
      = (ks.filterMap SourceLine.instruction?).map (·.mnemonic.length) := by
    rw [← List.forall₂_eq_eq_eq, List.forall₂_map_left_iff, List.forall₂_map_right_iff]
    exact (similar_instructionsOf h).imp fun _ _ hij => congrArg Mnemonic.length hij.mnemonic
  unfold ofLines
  rw [defineLabels_of_similar h, hlengths]

end Layout

/-! ## Encoding -/

/-- Byte strings that are words of the same opcodes. -/
def SameWords (bytes bytes' : List UInt8) : Prop :=
  ∃ ops, Words ops bytes ∧ Words ops bytes'

section NoNumber

variable {cs : List Char} {c : Char}

theorem Text.readDigits?_of_mem {base : Nat} (hc : c ∈ cs) (hdigit : digit? base c = none) :
    readDigits? base cs = none := by
  suffices h : ∀ value, readDigitsFrom? base value cs = none by
    cases cs with
    | nil => rfl
    | cons d cs => exact h 0
  induction cs with
  | nil => exact nomatch hc
  | cons d cs ih =>
    intro value
    rw [readDigitsFrom?]
    obtain rfl | hc := List.mem_cons.mp hc
    · rw [hdigit]
    · cases digit? base d with
      | none => rfl
      | some n => exact ih hc _

theorem Text.readUnsigned?_of_mem (limit : Nat) (hc : c ∈ cs) (hdigit : digit? 10 c = none)
    (hplus : c ≠ '+') : readUnsigned? limit cs = none := by
  unfold readUnsigned?
  dsimp only
  split
  next rest =>
    rw [readDigits?_of_mem (List.mem_of_ne_of_mem hplus hc) hdigit]
    rfl
  next =>
    rw [readDigits?_of_mem hc hdigit]
    rfl

/-- A text with an `l` is no register. -/
theorem readRegister_of_mem (line : Nat) {operand : String} (h : 'l' ∈ operand.toList) :
    readRegister line operand = .error ⟨line, .invalidOperand operand .notRegister⟩ := by
  have hnone : ∀ cs : List Char, 'l' ∈ cs → Text.readUnsigned? UInt32.size cs = none :=
    fun cs hmem => Text.readUnsigned?_of_mem _ hmem (by decide) (by decide)
  unfold readRegister
  dsimp only
  split
  next hread => rfl
  next n hread =>
    refine absurd (hread.symm.trans (hnone _ ?_)) nofun
    split
    next rest heq =>
      rw [heq] at h
      exact List.mem_of_ne_of_mem (by decide) h
    next => exact h

end NoNumber

namespace Instruction

theorem encode_of_ne_arity {i : Instruction} (h : i.operands.length ≠ i.mnemonic.encoding.arity)
    (layout : Layout) (index : Nat) :
    i.encode layout index = .error ⟨i.line, .arityMismatch i.mnemonic i.operands.length⟩ := by
  unfold encode
  dsimp only
  split
  case h_7 => rfl
  all_goals
    rename_i henc hoperands
    rw [henc, hoperands] at h
    exact absurd rfl h

/-- **A load behind another mnemonic is refused**, whatever the word. -/
theorem exists_encode_glued (layout : Layout) (index line : Nat) (m : Mnemonic)
    (before : List String) (glued : List Char) (rd : Reg) :
    ∃ e, ∀ word,
      encode layout index ⟨line, m, gluedOperands before glued rd word⟩ = .error e := by
  by_cases harity : before.length + 3 = m.encoding.arity
  · -- three operands are three registers, and the first one is none
    obtain ⟨hlength, henc⟩ : before.length = 0 ∧ m.encoding = .threeReg := by
      cases henc : m.encoding <;> rw [henc, Encoding.arity] at harity
      case threeReg => exact ⟨by omega, rfl⟩
      all_goals omega
    have hmem : 'l' ∈ (String.ofList (glued ++ "ldr".toList)).toList := by
      rw [String.toList_ofList]
      exact List.mem_append_right glued (by decide)
    have hregister := readRegister_of_mem line hmem
    unfold gluedOperands encode
    rw [List.length_eq_zero_iff.mp hlength]
    dsimp only [List.nil_append]
    rw [henc]
    dsimp only
    rw [hregister]
    exact ⟨_, fun word => rfl⟩
  · have hlength : ∀ word, (gluedOperands before glued rd word).length = before.length + 3 :=
      fun word => List.length_append
    refine ⟨⟨line, .arityMismatch m (before.length + 3)⟩, fun word => ?_⟩
    rw [encode_of_ne_arity ((hlength word).trans_ne harity), hlength]

end Instruction

theorem Instruction.sameOutcome_encode {i j : Instruction} (h : Similar i j) (layout : Layout)
    (index : Nat) : SameOutcome SameWords (i.encode layout index) (j.encode layout index) := by
  cases h with
  | same =>
    cases hi : i.encode layout index with
    | error e => exact .error e
    | ok bytes => exact .ok ⟨_, words_of_encode hi, words_of_encode hi⟩
  | load line rd a b =>
    have hencode : ∀ word : UInt32,
        Instruction.encode layout index ⟨line, .ldr, [rd.text, (Operand.hex word).text]⟩
          = .ok (loadCode rd (UInt32.ofInt word.toNat)) :=
      fun word => by rw [encode_ldr rd (readValue_hex layout index line word), word_ofNat]
    rw [hencode a, hencode b]
    exact .ok ⟨Mnemonic.ldr.words, words_of_encode (hencode a), words_of_encode (hencode b)⟩
  | glued line m before glued rd a b =>
    obtain ⟨e, hencode⟩ := exists_encode_glued layout index line m before glued rd
    rw [hencode a, hencode b]
    exact .error e

theorem sameOutcome_encodeFrom {is js : List Instruction}
    (h : List.Forall₂ Instruction.Similar is js) (layout : Layout) (index : Nat) :
    SameOutcome (fun bytes bytes' => SameWords (bytes.map (·.value)) (bytes'.map (·.value)))
      (encodeFrom layout index is) (encodeFrom layout index js) := by
  induction h generalizing index with
  | nil => exact .ok ⟨[], .nil, .nil⟩
  | cons hi _ ih =>
    refine (Instruction.sameOutcome_encode hi layout index).bind fun bytes bytes' hbytes =>
      (ih (index + 1)).bind fun more more' hmore => .ok ?_
    obtain ⟨ops, hops, hops'⟩ := hbytes
    obtain ⟨rest, hrest, hrest'⟩ := hmore
    refine ⟨ops ++ rest, ?_, ?_⟩
    · rw [List.map_append, List.map_map]
      exact .append (by rwa [show CodeByte.value ∘ _ = id from rfl, List.map_id]) hrest
    · rw [List.map_append, List.map_map]
      exact .append (by rwa [show CodeByte.value ∘ _ = id from rfl, List.map_id]) hrest'

/-! ## Assembling -/

/-- **Two object codes have the same layout**: as many bytes, the same opcodes and the same
labels. -/
structure ObjectCode.SameLayout (o o' : ObjectCode) : Prop where
  size : o.size = o'.size
  opcodes : o.opcodes = o'.opcodes
  labels : o.labels = o'.labels

/-- **Aligned texts are assembled to the same layout**, or refused with the same error. -/
theorem sameOutcome_assemble {source source' : String}
    (h : Text.Aligned source.toList source'.toList) :
    SameOutcome ObjectCode.SameLayout (assemble source) (assemble source') := by
  refine (SourceLine.sameOutcome_readFrom h 1).bind fun ls ks hlines => ?_
  rw [Layout.ofLines_of_similar hlines]
  cases Layout.ofLines ks with
  | error e => exact .error e
  | ok layout =>
    refine (sameOutcome_encodeFrom (similar_instructionsOf hlines) layout 0).bind
      fun bytes bytes' ⟨ops, hops, hops'⟩ => .ok ⟨?_, ?_, rfl⟩
    · have hlength := hops.length.trans hops'.length.symm
      rwa [List.length_map, List.length_map] at hlength
    · exact hops.opcodesOf.trans hops'.opcodesOf.symm

/-! ## Programs -/

/-- **A program is moved against another**: its code has the same labels and the same
mnemonics and registers, there are as many warnings, and every variable is shifted. -/
structure Program.Moved (d : Int) (p q : Program) : Prop where
  body_labels : p.body.labels = q.body.labels
  body_signature : p.body.signature = q.body.signature
  definitions_labels : p.definitions.labels = q.definitions.labels
  definitions_signature : p.definitions.signature = q.definitions.signature
  warnings : p.warnings = q.warnings
  symbols : p.symbols.Moved d q.symbols

theorem Scope.Moved.program {d : Int} {s t : Scope} (h : s.Moved d t) :
    (Program.ofScope s).Moved d (Program.ofScope t) where
  body_labels := h.body.similar.labels
  body_signature := h.body.similar.signature
  definitions_labels := h.definitions.similar.labels
  definitions_signature := h.definitions.similar.signature
  warnings := h.warnings
  symbols := h.symbols

/-- **The settings with other places** for cells, for the data region and for the output
device, and nothing else changed. -/
def Config.placed (config : Config) (bitstart bitdata outputPort : UInt32) : Config :=
  { config with
    bitstart := bitstart
    bitdata := bitdata
    outputPort := outputPort }

/-- Runs with other places start from moved scopes. -/
theorem Scope.moved_root (config : Config) (bitstart bitdata outputPort : UInt32) :
    (root config).Moved (bitstart.toNat - config.bitstart.toNat)
      (root (config.placed bitstart bitdata outputPort)) where
  symbols := .startingAt (show (bitstart.toNat : Int) = _ by omega) _ _
  labels := rfl
  functionLabels := rfl
  warnings := rfl
  mode := rfl
  link := rfl
  path := rfl
  exports := rfl
  body := .nil
  definitions := .nil

/-- The comments of a program with plain names are plain. -/
theorem plainComments_of_compileAll {config : Config} {stmts : List Stmt} {s : Scope}
    (hnames : ∀ part ∈ partsAll stmts, part.PlainlyNamed)
    (h : compileAll stmts (Scope.root config) = .ok () s) :
    s.body.PlainComments ∧ s.definitions.PlainComments := by
  have hwritten := Scope.Written.of_compileAll (Vocabulary.complete_plainly _)
    (fun part hpart => (hnames part hpart).fits _) h fun l hl => hl
  exact ⟨fun text hmem => hwritten.body.items _ hmem trivial,
    fun text hmem => hwritten.definitions.items _ hmem trivial⟩

/-- **Moved programs have aligned texts**, in any template. -/
theorem aligned_assembly {config config' : Config} {stmts : List Stmt} {d : Int} {s t : Scope}
    (hnames : ∀ part ∈ partsAll stmts, part.PlainlyNamed)
    (hs : compileAll stmts (Scope.root config) = .ok () s)
    (ht : compileAll stmts (Scope.root config') = .ok () t)
    (hcomments : config.comments = config'.comments) (h : s.Moved d t) (template : String) :
    Text.Aligned ((Program.ofScope s).assembly template).toList
      ((Program.ofScope t).assembly template).toList := by
  obtain ⟨hbody, hdefinitions⟩ := isLine_of_compileAll hnames hs
  obtain ⟨hbody', hdefinitions'⟩ := isLine_of_compileAll hnames ht
  obtain ⟨hplain, hplainDefs⟩ := plainComments_of_compileAll hnames hs
  obtain ⟨hplain', hplainDefs'⟩ := plainComments_of_compileAll hnames ht
  have hshown : t.config.comments = s.config.comments := by
    rw [(compileAll_stays stmts hs).config, (compileAll_stays stmts ht).config]
    exact hcomments.symm
  show Text.Aligned (Template.render template (s.body.render s.config.comments)
      (s.definitions.render s.config.comments)).toList
    (Template.render template (t.body.render t.config.comments)
      (t.definitions.render t.config.comments)).toList
  rw [hshown]
  refine .render ?_ ?_ template
  · exact h.body.aligned_render (fun item hitem => (hbody item hitem).ne_nil)
      (fun item hitem => (hbody' item hitem).ne_nil) hplain hplain' _
  · exact h.definitions.aligned_render (fun item hitem => (hdefinitions item hitem).ne_nil)
      (fun item hitem => (hdefinitions' item hitem).ne_nil) hplainDefs hplainDefs' _

/-- **Code layout does not depend on where data lives.** Take a program with plain names,
without directives and embedded lines, and settings that place cells, data and the
output device elsewhere. If the program is compiled with the first settings, and the
address space is not too small for the second, then it is compiled with these as well,
to the same labels, mnemonics and registers, with every variable moved by the distance of
the two places. And if it is built with the first settings in some template, it is built
with the second in that template, to as many bytes with the same opcodes and labels. -/
theorem Program.moved_of_compile {config : Config} {stmts : List Stmt}
    (hnames : ∀ part ∈ partsAll stmts, part.PlainlyNamed)
    (hparts : ∀ part ∈ partsAll stmts, part.Relocatable) {p : Program}
    (h : compile config stmts = .ok p) (bitstart bitdata outputPort : UInt32)
    (hroom : ∀ e, compile (config.placed bitstart bitdata outputPort) stmts = .error e →
      ¬ e.IsOverflow) :
    ∃ q, compile (config.placed bitstart bitdata outputPort) stmts = .ok q
      ∧ p.Moved (bitstart.toNat - config.bitstart.toNat) q
      ∧ ∀ template b, build config template stmts = .ok b →
        ∃ b', build (config.placed bitstart bitdata outputPort) template stmts = .ok b'
          ∧ b.object.SameLayout b'.object := by
  obtain ⟨s, hs, rfl⟩ := compile_eq_ok_iff.mp h
  have hcorr :=
    relocates_compileAll _ hparts (Scope.moved_root config bitstart bitdata outputPort)
  rw [hs] at hcorr
  cases ht : compileAll stmts (Scope.root (config.placed bitstart bitdata outputPort)) with
  | error e t =>
    rw [ht] at hcorr
    cases hcorr with
    | fullRight he =>
      refine absurd he (hroom e ?_)
      unfold compile
      rw [ht]
  | ok _ t =>
    rw [ht] at hcorr
    cases hcorr with
    | ok _ hmoved =>
      have hq := compile_eq_ok_iff.mpr ⟨t, ht, rfl⟩
      refine ⟨ofScope t, hq, hmoved.program, fun template b hb => ?_⟩
      have hassembly := sameOutcome_assemble (aligned_assembly hnames hs ht rfl hmoved template)
      rw [build_eq_of_compile h] at hb
      rw [build_eq_of_compile hq]
      generalize assemble ((ofScope s).assembly template) = r,
        assemble ((ofScope t).assembly template) = r' at hassembly hb
      cases hassembly with
      | error e => exact nomatch hb
      | ok hlayout =>
        cases hb
        exact ⟨_, rfl, hlayout⟩

/-- A program with a list, a function that reads it, a loop over it that calls the
function, and an output. -/
def loopedCalls : List Stmt :=
  [.declareList 1 "xs" none none (some (.list [.int 1, .int 2])),
    .function 2 "f" [⟨"x", .scalar .int⟩]
      [.assign 3 "x" (.binary .add (.ident "x") (.index "xs" (.ident "x")))],
    .unroll 4 "i" "xs" [.call 5 none "f" [.ident "i"]],
    .call 6 none "putchar" [.char 65]]

/-- The program is built with its cells at the start of memory as well, which the default
settings have at `0x10000000`. -/
theorem Program.moved_of_compile_loopedCalls :
    ∃ p q b b', compile {} loopedCalls = .ok p
      ∧ compile (Config.placed {} 0x10 0x400 0x8000) loopedCalls = .ok q
      ∧ p.Moved (0x10 - 0x10000000) q ∧ build {} Template.base loopedCalls = .ok b
      ∧ build (Config.placed {} 0x10 0x400 0x8000) Template.base loopedCalls = .ok b'
      ∧ b.object.SameLayout b'.object := by
  have hnames : ∀ part ∈ partsAll loopedCalls, part.PlainlyNamed := by
    simp [loopedCalls, partsAll, Stmt.parts, Stmt.PlainlyNamed]
    decide
  have hparts : ∀ part ∈ partsAll loopedCalls, part.Relocatable := by
    simp [loopedCalls, partsAll, Stmt.parts, Stmt.Relocatable]
  have hsolid : ∀ part ∈ partsAll loopedCalls, part.SolidlyNamed := by
    simp [loopedCalls, partsAll, Stmt.parts, Stmt.SolidlyNamed]
    decide
  have hrun : CompileM.succeeds (compileAll loopedCalls) (Scope.root {}) = true := by
    decide +kernel
  have hrun' : CompileM.succeeds (compileAll loopedCalls)
      (Scope.root (Config.placed {} 0x10 0x400 0x8000)) = true := by decide +kernel
  obtain ⟨s, hs, hlines⟩ : ∃ s, compileAll loopedCalls (Scope.root {}) = .ok () s
      ∧ (assembleLines (Runtime.lines s.body s.definitions s.config.comments)).isOk = true := by
    obtain ⟨_, hs⟩ := CompileM.exists_of_succeeds hrun
    exact ⟨_, hs, by decide +kernel⟩
  cases ho : assembleLines (Runtime.lines s.body s.definitions s.config.comments) with
  | error e =>
    rw [ho] at hlines
    exact (Bool.false_ne_true hlines).elim
  | ok o =>
    obtain ⟨b, hb, -, -⟩ := exists_build_of_lines hsolid hs ho
    obtain ⟨_, ht⟩ := CompileM.exists_of_succeeds hrun'
    have hp := compile_eq_ok_iff.mpr ⟨s, hs, rfl⟩
    have hplaced := compile_eq_ok_iff.mpr ⟨_, ht, rfl⟩
    have hroom : ∀ e, compile (Config.placed {} 0x10 0x400 0x8000) loopedCalls = .error e →
        ¬ e.IsOverflow := by
      intro e he
      rw [hplaced] at he
      cases he
    obtain ⟨q, hq, hmoved, hbuild⟩ := moved_of_compile hnames hparts hp 0x10 0x400 0x8000 hroom
    obtain ⟨b', hb', hlayout⟩ := hbuild Template.base b hb
    exact ⟨_, q, b, b', hp, hq, hmoved, hb, hb', hlayout⟩

end RegMachine
