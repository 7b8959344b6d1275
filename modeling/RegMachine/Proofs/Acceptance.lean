import Mathlib.Data.List.Nodup
import RegMachine.Build
import RegMachine.Proofs.Runtime
import RegMachine.Proofs.Streams

/-!
# What the code generator accepts and the assembler refuses

A program that compiles is assembled together with the runtime. Its
instructions are never at fault: their operands have a notation that is read
back, the labels that they name are defined, and their forward references end
inside the program. So the assembler accepts the text unless a label is defined
twice (`exists_duplicate_of_assemble`).

The labels of blocks differ from each other and from those of the runtime, and
the labels of functions differ from each other. But the code generator compares
a function's label with those of other functions alone. The main statement,
`build_isOk_iff`, is that a build succeeds exactly if no function has the label
of a block or of the runtime.
-/

namespace RegMachine

/-! ## Encoding -/

/-- **Instructions are encoded**, the first of which has a given index. -/
def Encodes (layout : Layout) : Nat → List (Mnemonic × List String) → Prop
  | _, [] => True
  | index, (m, operands) :: rest =>
    (∀ line, ∃ bytes, Instruction.encode layout index ⟨line, m, operands⟩ = .ok bytes)
      ∧ Encodes layout (index + 1) rest

section Encodes

variable {layout : Layout} {index : Nat}

theorem Encodes.append {is js : List (Mnemonic × List String)} (his : Encodes layout index is)
    (hjs : Encodes layout (index + is.length) js) : Encodes layout index (is ++ js) := by
  induction is generalizing index with
  | nil => exact hjs
  | cons i is ih =>
    refine ⟨his.1, ih his.2 ?_⟩
    rw [List.length_cons] at hjs
    rw [show index + 1 + is.length = index + (is.length + 1) by omega]
    exact hjs

/-- Instructions that are encoded without regard to their lines are encoded. -/
theorem Encodes.isOk_encodeFrom {is : List Instruction}
    (h : Encodes layout index (is.map fun i => (i.mnemonic, i.operands))) :
    ∃ bytes, encodeFrom layout index is = .ok bytes := by
  induction is generalizing index with
  | nil => exact ⟨[], rfl⟩
  | cons i is ih =>
    obtain ⟨head, hhead⟩ := h.1 i.line
    obtain ⟨tail, htail⟩ := ih h.2
    exact ⟨_, encodeFrom_cons_eq_ok_iff.mpr ⟨head, tail, hhead, htail, rfl⟩⟩

/-- An instruction is encoded if its operand can be read. -/
theorem Instr.isOk_encode (i : Instr) {line : Nat}
    (h : ∀ src, i.source? = some src →
      ∃ value, readValue layout index line src.text = .ok value) :
    ∃ bytes, Instruction.encode layout index ⟨line, i.mnemonic, i.operands⟩ = .ok bytes := by
  let value (src : Operand) : Int :=
    match readValue layout index line src.text with
    | .ok value => value.toInt
    | .error _ => 0
  refine ⟨i.bytes value, i.encode_eq fun src hsrc => ?_⟩
  obtain ⟨v, hv⟩ := h src hsrc
  show _ = Except.ok (Int64.ofInt (match readValue layout index line src.text with
    | .ok value => value.toInt
    | .error _ => 0))
  rw [hv, Int64.ofInt_toInt]

/-- **Settled code is encoded** where its labels are defined, if the program does
not end before it. -/
theorem Settled.encodes {is : List Instr} (h : Settled is)
    (hdefined : ∀ i ∈ is, ∀ name, i.label? = some name → (layout.labels.get? name).isSome)
    (hcount : index + is.length ≤ layout.count) :
    Encodes layout index (is.map fun i => (i.mnemonic, i.operands)) := by
  induction is generalizing index with
  | nil => trivial
  | cons i is ih =>
    rw [List.length_cons] at hcount
    obtain ⟨hi, hdefined⟩ := List.forall_mem_cons.mp hdefined
    refine ⟨fun line => i.isOk_encode fun src hsrc => ?_, ih h.2 hdefined (by omega)⟩
    cases src with
    | imm value => exact ⟨_, readValue_imm layout index line value⟩
    | hex value => exact ⟨_, readValue_hex layout index line value⟩
    | label name =>
      have hname := hi name (by rw [Instr.label?, hsrc])
      obtain ⟨offset, hoffset⟩ := Option.isSome_iff_exists.mp hname
      exact ⟨_, readValue_label layout index line hoffset⟩
    | forward distance =>
      obtain ⟨hlt, hle⟩ := h.1 distance (by rw [Instr.forward?, hsrc])
      exact ⟨_, readValue_forward layout index line hlt (by omega)⟩

theorem Runtime.encodes_routine (r : Routine) :
    Encodes layout index ((routineContents r).filterMap LineContent.instruction?) := by
  have hmem : (Mnemonic.basic (opcode r)).encoding = .regMem := by
    rcases r with ⟨⟨⟩⟩ | ⟨⟨⟩⟩ <;> rfl
  refine ⟨fun line => ⟨_, encode_regMem hmem .value .addr⟩, fun line => ?_, trivial⟩
  exact Instr.isOk_encode (.jpr .ret) nofun

/-- **The runtime is encoded** anywhere, if the label of its loop is defined. -/
theorem Runtime.encodes (hhalt : (layout.labels.get? "halt").isSome)
    (hcount : index + halt.instructions.length ≤ layout.count) :
    Encodes layout index (contents.filterMap LineContent.instruction?) := by
  have hroutines : ∀ (rs : List Routine) (index : Nat),
      Encodes layout index ((rs.flatMap routineContents).filterMap LineContent.instruction?) := by
    intro rs
    induction rs with
    | nil => exact fun _ => trivial
    | cons r rs ih =>
      intro index
      rw [List.flatMap_cons, List.filterMap_append]
      exact (encodes_routine r).append (ih _)
  rw [contents, List.filterMap_append, Fragment.instructions_contents]
  have hsettled : Settled halt.instructions := ⟨nofun, nofun, trivial⟩
  refine (hsettled.encodes ?_ hcount).append (hroutines _ _)
  refine List.forall_mem_cons.mpr ⟨?_, List.forall_mem_cons.mpr ⟨nofun, nofun⟩⟩
  rintro name ⟨⟩
  exact hhalt

end Encodes

/-! ## Assembling -/

theorem Layout.isSome_get?_labels_iff {lines : List SourceLine} {layout : Layout}
    (h : Layout.ofLines lines = .ok layout) (name : String) :
    (layout.labels.get? name).isSome ↔ name ∈ labelsOf lines := by
  rw [Option.isSome_iff_exists, ← exists_standsAt_iff]
  exact exists_congr fun offset => Layout.get?_labels h name offset

/-- **Laying out stops at a label that is there already**: it was defined before
the lines, or it is defined in them twice. -/
theorem exists_duplicate_of_defineLabels {offset : Nat} {labels : LabelTable}
    {lines : List SourceLine} {e : AsmError} (h : defineLabels offset labels lines = .error e) :
    ∃ name, e.fault = .duplicateLabel name
      ∧ ((labels.get? name).isSome ∧ name ∈ labelsOf lines
        ∨ 1 < (labelsOf lines).count name) := by
  induction lines generalizing offset labels with
  | nil => exact nomatch h
  | cons line lines ih =>
    obtain ⟨number, content⟩ := line
    cases content with
    | label other =>
      rw [labelsOf_label]
      by_cases hother : (labels.get? other).isSome
      · have hcontains : labels.contains other = true := hother
        rw [defineLabels] at h
        dsimp only at h
        rw [LabelTable.define, if_pos hcontains] at h
        cases h
        exact ⟨other, rfl, .inl ⟨hother, List.mem_cons_self⟩⟩
      · have hcontains : ¬ labels.contains other = true := hother
        rw [defineLabels] at h
        dsimp only at h
        rw [LabelTable.define, if_neg hcontains] at h
        obtain ⟨name, hfault, hname⟩ := ih h
        refine ⟨name, hfault, ?_⟩
        -- the label that was just defined may be the one that is met again
        by_cases heq : name = other
        · subst heq
          have hmem : name ∈ labelsOf lines :=
            hname.elim (·.2) fun hcount => List.count_pos_iff.mp (Nat.lt_of_succ_lt hcount)
          rw [List.count_cons_self]
          exact .inr (Nat.succ_lt_succ (List.count_pos_iff.mpr hmem))
        · rw [Table.get?_insert_of_ne _ heq] at hname
          rw [List.count_cons_of_ne (Ne.symm heq)]
          exact hname.imp_left fun hname => ⟨hname.1, List.mem_cons_of_mem other hname.2⟩
    | instruction m operands =>
      rw [labelsOf_instruction]
      exact ih h

theorem Layout.exists_duplicate_of_ofLines {lines : List SourceLine} {e : AsmError}
    (h : Layout.ofLines lines = .error e) :
    ∃ name, e.fault = .duplicateLabel name ∧ 1 < (labelsOf lines).count name := by
  unfold ofLines at h
  split at h
  next => cases h
  next hlabels =>
    cases h
    obtain ⟨name, hfault, hname⟩ := exists_duplicate_of_defineLabels hlabels
    refine ⟨name, hfault, hname.resolve_left fun hempty => ?_⟩
    rw [Table.get?_empty] at hempty
    exact Bool.false_ne_true hempty.1

/-- **Contents are sound** if their instructions are encoded in every layout that
has their labels and as many instructions. -/
def Sound (contents : List LineContent) : Prop :=
  ∀ layout : Layout,
    (∀ name ∈ contents.filterMap LineContent.label?, (layout.labels.get? name).isSome) →
    layout.count = (contents.filterMap LineContent.instruction?).length →
    Encodes layout 0 (contents.filterMap LineContent.instruction?)

section Assemble

variable {source : String} {contents : List LineContent}

theorem nodup_of_assemble (hholds : Holds source.toList contents) {o : ObjectCode}
    (h : assemble source = .ok o) : (contents.filterMap LineContent.label?).Nodup := by
  obtain ⟨lines, layout, bytes, hlines, hlayout, -, -⟩ := assemble_eq_ok_iff.mp h
  obtain ⟨lines', hlines', rfl⟩ := hholds 1
  cases hlines.symm.trans hlines'
  rw [← labelsOf_eq]
  exact Layout.ofLines_isOk_iff.mp ⟨layout, hlayout⟩

theorem Sound.isOk_encodeFrom (hsound : Sound contents) {lines : List SourceLine}
    {layout : Layout} (hcontents : lines.map (·.content) = contents)
    (hlayout : Layout.ofLines lines = .ok layout) :
    ∃ bytes, encodeFrom layout 0 (instructionsOf lines) = .ok bytes := by
  have hpairs := map_instructionsOf lines
  rw [hcontents] at hpairs
  have hencodes : Encodes layout 0 (contents.filterMap LineContent.instruction?) := by
    refine hsound layout (fun name hname => ?_) ?_
    · rw [Layout.isSome_get?_labels_iff hlayout, labelsOf_eq, hcontents]
      exact hname
    · rw [← hpairs, List.length_map, Layout.count, (Layout.ofLines_eq_ok_iff.mp hlayout).2,
        List.length_map]
  rw [← hpairs] at hencodes
  exact hencodes.isOk_encodeFrom

/-- **Sound contents are refused for a label that is defined twice only.** -/
theorem exists_duplicate_of_assemble (hholds : Holds source.toList contents)
    (hsound : Sound contents) {e : AsmError} (h : assemble source = .error e) :
    ∃ name, e.fault = .duplicateLabel name
      ∧ 1 < (contents.filterMap LineContent.label?).count name := by
  obtain ⟨lines, hlines, hcontents⟩ := hholds 1
  rw [← hcontents, ← labelsOf_eq]
  cases hlayout : Layout.ofLines lines with
  | ok layout =>
    obtain ⟨bytes, hbytes⟩ := hsound.isOk_encodeFrom hcontents hlayout
    rw [assemble_eq_ok_iff.mpr ⟨lines, layout, bytes, hlines, hlayout, hbytes, rfl⟩] at h
    cases h
  | error e' =>
    have herror : assemble source = .error e' := by
      unfold assemble SourceLine.readAll
      rw [hlines]
      show (Layout.ofLines lines >>= _) = _
      rw [hlayout]
      rfl
    cases herror.symm.trans h
    exact Layout.exists_duplicate_of_ofLines hlayout

end Assemble

/-! ## Names -/

/-- Letters, digits and the underscore of ASCII. -/
def Text.isNameChar (c : Char) : Bool :=
  ('a' ≤ c && c ≤ 'z') || ('A' ≤ c && c ≤ 'Z') || ('0' ≤ c && c ≤ '9') || c = '_'

/-- **An identifier**: characters of names, at least one. -/
structure Text.IsIdentifier (s : String) : Prop where
  ne_nil : s.toList ≠ []
  chars : ∀ c ∈ s.toList, isNameChar c = true

namespace Text

instance (s : String) : Decidable (IsIdentifier s) :=
  have := List.decidableBAll (fun c => isNameChar c = true) s.toList
  decidable_of_iff (s.toList ≠ [] ∧ ∀ c ∈ s.toList, isNameChar c = true)
    ⟨fun h => ⟨h.1, h.2⟩, fun h => ⟨h.ne_nil, h.chars⟩⟩

theorem isSeparator_of_isNameChar {c : Char} (h : isNameChar c = true) :
    SourceLine.isSeparator c = false := by
  have hle : ∀ a b : Char, a ≤ b ↔ a.toNat ≤ b.toNat := fun _ _ => Iff.rfl
  by_cases hunderscore : c = '_'
  · subst hunderscore
    decide
  · simp only [isNameChar, hunderscore, decide_false, Bool.or_false, Bool.or_eq_true,
      Bool.and_eq_true, decide_eq_true_eq, hle] at h
    simp only [Char.reduceToNat] at h
    exact isSeparator_eq_false (by omega) (by omega)

namespace IsIdentifier

variable {s : String}

theorem not_mem (h : IsIdentifier s) {c : Char} (hc : isNameChar c = false) : c ∉ s.toList := by
  intro hmem
  rw [h.chars c hmem] at hc
  exact Bool.false_ne_true hc.symm

theorem isWord (h : IsIdentifier s) : IsWord s where
  ne_nil := h.ne_nil
  isSeparator := fun c hc => isSeparator_of_isNameChar (h.chars c hc)
  ne_semicolon := by
    rintro c hc rfl
    exact h.not_mem (by decide) hc

theorem isPlain (h : IsIdentifier s) : IsPlain s := by
  intro c hc
  constructor
  · rintro rfl
    exact h.not_mem (by decide) hc
  · rintro rfl
    exact h.not_mem (by decide) hc

end IsIdentifier

/-- Words joined by a word are a word. -/
theorem IsWord.intercalate {sep : String} (hsep : IsWord sep) {texts : List String}
    (hne : texts ≠ []) (h : ∀ text ∈ texts, IsWord text) : IsWord (sep.intercalate texts) := by
  induction texts with
  | nil => exact absurd rfl hne
  | cons text rest ih =>
    obtain ⟨htext, hrest⟩ := List.forall_mem_cons.mp h
    cases rest with
    | nil =>
      rw [String.intercalate_singleton]
      exact htext
    | cons text' rest =>
      rw [String.intercalate_cons_cons]
      exact .append (.append htext hsep) (ih (List.cons_ne_nil _ _) hrest)

end Text

/-- **The statements of programs without embedded lines** that declare identifiers
and include plain paths, as far as a statement goes itself. -/
def Stmt.WellNamed : Stmt → Prop
  | declare _ _ name _ | declareList _ name _ _ _ => Text.IsIdentifier name
  | unroll _ var _ _ => Text.IsIdentifier var
  | function _ name formals _ =>
    Text.IsIdentifier name ∧ ∀ p ∈ formals, Text.IsIdentifier p.name
  | space _ name _ => Text.IsIdentifier name
  | unit _ path _ => Text.IsPlain path
  | embed _ _ => False
  | _ => True

/-- **The vocabulary of programs** with given labels: their names are
identifiers, and they name these labels. -/
def Vocabulary.ofLabels (labels : List String) : Vocabulary where
  target l := l ∈ labels
  label l := Text.IsWord l ∧ Text.IsPlain l
  name := Text.IsIdentifier
  plain := True
  embeds := False
  isPlain_name _ _ h := h.isPlain

theorem Vocabulary.complete_ofLabels (labels : List String) : (ofLabels labels).Complete where
  block b index l hl := by
    have hstems : ∀ stem ∈ Block.stems, Text.IsWord stem ∧ Text.IsPlain stem := by decide
    obtain ⟨stem, hstem, rfl⟩ := Block.exists_stem_of_mem_labels hl
    exact ⟨.append (hstems stem hstem).1 (Text.isWord_decimal index),
      .append (hstems stem hstem).2 (.decimal index)⟩
  function path name hpath hname := by
    have hnames : ∀ n ∈ path ++ [name], Text.IsIdentifier n :=
      List.forall_mem_append.mpr ⟨hpath, List.forall_mem_singleton.mpr hname⟩
    exact ⟨.intercalate (by decide) (by simp) fun n hn => (hnames n hn).isWord,
      .intercalate (by decide) fun n hn => (hnames n hn).isPlain⟩

theorem Stmt.WellNamed.fits {stmt : Stmt} (h : stmt.WellNamed) (labels : List String) :
    stmt.Fits (.ofLabels labels) := by
  cases stmt with
  | unit line path body => exact fun _ => h
  | _ => exact h

/-- Where labels are words, the vocabulary of their program is legible. -/
theorem Vocabulary.legible_ofLabels {labels : List String}
    (h : ∀ l ∈ labels, Text.IsWord l ∧ Text.IsPlain l) : (ofLabels labels).Legible where
  target l hl := (h l hl).2
  label _ hl := hl.2
  plain := trivial
  isWord_target l hl := (h l hl).1
  isWord_label _ hl := hl.1
  not_embeds := id

/-! ## The frame -/

namespace Runtime

variable {body definitions : Fragment}

theorem labels_frame (body definitions : Fragment) :
    (frame body definitions).filterMap LineContent.label?
      = "start" :: (body.labels
        ++ ("halt" :: routines.map Routine.label ++ definitions.labels)) := by
  have hruntime : contents.filterMap LineContent.label? = "halt" :: routines.map Routine.label :=
    rfl
  show "start" :: (body.contents ++ (contents ++ definitions.contents)).filterMap
    LineContent.label? = _
  rw [List.filterMap_append, List.filterMap_append, Fragment.labels_contents,
    Fragment.labels_contents, hruntime]

/-- The labels of a build are those of the runtime and of the two streams. -/
theorem perm_labels_frame (body definitions : Fragment) :
    ((frame body definitions).filterMap LineContent.label?).Perm
      (labels ++ Fragment.labels (body ++ definitions)) := by
  rw [labels_frame, Fragment.labels_append, List.perm_iff_count]
  intro label
  simp only [labels, List.count_cons, List.count_append, List.cons_append]
  omega

theorem instructions_frame (body definitions : Fragment) :
    (frame body definitions).filterMap LineContent.instruction?
      = body.instructions.map (fun i => (i.mnemonic, i.operands))
        ++ (contents.filterMap LineContent.instruction?
          ++ definitions.instructions.map (fun i => (i.mnemonic, i.operands))) := by
  unfold frame
  rw [List.filterMap_cons_none rfl, List.filterMap_append, List.filterMap_append,
    Fragment.instructions_contents, Fragment.instructions_contents]

/-- **Code that names no labels but its own and the runtime's is sound** in the
frame of the runtime. -/
theorem sound_frame (hbody : body.Uses (.ofLabels (Fragment.labels (body ++ definitions))))
    (hdefinitions : definitions.Uses (.ofLabels (Fragment.labels (body ++ definitions)))) :
    Sound (frame body definitions) := by
  intro layout hlabels hcount
  have hdefined : ∀ name, name ∈ Fragment.labels (body ++ definitions) ∨ name ∈ labels →
      (layout.labels.get? name).isSome := by
    intro name hname
    refine hlabels name ((perm_labels_frame body definitions).mem_iff.mpr ?_)
    exact List.mem_append.mpr hname.symm
  have hinstr : ∀ f : Fragment, f.Uses (.ofLabels (Fragment.labels (body ++ definitions))) →
      ∀ i ∈ f.instructions, ∀ name, i.label? = some name → (layout.labels.get? name).isSome := by
    intro f hf i hi name hname
    obtain ⟨item, hitem, hinstr⟩ := List.mem_filterMap.mp hi
    cases item with
    | instr j =>
      cases hinstr
      rcases hf.items _ hitem name hname with htarget | ⟨r, rfl⟩
      · exact hdefined name (.inl htarget)
      · exact hdefined _ (.inr (by rcases r with ⟨⟨⟩⟩ | ⟨⟨⟩⟩ <;> decide))
    | label | comment | raw => exact nomatch hinstr
  have hruntime :
      halt.instructions.length ≤ (contents.filterMap LineContent.instruction?).length :=
    by decide
  rw [instructions_frame, List.length_append, List.length_append, List.length_map,
    List.length_map] at hcount
  rw [instructions_frame]
  -- every part ends before the program does, so its forward references do
  refine (hbody.settled.encodes (hinstr body hbody) (by omega)).append ?_
  rw [List.length_map]
  refine (encodes (hdefined "halt" (.inr (by decide))) (by omega)).append ?_
  exact hdefinitions.settled.encodes (hinstr definitions hdefinitions) (by omega)

end Runtime

/-! ## Builds -/

theorem underscore_mem_of_mem_blockLabels {start : Nat} {blocks : List Block} {label : String}
    (h : label ∈ blockLabels start blocks) : '_' ∈ label.toList := by
  have hstems : ∀ stem ∈ Block.stems, '_' ∈ stem.toList := by decide
  obtain ⟨index, b, -, hmem⟩ := exists_of_mem_blockLabels h
  obtain ⟨stem, hstem, rfl⟩ := Block.exists_stem_of_mem_labels hmem
  rw [String.toList_append]
  exact List.mem_append_left _ (hstems stem hstem)

/-- No block has a label of the runtime, which are all without underscores. -/
theorem nodup_runtime_append_blockLabels (start : Nat) (blocks : List Block) :
    (Runtime.labels ++ blockLabels start blocks).Nodup := by
  have hnodup : Runtime.labels.Nodup := by decide
  have hruntime : ∀ l ∈ Runtime.labels, '_' ∉ l.toList := by decide
  refine List.nodup_append'.mpr ⟨hnodup, nodup_blockLabels start blocks, ?_⟩
  exact fun label hlabel hmem => hruntime label hlabel (underscore_mem_of_mem_blockLabels hmem)

section Labels

variable {blocks : List Block} {functions : List String}

/-- **The labels of a build are distinct** exactly if no function has the label of
the runtime or of a block. -/
theorem nodup_labels_iff (hfunctions : functions.Nodup) :
    (Runtime.labels ++ (blockLabels 0 blocks ++ functions)).Nodup
      ↔ ∀ f ∈ functions, f ∉ Runtime.labels ∧ f ∉ blockLabels 0 blocks := by
  rw [← List.append_assoc, List.nodup_append']
  constructor
  · intro h f hf
    have hmem : f ∉ Runtime.labels ++ blockLabels 0 blocks := fun hmem => h.2.2 hmem hf
    rw [List.mem_append, not_or] at hmem
    exact hmem
  · intro h
    refine ⟨nodup_runtime_append_blockLabels 0 blocks, hfunctions, fun f hmem hf => ?_⟩
    exact (List.mem_append.mp hmem).elim (h f hf).1 (h f hf).2

/-- A label that occurs twice in a build is a function's. -/
theorem mem_functions_of_lt_count {name : String}
    (h : 1 < (Runtime.labels ++ (blockLabels 0 blocks ++ functions)).count name) :
    name ∈ functions := by
  by_contra hname
  have hcount :=
    List.nodup_iff_count_le_one.mp (nodup_runtime_append_blockLabels 0 blocks) name
  rw [← List.append_assoc, List.count_append, List.count_eq_zero_of_not_mem hname] at h
  omega

end Labels

section Build

variable {config : Config} {stmts : List Stmt} {s : Scope}

/-- The text that is assembled for a program. -/
def Program.assembly (template : String) (p : Program) : String :=
  Template.render template p.bodyText p.definitionsText

/-- **The text of a build holds sound code**, if the names of the program are
identifiers. -/
theorem holds_assembly (hnames : ∀ part ∈ partsAll stmts, part.WellNamed)
    (h : compileAll stmts (Scope.root config) = .ok () s) :
    Holds ((Program.ofScope s).assembly Template.base).toList (Runtime.frame s.body s.definitions)
      ∧ Sound (Runtime.frame s.body s.definitions) := by
  have hwritten := Scope.Written.of_compileAll (Vocabulary.complete_ofLabels _)
    (fun part hpart => (hnames part hpart).fits _) h fun l hl => hl
  -- the labels are known to be words only now that the streams are known to be written
  have hlegible : (Vocabulary.ofLabels (Fragment.labels (s.body ++ s.definitions))).Legible := by
    refine Vocabulary.legible_ofLabels fun l hl => ?_
    obtain ⟨item, hitem, hlabel⟩ := List.mem_filterMap.mp hl
    have huses := (hwritten.body.append hwritten.definitions).items item hitem
    cases item with
    | label name =>
      cases hlabel
      exact huses
    | instr | comment | raw => exact nomatch hlabel
  refine ⟨Template.holds_render (hlegible.readable hwritten.body) ?_
    (hlegible.readable hwritten.definitions),
    Runtime.sound_frame hwritten.body hwritten.definitions⟩
  exact hlegible.not_mem_render hwritten.body s.config.comments

/-- What a build comes to once the program is compiled. -/
theorem build_eq_of_compile {p : Program} (h : Program.compile config stmts = .ok p)
    (template : String) :
    build config template stmts
      = ((assemble (p.assembly template)).mapError BuildError.assemble).map
          fun object => ⟨p, p.assembly template, object⟩ := by
  unfold build Program.assembly
  rw [h]
  dsimp only
  cases assemble (Template.render template p.bodyText p.definitionsText) <;> rfl

/-- **Which programs are compiled but not built.** Where a program compiles, its
build succeeds exactly if no function has a label of the runtime or of one of
the program's own blocks, and if it fails, then at the second definition of a
function's label. -/
theorem build_isOk_iff (hnames : ∀ part ∈ partsAll stmts, part.WellNamed)
    (h : compileAll stmts (Scope.root config) = .ok () s) :
    ∃ blocks, blocks.length = s.labels
      ∧ (Fragment.labels (s.body ++ s.definitions)).Perm
        (blockLabels 0 blocks ++ s.functionLabels)
      ∧ ((∃ b, build config Template.base stmts = .ok b)
        ↔ ∀ f ∈ s.functionLabels, f ∉ Runtime.labels ∧ f ∉ blockLabels 0 blocks)
      ∧ ∀ e, build config Template.base stmts = .error e →
        ∃ line, ∃ f ∈ s.functionLabels, e = .assemble ⟨line, .duplicateLabel f⟩ := by
  obtain ⟨blocks, hlength, hfunctions, hperm⟩ := issues_of_compileAll h
  obtain ⟨hholds, hsound⟩ := holds_assembly hnames h
  have hlabels := (Runtime.perm_labels_frame s.body s.definitions).trans (hperm.append_left _)
  have hcompile : Program.compile config stmts = .ok (.ofScope s) := by
    unfold Program.compile
    rw [h]
  refine ⟨blocks, hlength, hperm, ?_⟩
  rw [← nodup_labels_iff hfunctions, ← hlabels.nodup_iff, build_eq_of_compile hcompile]
  cases hassemble : assemble ((Program.ofScope s).assembly Template.base) with
  | error e =>
    obtain ⟨name, hfault, hcount⟩ := exists_duplicate_of_assemble hholds hsound hassemble
    refine ⟨⟨fun ⟨b, hb⟩ => (nomatch hb), fun hnodup => ?_⟩, ?_⟩
    · exact absurd hcount (Nat.not_lt.mpr (List.nodup_iff_count_le_one.mp hnodup name))
    · rintro _ ⟨⟩
      rw [hlabels.count_eq] at hcount
      refine ⟨e.line, name, mem_functions_of_lt_count hcount, ?_⟩
      rw [← hfault]
  | ok o => exact ⟨⟨fun _ => nodup_of_assemble hholds hassemble, fun _ => ⟨_, rfl⟩⟩, nofun⟩

end Build

/-- A program with a function of a given name, which is called in a branch. -/
def calling (name : String) : List Stmt :=
  [.function 1 name [] [], .branch 2 ⟨.equal, .int 1, .int 1⟩ [.call 3 none name []] []]

theorem wellNamed_calling {name : String} (h : Text.IsIdentifier name) :
    ∀ part ∈ partsAll (calling name), part.WellNamed := by
  simp [calling, partsAll, Stmt.parts, Stmt.WellNamed, h]

theorem functionLabels_calling : ∀ name ∈ ["f", "halt"],
    (match compileAll (calling name) (Scope.root {}) with
      | .ok _ s => some s.functionLabels
      | .error _ _ => none) = some [name] := by
  decide +kernel

theorem compileAll_calling {name : String} (h : name ∈ ["f", "halt"]) :
    ∃ s, compileAll (calling name) (Scope.root {}) = .ok () s ∧ s.functionLabels = [name] := by
  have hname := functionLabels_calling name h
  split at hname
  next s hs => exact ⟨s, hs, Option.some.inj hname⟩
  next => exact absurd hname.symm (Option.some_ne_none [name])

/-- A function `f` is built, and a function `halt` is compiled but not built. -/
theorem build_isOk_iff_calling :
    (∃ b, build {} Template.base (calling "f") = .ok b)
      ∧ (∃ s, compileAll (calling "halt") (Scope.root {}) = .ok () s)
      ∧ ¬ ∃ b, build {} Template.base (calling "halt") = .ok b := by
  obtain ⟨s, hs, hfunctions⟩ := compileAll_calling (show "f" ∈ ["f", "halt"] by decide)
  obtain ⟨t, ht, hfunctions'⟩ := compileAll_calling (show "halt" ∈ ["f", "halt"] by decide)
  obtain ⟨blocks, -, -, hbuild, -⟩ := build_isOk_iff (wellNamed_calling (by decide)) hs
  obtain ⟨blocks', -, -, hrefused, -⟩ := build_isOk_iff (wellNamed_calling (by decide)) ht
  refine ⟨hbuild.mpr ?_, ⟨t, ht⟩, fun hok => ?_⟩
  · rw [hfunctions, List.forall_mem_singleton]
    refine ⟨by decide, fun hmem => ?_⟩
    exact absurd (underscore_mem_of_mem_blockLabels hmem) (by decide)
  · rw [hfunctions', List.forall_mem_singleton] at hrefused
    exact (hrefused.mp hok).1 (by decide)

end RegMachine
