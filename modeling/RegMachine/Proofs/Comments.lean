import RegMachine.Proofs.Blindness
import RegMachine.Proofs.Returns

/-!
# Comments do not change a program

Whether comments are written is decided once, in the settings of a build, and
they come back as lines of the text that is assembled. `sameBuild_of_comments`
says that nothing else comes of them: with and without comments a program is
built to the same code and labels, or refused for the same reason.

Compiling does not depend on the setting, by running with and without comments
in lockstep (`blind_compileAll`). So the two texts are made from the same two
streams, and differ in lines that say nothing. Such lines only move the numbers
of the lines behind them, and the assembler does nothing with the number of a
line but pass it on. To say this, outcomes are compared after their line numbers
are taken out (`unnumbered`), through reading, layout and encoding in turn.
-/

namespace RegMachine

variable {α β γ δ : Type}

/-! ## Outcomes without line numbers -/

/-- **An outcome without line numbers**: what is seen of a result, or the fault of an
error. -/
def unnumbered (view : α → β) : Except AsmError α → Except AsmFault β
  | .ok a => .ok (view a)
  | .error e => .error e.fault

section Unnumbered

variable {view : α → β} {view' : γ → δ} {x y : Except AsmError α} {f g : α → Except AsmError γ}

theorem unnumbered_bind (hxy : unnumbered view x = unnumbered view y)
    (hfg : ∀ a b, view a = view b → unnumbered view' (f a) = unnumbered view' (g b)) :
    unnumbered view' (x >>= f) = unnumbered view' (y >>= g) := by
  cases x with
  | error e =>
    cases y with
    | error e' => exact congrArg Except.error (Except.error.inj hxy)
    | ok b => exact nomatch hxy
  | ok a =>
    cases y with
    | error e => exact nomatch hxy
    | ok b => exact hfg a b (Except.ok.inj hxy)

/-- A chain that goes on with the same result. -/
theorem unnumbered_bind_id (hxy : unnumbered id x = unnumbered id y)
    (hfg : ∀ a, unnumbered view' (f a) = unnumbered view' (g a)) :
    unnumbered view' (x >>= f) = unnumbered view' (y >>= g) :=
  unnumbered_bind hxy fun a b (h : a = b) => h ▸ hfg a

theorem unnumbered_map {h : α → γ} (hxy : unnumbered id x = unnumbered id y) :
    unnumbered id (x.map h) = unnumbered id (y.map h) :=
  unnumbered_bind_id (f := fun a => .ok (h a)) (g := fun a => .ok (h a)) hxy fun _ => rfl

end Unnumbered

/-! ## Encoding -/

section Encoding

variable (layout : Layout) (index m n : Nat) (operand : String)

theorem unnumbered_readRegister :
    unnumbered id (readRegister m operand) = unnumbered id (readRegister n operand) := by
  unfold readRegister
  dsimp only
  split
  · rfl
  · split <;> rfl

theorem unnumbered_readJumpTarget :
    unnumbered id (readJumpTarget m operand) = unnumbered id (readJumpTarget n operand) := by
  unfold readJumpTarget
  split
  · exact unnumbered_readRegister m n operand
  · rfl

theorem unnumbered_resolve (labels : LabelTable) :
    unnumbered id (labels.resolve operand m) = unnumbered id (labels.resolve operand n) := by
  unfold LabelTable.resolve
  split <;> rfl

theorem unnumbered_forwardTarget (distance : Nat) :
    unnumbered id (layout.forwardTarget index distance m)
      = unnumbered id (layout.forwardTarget index distance n) := by
  unfold Layout.forwardTarget
  dsimp only
  split <;> rfl

theorem unnumbered_readValue :
    unnumbered id (readValue layout index m operand)
      = unnumbered id (readValue layout index n operand) := by
  unfold readValue
  split
  · split
    · rfl
    · exact unnumbered_map (unnumbered_forwardTarget layout index m n _)
  · split <;> rfl
  · exact unnumbered_map (unnumbered_resolve m n _ _)
  · split
    · rfl
    · exact unnumbered_map (unnumbered_resolve m n _ _)

/-- **An instruction is encoded** by its mnemonic and operands. -/
theorem unnumbered_encode (mnemonic : Mnemonic) (operands : List String) :
    unnumbered id (Instruction.encode layout index ⟨m, mnemonic, operands⟩)
      = unnumbered id (Instruction.encode layout index ⟨n, mnemonic, operands⟩) := by
  have hregister := unnumbered_readRegister m n
  have hvalue := unnumbered_readValue layout index m n
  unfold Instruction.encode
  dsimp only
  split
  · exact unnumbered_bind_id (hregister _) fun _ => unnumbered_bind_id (hregister _) fun _ =>
      unnumbered_bind_id (hregister _) fun _ => rfl
  · exact unnumbered_bind_id (hregister _) fun _ => unnumbered_bind_id (hvalue _) fun _ => rfl
  · exact unnumbered_bind_id (hregister _) fun _ => unnumbered_bind_id (hregister _) fun _ => rfl
  · exact unnumbered_bind_id (unnumbered_readJumpTarget m n _) fun _ => rfl
  · exact unnumbered_bind_id (hregister _) fun _ => unnumbered_bind_id (hregister _) fun _ => rfl
  · exact unnumbered_bind_id (hregister _) fun _ => unnumbered_bind_id (hvalue _) fun _ => rfl
  · rfl

end Encoding

theorem unnumbered_encodeFrom (layout : Layout) (index : Nat) {is js : List Instruction}
    (h : is.map (fun i => (i.mnemonic, i.operands)) = js.map fun i => (i.mnemonic, i.operands)) :
    unnumbered (List.map CodeByte.value) (encodeFrom layout index is)
      = unnumbered (List.map CodeByte.value) (encodeFrom layout index js) := by
  induction is generalizing index js with
  | nil =>
    cases List.map_eq_nil_iff.mp h.symm
    rfl
  | cons i is ih =>
    obtain ⟨j, js, rfl, hj, hjs⟩ := List.map_eq_cons_iff.mp h.symm
    obtain ⟨m, mnemonic, operands⟩ := i
    obtain ⟨n, _, _⟩ := j
    cases hj
    refine unnumbered_bind_id (unnumbered_encode layout index m n mnemonic operands) fun bytes =>
      unnumbered_bind (ih (index + 1) hjs.symm) fun more more' hmore => congrArg Except.ok ?_
    rw [List.map_append, List.map_append, hmore, List.map_map, List.map_map]
    rfl

/-! ## Layout -/

theorem unnumbered_defineLabels (offset : Nat) (labels : LabelTable) {ls ks : List SourceLine}
    (h : ls.map (·.content) = ks.map (·.content)) :
    unnumbered id (defineLabels offset labels ls)
      = unnumbered id (defineLabels offset labels ks) := by
  induction ls generalizing offset labels ks with
  | nil =>
    cases List.map_eq_nil_iff.mp h.symm
    rfl
  | cons l ls ih =>
    obtain ⟨k, ks, rfl, hk, hks⟩ := List.map_eq_cons_iff.mp h.symm
    obtain ⟨m, content⟩ := l
    obtain ⟨n, _⟩ := k
    cases hk
    cases content with
    | label name =>
      unfold defineLabels LabelTable.define
      dsimp only
      split
      next hdefined =>
        split at hdefined
        next => exact nomatch hdefined
        next hnew =>
          cases hdefined
          rw [if_neg hnew]
          exact ih offset _ hks.symm
      next hdefined =>
        split at hdefined
        next hold =>
          cases hdefined
          rw [if_pos hold]
          rfl
        next => exact nomatch hdefined
    | instruction mnemonic operands => exact ih (offset + mnemonic.length) labels hks.symm

/-- **Lines are laid out** by what they hold. -/
theorem unnumbered_ofLines {ls ks : List SourceLine}
    (h : ls.map (·.content) = ks.map (·.content)) :
    unnumbered id (Layout.ofLines ls) = unnumbered id (Layout.ofLines ks) := by
  have hlengths : ∀ lines : List SourceLine,
      (lines.filterMap SourceLine.instruction?).map (·.mnemonic.length)
        = ((lines.map (·.content)).filterMap LineContent.instruction?).map (·.1.length) := by
    intro lines
    rw [← map_instructionsOf, List.map_map]
    rfl
  have hlabels := unnumbered_defineLabels 0 ∅ h
  unfold Layout.ofLines
  rw [hlengths, hlengths, h]
  cases hls : defineLabels 0 ∅ ls <;> cases hks : defineLabels 0 ∅ ks <;> rw [hls, hks] at hlabels
  next e e' => exact congrArg Except.error (Except.error.inj hlabels)
  next => exact nomatch hlabels
  next => exact nomatch hlabels
  next table table' =>
    have heq : table = table' := Except.ok.inj hlabels
    rw [heq]

/-! ## Lines that say nothing -/

namespace SourceLine

/-- Whether a line says something, be it right or wrong. -/
def speaks (raw : List Char) : Bool :=
  match read 0 raw with
  | .ok none => false
  | _ => true

/-- What a line holds does not depend on where it stands. -/
theorem unnumbered_read (m n : Nat) (raw : List Char) :
    unnumbered (Option.map SourceLine.content) (read m raw)
      = unnumbered (Option.map SourceLine.content) (read n raw) := by
  unfold read
  dsimp only
  split
  · split <;> rfl
  · split
    · rfl
    · split <;> rfl

theorem speaks_eq_false_iff {raw : List Char} : speaks raw = false ↔ LineHolds raw none := by
  constructor
  · intro h number
    have hread := unnumbered_read 0 number raw
    unfold speaks at h
    split at h
    next hnone =>
      rw [hnone] at hread
      cases hnumber : read number raw with
      | error e =>
        rw [hnumber] at hread
        exact nomatch hread
      | ok line =>
        rw [hnumber] at hread
        cases line with
        | none => rfl
        | some line => exact nomatch Except.ok.inj hread
    next => exact nomatch h
  · intro h
    unfold speaks
    rw [h 0]
    rfl

/-- **Reading passes over the lines that say nothing**: a text is read to the same
contents, or the same fault, without them. -/
theorem unnumbered_readFrom (m n : Nat) (raws : List (List Char)) :
    unnumbered (List.map SourceLine.content) (readFrom m raws)
      = unnumbered (List.map SourceLine.content) (readFrom n (raws.filter speaks)) := by
  induction raws generalizing m n with
  | nil => rfl
  | cons raw raws ih =>
    cases hspeaks : speaks raw with
    | false =>
      have hsilent : readFrom m (raw :: raws) = readFrom (m + 1) raws := by
        rw [readFrom, speaks_eq_false_iff.mp hspeaks m]
        exact bind_pure (readFrom (m + 1) raws)
      rw [hsilent, List.filter_cons_of_neg (by rw [hspeaks]; exact Bool.false_ne_true)]
      exact ih (m + 1) n
    | true =>
      rw [List.filter_cons_of_pos hspeaks]
      refine unnumbered_bind (unnumbered_read m n raw) fun line line' hline =>
        unnumbered_bind (ih (m + 1) (n + 1)) fun more more' hmore => congrArg Except.ok ?_
      rw [List.map_append, List.map_append, hmore, ← Option.toList_map, ← Option.toList_map,
        hline]

end SourceLine

/-- **Texts that say the same are assembled to the same**: code, labels or fault depend
on the lines that say something, and not on where these stand. -/
theorem unnumbered_assemble {source source' : String} {raws raws' : List (List Char)}
    (hraws : ∀ raw ∈ raws, '\n' ∉ raw) (hraws' : ∀ raw ∈ raws', '\n' ∉ raw)
    (hsource : source.toList = Text.ofLines raws) (hsource' : source'.toList = Text.ofLines raws')
    (h : raws.filter SourceLine.speaks = raws'.filter SourceLine.speaks) :
    unnumbered (fun o => (o.code, o.labels)) (assemble source)
      = unnumbered (fun o => (o.code, o.labels)) (assemble source') := by
  have hread : unnumbered (List.map SourceLine.content) (SourceLine.readAll source)
      = unnumbered (List.map SourceLine.content) (SourceLine.readAll source') := by
    unfold SourceLine.readAll
    rw [hsource, hsource', Text.lines_ofLines hraws, Text.lines_ofLines hraws',
      SourceLine.readFrom_map_dropReturn, SourceLine.readFrom_map_dropReturn,
      SourceLine.unnumbered_readFrom 1 1, h, ← SourceLine.unnumbered_readFrom 1 1]
  refine unnumbered_bind hread fun ls ks hcontents =>
    unnumbered_bind_id (unnumbered_ofLines hcontents) fun layout =>
      unnumbered_bind (unnumbered_encodeFrom layout 0 ?_) fun bytes bytes' hbytes => ?_
  · have hls := map_instructionsOf ls
    rw [hcontents, ← map_instructionsOf] at hls
    exact hls
  · exact congrArg (fun code => Except.ok (code, layout.labels)) hbytes

/-! ## Lines of a build -/

/-- **The lines of a fragment that say something** are the same with and without
comments. -/
theorem Fragment.filter_lines (f : Fragment) (comments : Bool) :
    (f.lines comments).filter SourceLine.speaks
      = (f.map (·.text.toList)).filter SourceLine.speaks := by
  have hcomment : ∀ text, SourceLine.speaks (Item.comment text).text.toList = false := by
    intro text
    rw [SourceLine.speaks_eq_false_iff, Item.text, String.toList_append]
    exact lineHolds_comment _
  have hshown : ((f.shown comments).map (·.text.toList)).filter SourceLine.speaks
      = (f.map (·.text.toList)).filter SourceLine.speaks := by
    unfold shown
    rw [List.filter_map, List.filter_map, List.filter_filter]
    congr 2
    funext item
    cases item with
    | comment text =>
      rw [Function.comp_apply, hcomment]
      rfl
    | instr | label | raw => cases comments <;> simp [Item.isComment]
  rw [← hshown]
  -- the empty line of a fragment that shows nothing says nothing
  unfold lines
  split
  next hnil =>
    rw [hnil]
    rfl
  next => rfl

theorem Runtime.filter_lines (body functions : Fragment) (comments comments' : Bool) :
    (lines body functions comments).filter SourceLine.speaks
      = (lines body functions comments').filter SourceLine.speaks := by
  unfold lines
  simp only [List.filter_cons, List.filter_append, Fragment.filter_lines]

/-- **The text of a build says the same with and without comments.** -/
theorem Template.unnumbered_assemble_render {body functions : Fragment}
    (hbody : ∀ item ∈ body, Text.IsLine item.text.toList)
    (hfunctions : ∀ item ∈ functions, Text.IsLine item.text.toList) (comments comments' : Bool) :
    unnumbered (fun o => (o.code, o.labels))
        (assemble (render base (body.render comments) (functions.render comments)))
      = unnumbered (fun o => (o.code, o.labels))
        (assemble (render base (body.render comments') (functions.render comments'))) :=
  unnumbered_assemble (Runtime.newline_not_mem_lines hbody hfunctions)
    (Runtime.newline_not_mem_lines hbody hfunctions) (toList_render_lines hbody hfunctions)
    (toList_render_lines hbody hfunctions) (Runtime.filter_lines _ _ _ _)

/-! ## Plain names -/

/-- **The statements that declare plain names** and include plain paths, as far as a
statement goes itself. -/
def Stmt.PlainlyNamed : Stmt → Prop
  | declare _ _ name _ | declareList _ name _ _ _ => Text.IsPlain name
  | unroll _ var _ _ => Text.IsPlain var
  | function _ name formals _ => Text.IsPlain name ∧ ∀ p ∈ formals, Text.IsPlain p.name
  | space _ name _ => Text.IsPlain name
  | unit _ path _ => Text.IsPlain path
  | _ => True

/-- The vocabulary of programs with plain names. -/
def Vocabulary.plainly (labels : List String) : Vocabulary where
  target l := l ∈ labels
  label := Text.IsPlain
  name := Text.IsPlain
  plain := True
  embeds := True
  isPlain_name _ _ h := h

theorem Vocabulary.complete_plainly (labels : List String) : (plainly labels).Complete where
  block b index l hl := by
    have hstems : ∀ stem ∈ Block.stems, Text.IsPlain stem := by decide
    obtain ⟨stem, hstem, rfl⟩ := Block.exists_stem_of_mem_labels hl
    exact .append (hstems stem hstem) (.decimal index)
  function path name hpath hname := by
    refine .intercalate (by decide) (List.forall_mem_append.mpr ⟨hpath, ?_⟩)
    exact List.forall_mem_singleton.mpr hname

theorem Stmt.PlainlyNamed.fits {stmt : Stmt} (h : stmt.PlainlyNamed) (labels : List String) :
    stmt.Fits (.plainly labels) := by
  cases stmt with
  | unit line path body => exact fun _ => h
  | _ => exact h

/-- **Every item of a program with plain names is a line**, also what is embedded. -/
theorem isLine_of_compileAll {config : Config} {stmts : List Stmt} {s : Scope}
    (hnames : ∀ part ∈ partsAll stmts, part.PlainlyNamed)
    (h : compileAll stmts (Scope.root config) = .ok () s) :
    (∀ item ∈ s.body, Text.IsLine item.text.toList)
      ∧ ∀ item ∈ s.definitions, Text.IsLine item.text.toList := by
  have hwritten := Scope.Written.of_compileAll (Vocabulary.complete_plainly _)
    (fun part hpart => (hnames part hpart).fits _) h fun l hl => hl
  have hplain : (Vocabulary.plainly (Fragment.labels (s.body ++ s.definitions))).Plain := by
    refine ⟨fun l hl => ?_, fun _ hl => hl, trivial⟩
    -- the labels that are named are among those that are defined, and these are plain
    obtain ⟨item, hitem, hlabel⟩ := List.mem_filterMap.mp hl
    have huses := (hwritten.body.append hwritten.definitions).items item hitem
    cases item with
    | label name =>
      cases hlabel
      exact huses
    | instr | comment | raw => exact nomatch hlabel
  exact ⟨fun item hitem => hplain.isLine (hwritten.body.items item hitem),
    fun item hitem => hplain.isLine (hwritten.definitions.items item hitem)⟩

/-! ## Builds -/

/-- **Two builds come to the same**: to programs with the same code, labels and number
of warnings, or to the same error, up to the line of the assembly text that it was
found on. -/
inductive SameBuild : Except BuildError Build → Except BuildError Build → Prop
  | built {b b' : Build} (hcode : b.object.code = b'.object.code)
      (hlabels : b.object.labels = b'.object.labels)
      (hwarnings : b.program.warnings = b'.program.warnings) : SameBuild (.ok b) (.ok b')
  | notCompiled (e : CompileError) : SameBuild (.error (.compile e)) (.error (.compile e))
  | notAssembled {e e' : AsmError} (hfault : e.fault = e'.fault) :
      SameBuild (.error (.assemble e)) (.error (.assemble e'))

/-- The top-level scopes of builds with and without comments are alike to someone who
looks away from comments. -/
theorem Scope.alike_root (config : Config) (comments comments' : Bool) :
    (root { config with comments := comments }).Alike ⟨false, true⟩ [] []
      (root { config with comments := comments' }) where
  symbols := rfl
  labels := rfl
  functionLabels := rfl
  warnings := rfl
  mode := rfl
  link := rfl
  path := rfl
  config := rfl
  exports := rfl
  body := rfl
  definitions := rfl

/-- **Comments do not change a program.** A program whose names and paths are plain,
whatever it embeds, is built to the same code and labels with the same number of
warnings whether comments are written or not, or else fails either way with the
same error. -/
theorem sameBuild_of_comments (config : Config) {stmts : List Stmt}
    (hnames : ∀ part ∈ partsAll stmts, part.PlainlyNamed) (comments comments' : Bool) :
    SameBuild (build { config with comments := comments } Template.base stmts)
      (build { config with comments := comments' } Template.base stmts) := by
  have hagree := blind_compileAll ⟨false, true⟩ stmts (Scope.alike_root config comments comments')
  unfold build Program.compile
  cases hs : compileAll stmts (Scope.root { config with comments := comments }) <;>
    cases ht : compileAll stmts (Scope.root { config with comments := comments' }) <;>
    rw [hs, ht] at hagree <;> cases hagree
  next _ s _ t _ halike =>
    obtain ⟨hbody, hdefinitions⟩ := isLine_of_compileAll hnames hs
    have hscomments : s.config.comments = comments := by
      rw [(compileAll_stays stmts hs).config]
      rfl
    have htcomments : t.config.comments = comments' := by
      rw [(compileAll_stays stmts ht).config]
      rfl
    -- both texts are made from the same streams
    have htbody : t.body = s.body := halike.body.symm
    have htdefinitions : t.definitions = s.definitions := halike.definitions.symm
    have hassemble := Template.unnumbered_assemble_render hbody hdefinitions comments comments'
    dsimp only [Program.ofScope, Program.bodyText, Program.definitionsText]
    rw [hscomments, htcomments, htbody, htdefinitions]
    cases ho : assemble (Template.render Template.base (s.body.render comments)
        (s.definitions.render comments)) <;>
      cases ho' : assemble (Template.render Template.base (s.body.render comments')
        (s.definitions.render comments')) <;> rw [ho, ho'] at hassemble
    next => exact .notAssembled (Except.error.inj hassemble)
    next => exact nomatch hassemble
    next => exact nomatch hassemble
    next =>
      obtain ⟨hcode, hlabels⟩ := Prod.mk.inj (Except.ok.inj hassemble)
      exact .built hcode hlabels halike.warnings
  next e _ _ _ => exact .notCompiled e

/-- A program that is compiled, but that the assembler refuses: the name of its function
is plain and has a blank in it, so that the call is read with an operand too many.
Whether comments are written decides on which line this is found. -/
def spacedCall : List Stmt :=
  [.unit 1 "lib" [.function 2 "a b" [⟨"x", .scalar .int⟩] []],
    .embed 3 "mov r1, r2 ; \x7bfunc_code\n", .call 4 none "a b" [.int 1]]

theorem sameBuild_of_comments_spacedCall :
    (∀ part ∈ partsAll spacedCall, part.PlainlyNamed)
      ∧ CompileM.succeeds (compileAll spacedCall) (Scope.root {}) = true
      ∧ SameBuild (build { ({} : Config) with comments := true } Template.base spacedCall)
        (build { ({} : Config) with comments := false } Template.base spacedCall) := by
  have hnames : ∀ part ∈ partsAll spacedCall, part.PlainlyNamed := by
    simp [spacedCall, partsAll, Stmt.parts, Stmt.PlainlyNamed]
    decide
  exact ⟨hnames, by decide +kernel, sameBuild_of_comments {} hnames true false⟩

end RegMachine
