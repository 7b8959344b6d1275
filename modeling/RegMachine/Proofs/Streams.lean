import RegMachine.Proofs.Labels

/-!
# What a program's streams are written with

A vocabulary that allows the labels of blocks and of functions is used by
everything that a program is compiled to, as long as the statements of the
program fit it (`Scope.Written.of_compileAll`).

A branch names its own labels, and a body may call the function that it belongs
to before that function's label is placed. So the labels that code names are
among those that the code of the whole program defines, and no smaller piece
would do: the statement here is about a vocabulary whose targets include the
labels of the code that a run ends with (`Fragment.Known`).
-/

namespace RegMachine

/-! ## Parts -/

mutual

/-- A statement and all statements inside it. -/
def Stmt.parts : Stmt → List Stmt
  | .branch line cond thenBody elseBody =>
    .branch line cond thenBody elseBody :: (partsAll thenBody ++ partsAll elseBody)
  | .loop line cond body => .loop line cond body :: partsAll body
  | .unroll line var iterable body => .unroll line var iterable body :: partsAll body
  | .function line name formals body => .function line name formals body :: partsAll body
  | .space line name body => .space line name body :: partsAll body
  | .unit line path body => .unit line path body :: partsAll body
  | stmt => [stmt]

/-- **All statements of a program**, at any depth. -/
def partsAll : List Stmt → List Stmt
  | [] => []
  | stmt :: rest => stmt.parts ++ partsAll rest

end

/-- A statement is a part of itself. -/
theorem Stmt.mem_parts_self (stmt : Stmt) : stmt ∈ stmt.parts := by
  cases stmt <;> exact List.mem_cons_self

/-- **The parts of a program** are those of its statements. -/
theorem mem_partsAll_iff {part : Stmt} {stmts : List Stmt} :
    part ∈ partsAll stmts ↔ ∃ stmt ∈ stmts, part ∈ stmt.parts := by
  induction stmts with
  | nil => simp [partsAll]
  | cons first rest ih =>
    simp only [partsAll, List.mem_append, List.mem_cons, exists_eq_or_imp, ih]

theorem mem_partsAll {part stmt : Stmt} {stmts : List Stmt} (hpart : part ∈ stmt.parts)
    (hstmt : stmt ∈ stmts) : part ∈ partsAll stmts :=
  mem_partsAll_iff.mpr ⟨stmt, hstmt, hpart⟩

/-! ## Known labels -/

/-- **The labels that a fragment defines are known** to a vocabulary, as labels
that instructions may name. -/
def Fragment.Known (v : Vocabulary) (f : Fragment) : Prop := ∀ l ∈ f.labels, v.target l

namespace Fragment

variable {v : Vocabulary} {f g : Fragment}

@[simp]
theorem known_nil : Known v [] := nofun

/-- The labels of a whole are those of its parts. -/
@[simp]
theorem known_append : Known v (f ++ g) ↔ Known v f ∧ Known v g := by
  unfold Known
  rw [labels_append, List.forall_mem_append]

/-- A label that is placed has to be known. Instructions and comments place
none. -/
@[simp]
theorem known_label_cons {name : String} :
    Known v (.label name :: f) ↔ v.target name ∧ Known v f := by
  unfold Known
  exact List.forall_mem_cons

@[simp]
theorem known_comment_cons {text : String} : Known v (.comment text :: f) ↔ Known v f := Iff.rfl

@[simp]
theorem known_ldr_cons {rd : Reg} {src : Operand} :
    Known v (.ldr rd src :: f) ↔ Known v f := Iff.rfl

@[simp]
theorem known_jpr_cons {r : Reg} : Known v (.jpr r :: f) ↔ Known v f := Iff.rfl

@[simp]
theorem known_mov_cons {rd rs : Reg} : Known v (.mov rd rs :: f) ↔ Known v f := Iff.rfl

end Fragment

/-! ## Written scopes -/

/-- **A vocabulary for whole programs**: it also allows to define the labels of
blocks, and those of functions of the names that it allows. -/
structure Vocabulary.Complete (v : Vocabulary) : Prop where
  block : ∀ (b : Block) (index : Nat), ∀ l ∈ b.labels index, v.label l
  function : ∀ path name, (∀ n ∈ path, v.name n) → v.name name →
    v.label ("::".intercalate (path ++ [name]))

/-- **A scope is written with a vocabulary**, together with code that is still to
be placed. -/
structure Scope.Written (v : Vocabulary) (s : Scope) (code : Fragment) : Prop where
  symbols : s.symbols.Fits v
  path : ∀ n ∈ s.path, v.name n
  code : code.Uses v
  body : s.body.Uses v
  definitions : s.definitions.Uses v

namespace Scope.Written

variable {v : Vocabulary} {s child : Scope} {code : Fragment}

/-- Code may be put in place of other code. -/
theorem replace (h : s.Written v code) {code' : Fragment} (hcode : code'.Uses v) :
    s.Written v code' :=
  ⟨h.symbols, h.path, hcode, h.body, h.definitions⟩

/-- A child starts with empty streams, and without symbols that its parent
lacks. -/
theorem fork (h : s.Written v code) (link : Link) : (s.fork link).Written v [] := by
  refine ⟨?_, h.path, .nil, .nil, .nil⟩
  cases link with
  | isolated => exact .startingAt _ _
  | copy | shared | passThrough => exact h.symbols

/-- **Code that is written moves into a stream**, and nothing is left to be
placed. -/
theorem emit {stream : Stream} (h : s.Written v code) : (s.emit stream code).Written v [] := by
  cases stream with
  | body => exact ⟨h.symbols, h.path, .nil, h.body.append h.code, h.definitions⟩
  | definitions => exact ⟨h.symbols, h.path, .nil, h.body, h.definitions.append h.code⟩
  | silent => exact h.replace .nil

/-- What a simple statement binds is written with the vocabulary, if its names
are. -/
theorem edits {names : String → Prop} {s' : Scope}
    (hnames : v.plain → ∀ n, names n → Text.IsPlain n) (hedits : s.Edits names s')
    (h : s.Written v code) : s'.Written v code := by
  have hsymbols := Symbols.Fits.of_steps hnames hedits.steps h.symbols
  rw [hedits.rest] at hsymbols ⊢
  exact ⟨hsymbols, h.path, h.code, h.body, h.definitions⟩

/-- **Folding a child back** keeps a scope written. -/
theorem sync (h : s.Written v code) (hchild : child.Written v []) :
    (s.sync child).Written v code := by
  refine ⟨?_, h.path, h.code, h.body, h.definitions.append hchild.definitions⟩
  by_cases hshared : child.link = .shared
  · show (s.syncSymbols child).Fits v
    unfold Scope.syncSymbols
    rw [hshared]
    exact hchild.symbols
  · have hadopt : (s.symbols.adoptCursors child.symbols).Fits v :=
      ⟨h.symbols.vars, h.symbols.functions, h.symbols.namespaces⟩
    exact .of_imports (Scope.imports_syncSymbols hshared) hchild.symbols hadopt

end Scope.Written

/-! ## Statements -/

/-- What is written in the end: a scope, once all labels that it and code still
to be placed define are known. -/
def Scope.WrittenIfKnown (v : Vocabulary) (s : Scope) (code : Fragment) : Prop :=
  code.Known v → s.body.Known v → s.definitions.Known v → s.Written v code

/-- A statement keeps its scope written. -/
def Stmt.Writes (v : Vocabulary) (stmt : Stmt) : Prop :=
  ∀ s code s', s.WrittenIfKnown v [] → stmt.compile s = .ok code s' → s'.WrittenIfKnown v code

/-- **Along a list of statements** the streams stay written with the vocabulary,
as long as the labels in them are known. -/
theorem writtenIfKnown_of_compileAll {v : Vocabulary} {stmts : List Stmt}
    (hstmts : ∀ stmt ∈ stmts, stmt.Writes v) {s s' : Scope} (hs : s.WrittenIfKnown v [])
    (h : compileAll stmts s = .ok () s') : s'.WrittenIfKnown v [] := by
  refine invariant_of_compileAll hstmts (fun t stream code hsilent ht => ?_) hs h
  intro _ hbody hdefinitions
  cases stream with
  | body =>
    rw [Scope.emit, Fragment.known_append] at hbody
    exact (ht hbody.2 hbody.1 hdefinitions).emit
  | definitions =>
    rw [Scope.emit, Fragment.known_append] at hdefinitions
    exact (ht hdefinitions.2 hbody hdefinitions.1).emit
  | silent =>
    rw [hsilent rfl] at ht ⊢
    exact (ht Fragment.known_nil hbody hdefinitions).emit

namespace Scope.Written

variable {v : Vocabulary} {s child : Scope} {code : Fragment} {stmts : List Stmt}

/-- The scope of a block is written when the block is compiled. -/
theorem of_block (hstmts : ∀ stmt ∈ stmts, stmt.Writes v) (hs : s.Written v [])
    (h : compileAll stmts s = .ok () child) (hbody : child.body.Known v)
    (hdefinitions : child.definitions.Known v) : child.Written v [] :=
  writtenIfKnown_of_compileAll hstmts (fun _ _ _ => hs) h Fragment.known_nil hbody hdefinitions

theorem nextLabel (h : s.Written v code) : s.nextLabel.Written v code :=
  ⟨h.symbols, h.path, h.code, h.body, h.definitions⟩

end Scope.Written

section

variable {v : Vocabulary} {line : Nat}

/-- A branch names labels that its own code places, so they are known if that
code is. -/
theorem Stmt.writes_branch (hv : v.Complete) {cond : Condition} {thenBody elseBody : List Stmt}
    (ih₁ : ∀ stmt ∈ thenBody, stmt.Writes v) (ih₂ : ∀ stmt ∈ elseBody, stmt.Writes v) :
    (Stmt.branch line cond thenBody elseBody).Writes v := by
  intro s code s' hs h hcode hbody hdefinitions
  obtain ⟨test, first, second, htest, hfirst, hsecond, rfl, rfl⟩ := CompileM.branch_eq_ok_iff.mp h
  simp only [List.cons_append, Fragment.known_comment_cons, Fragment.known_ldr_cons,
    Fragment.known_append, Fragment.known_jpr_cons, Fragment.known_label_cons] at hcode
  -- both labels are named before they are placed
  obtain ⟨⟨⟨⟨-, hfirstBody⟩, hifEnd, -⟩, hsecondBody⟩, helseEnd, -⟩ := hcode
  rw [Scope.sync, Fragment.known_append, Scope.sync, Fragment.known_append] at hdefinitions
  obtain ⟨⟨hown, hfirstDefinitions⟩, hsecondDefinitions⟩ := hdefinitions
  have hwritten := (hs Fragment.known_nil hbody hown).nextLabel
  have hfirst' := (hwritten.fork .copy).of_block ih₁ hfirst hfirstBody hfirstDefinitions
  have hmid := hwritten.sync hfirst'
  have hsecond' := (hmid.fork .copy).of_block ih₂ hsecond hsecondBody hsecondDefinitions
  refine (hmid.sync hsecond').replace ?_
  have hlabels := hv.block .branch s.labels
  exact .append (.append (.append (.append (.comment_cons (fun _ => cond.isPlain_comment)
    (.ldr_label_cons hifEnd _ (Env.uses_condition htest))) hfirst'.body)
    (.ldr_label_cons helseEnd _ (.instr_cons rfl rfl
      (.label_cons (hlabels _ List.mem_cons_self) .nil)))) hsecond'.body)
    (.label_cons (hlabels _ (List.mem_cons_of_mem _ List.mem_cons_self)) .nil)

theorem Stmt.writes_loop (hv : v.Complete) {cond : Condition} {body : List Stmt}
    (ih : ∀ stmt ∈ body, stmt.Writes v) : (Stmt.loop line cond body).Writes v := by
  intro s code s' hs h hcode hbody hdefinitions
  obtain ⟨test, child, htest, hchild, rfl, rfl⟩ := CompileM.loop_eq_ok_iff.mp h
  simp only [List.cons_append, Fragment.known_ldr_cons, Fragment.known_append,
    Fragment.known_jpr_cons, Fragment.known_label_cons] at hcode
  obtain ⟨hstart, ⟨-, hchildBody⟩, hstop, -⟩ := hcode
  rw [Scope.sync, Fragment.known_append] at hdefinitions
  have hwritten := (hs Fragment.known_nil hbody hdefinitions.1).nextLabel
  have hchild' := (hwritten.fork .copy).of_block ih hchild hchildBody hdefinitions.2
  refine (hwritten.sync hchild').replace ?_
  have hlabels := hv.block .loop s.labels
  exact .append (.append (.label_cons (hlabels _ List.mem_cons_self)
    (.ldr_label_cons hstop _ (Env.uses_condition htest))) hchild'.body)
    (.ldr_label_cons hstart _ (.instr_cons rfl rfl
      (.label_cons (hlabels _ (List.mem_cons_of_mem _ List.mem_cons_self)) .nil)))

theorem Stmt.writes_unroll {var iterable : String} {body : List Stmt} (hvar : v.name var)
    (ih : ∀ stmt ∈ body, stmt.Writes v) : (Stmt.unroll line var iterable body).Writes v := by
  intro s code s' hs h hcode hbody hdefinitions
  obtain ⟨w, element, len, child, -, -, -, hcopies, rfl, rfl⟩ := CompileM.unroll_eq_ok_iff.mp h
  rw [Scope.sync, Fragment.known_append] at hdefinitions
  have hwritten := hs Fragment.known_nil hbody hdefinitions.1
  have hplain : v.plain → Text.IsPlain var := fun hplain => v.isPlain_name hplain var hvar
  have hstart : (s.forkIndexed var).Written v [] := by
    have hmoved : Symbols.Fits v { s.symbols with
        nextAddress := addressAfter s.symbols.nextAddress Scalar.int.size } :=
      ⟨hwritten.symbols.vars, hwritten.symbols.functions, hwritten.symbols.namespaces⟩
    exact ⟨hmoved.insertVariable _ hplain, hwritten.path, .nil, .nil, .nil⟩
  have hindex : ∀ address index, (Fragment.setIndex var address index).Uses v := by
    intro address index
    refine .comment_cons (fun h => ?_) (.loadLiteral_cons _ _ _ (.storeTo _ _))
    exact .append (.append (hplain h) (by decide)) (.decimal index)
  have hchild : child.WrittenIfKnown v [] := by
    refine CompileM.invariant_of_copies (fun _ _ ht h => writtenIfKnown_of_compileAll ih ht h)
      (fun t index ht => ?_) (fun t value t' ht h => ?_) (fun _ _ _ => hstart) hcopies
    · intro _ htBody htDefinitions
      rw [Scope.emit, Fragment.known_append] at htBody
      exact ((ht Fragment.known_nil htBody.1 htDefinitions).replace (hindex _ index)).emit
    · intro _ htBody htDefinitions
      have hedits : t.Edits (fun _ => False) t' := CompileM.edits_setValue var value h
      rw [hedits.rest] at htBody htDefinitions
      exact .edits (fun _ _ => False.elim) hedits (ht Fragment.known_nil htBody htDefinitions)
  have hchild' := hchild Fragment.known_nil hcode hdefinitions.2
  exact (hwritten.sync hchild').replace hchild'.body

/-- **A function may call itself.** Its label is known because its own code
places it, behind the call. -/
theorem Stmt.writes_function (hv : v.Complete) {name : String} {formals : List Formal}
    {body : List Stmt} (hname : v.name name) (hformals : ∀ p ∈ formals, v.name p.name)
    (ih : ∀ stmt ∈ body, stmt.Writes v) : (Stmt.function line name formals body).Writes v := by
  intro s code s' hs h hcode hbody hdefinitions
  obtain ⟨params, slot, start, inner, child, -, hparams, hinner, hslot, rfl, hdeclare⟩ :=
    CompileM.function_eq_ok_iff.mp h
  obtain rfl := CompileM.declareFunction_eq_ok_iff.mp hdeclare
  have hallocate : inner.Edits (fun _ => False) child := CompileM.edits_allocate 4 hslot
  unfold CompileM.functionCode at hcode ⊢
  simp only [List.cons_append, Fragment.known_label_cons, Fragment.known_comment_cons,
    Fragment.known_mov_cons, Fragment.known_append] at hcode
  obtain ⟨hlabel, ⟨⟨-, hchildBody⟩, -⟩, -⟩ := hcode
  replace hdefinitions : (s.definitions ++ child.definitions).Known v := hdefinitions
  rw [Fragment.known_append] at hdefinitions
  have hwritten := hs Fragment.known_nil hbody hdefinitions.1
  have hplainLabel : v.plain → Text.IsPlain (s.qualify name) := by
    intro hplain
    refine .intercalate (by decide) (List.forall_mem_append.mpr ⟨fun n hn => ?_, ?_⟩)
    · exact v.isPlain_name hplain n (hwritten.path n hn)
    · exact List.forall_mem_singleton.mpr (v.isPlain_name hplain name hname)
  have hparamNames : ∀ p ∈ params, v.plain → Text.IsPlain p.name := by
    intro p hp hplain
    have hmem : p.name ∈ formals.map (·.name) :=
      CompileM.names_of_declareParams hparams ▸ List.mem_map_of_mem hp
    obtain ⟨formal, hformal, heq⟩ := List.mem_map.mp hmem
    exact heq ▸ v.isPlain_name hplain _ (hformals formal hformal)
  have hedits : Scope.Edits (fun other => ∃ p ∈ formals, CompileM.BoundBy p.name other) _ start :=
    CompileM.edits_declareParams (fun p hp other hother => ⟨p, hp, hother⟩) hparams
  have hclaimed : Scope.Written v
      { s with functionLabels := s.functionLabels ++ [s.qualify name] } [] :=
    ⟨hwritten.symbols, hwritten.path, .nil, hwritten.body, hwritten.definitions⟩
  have hstart : start.Written v [] := by
    refine .edits (fun hplain n hn => ?_) hedits (hclaimed.fork .copy)
    obtain ⟨p, hp, hbound⟩ := hn
    exact CompileM.isPlain_of_boundBy (v.isPlain_name hplain _ (hformals p hp)) hbound
  -- the body may call the function: its label is known, although it is not yet placed
  have hstub : Scope.Written v { start with
      symbols := start.symbols.insertFunction name (.stub name (s.qualify name) params)
      exports := start.exports ++ [.function name] } [] :=
    ⟨hstart.symbols.insertFunction name ⟨hlabel, hplainLabel, hparamNames⟩, hstart.path, .nil,
      hstart.body, hstart.definitions⟩
  have hchild : child.Written v [] := by
    refine .edits (fun _ _ => False.elim) hallocate (hstub.of_block ih hinner ?_ ?_)
    · rw [hallocate.rest] at hchildBody
      exact hchildBody
    · rw [hallocate.rest] at hdefinitions
      exact hdefinitions.2
  have hsynced := hclaimed.sync hchild
  refine ⟨hsynced.symbols.insertFunction name ⟨hlabel, hplainLabel, hparamNames⟩, hsynced.path,
    ?_, hsynced.body, hsynced.definitions⟩
  have hcomment : Text.IsPlain ("return slot " ++ Text.hexAddress slot) :=
    .append (by decide) (.hexAddress slot)
  exact .append (.append (.append (.label_cons (hv.function s.path name hwritten.path hname)
    (.comment_cons (fun _ => hcomment) (.instr_cons rfl rfl (.storeTo _ _)))) hchild.body)
    (.loadFrom _ _)) (.instr_cons rfl rfl .nil)

/-- A namespace hands the code of its block on. -/
theorem Stmt.writes_space {name : String} {body : List Stmt} (hname : v.name name)
    (ih : ∀ stmt ∈ body, stmt.Writes v) : (Stmt.space line name body).Writes v := by
  intro s code s' hs h hcode hbody hdefinitions
  obtain ⟨child, hchild, rfl, hdeclare⟩ := CompileM.space_eq_ok_iff.mp h
  obtain rfl := CompileM.declareNamespace_eq_ok_iff.mp hdeclare
  replace hdefinitions : (s.definitions ++ child.definitions).Known v := hdefinitions
  rw [Fragment.known_append] at hdefinitions
  have hwritten := hs Fragment.known_nil hbody hdefinitions.1
  have hstart : ((s.fork .passThrough).enter name).Written v [] := by
    refine ⟨hwritten.symbols, ?_, .nil, .nil, .nil⟩
    exact List.forall_mem_append.mpr ⟨hwritten.path, List.forall_mem_singleton.mpr hname⟩
  have hchild' := hstart.of_block ih hchild hcode hdefinitions.2
  have hexported : child.exportedSymbols.Fits v :=
    .of_imports child.imports_exportedSymbols hchild'.symbols (.startingAt _ _)
  have hsynced := hwritten.sync hchild'
  exact ⟨hsynced.symbols.insertNamespace name hexported.functions, hsynced.path, hchild'.body,
    hsynced.body, hsynced.definitions⟩

/-- A unit puts a comment with its path in front of the code of its block. -/
theorem Stmt.writes_unit {path : String} {body : List Stmt} (hpath : v.plain → Text.IsPlain path)
    (ih : ∀ stmt ∈ body, stmt.Writes v) : (Stmt.unit line path body).Writes v := by
  intro s code s' hs h hcode hbody hdefinitions
  obtain ⟨child, hchild, rfl, rfl⟩ := CompileM.unit_eq_ok_iff.mp h
  rw [Scope.sync, Fragment.known_append] at hdefinitions
  have hwritten := hs Fragment.known_nil hbody hdefinitions.1
  have hchild' := (hwritten.fork .isolated).of_block ih hchild hcode hdefinitions.2
  refine (hwritten.sync hchild').replace (.comment_cons (fun hplain => ?_) hchild'.body)
  exact .append (by decide) (hpath hplain)

end

/-- The statements of a block write with the vocabulary if all its parts fit it.
-/
theorem writes_of_partsAll {v : Vocabulary} {body : List Stmt}
    (ih : ∀ stmt ∈ body, (∀ part ∈ stmt.parts, part.Fits v) → stmt.Writes v)
    (hfits : ∀ part ∈ partsAll body, part.Fits v) : ∀ stmt ∈ body, stmt.Writes v :=
  fun stmt hstmt => ih stmt hstmt fun part hpart => hfits part (mem_partsAll hpart hstmt)

/-- **Every statement keeps its scope written**, if it fits the vocabulary with
all its parts. -/
theorem Stmt.writes {v : Vocabulary} (hv : v.Complete) (stmt : Stmt)
    (hfits : ∀ part ∈ stmt.parts, part.Fits v) : stmt.Writes v := by
  induction stmt using Stmt.blockInduction with
  | simple stmt hsimple =>
    intro s code s' hs h _ hbody hdefinitions
    have hself : stmt.Fits v := hfits stmt stmt.mem_parts_self
    have hedits := stmt.edits_of_isSimple hsimple h
    rw [hedits.rest] at hbody hdefinitions
    have hwritten := hs Fragment.known_nil hbody hdefinitions
    obtain ⟨hcode, hsymbols⟩ := stmt.uses_of_isSimple hsimple hself hwritten.symbols h
    rw [hedits.rest] at hsymbols ⊢
    exact ⟨hsymbols, hwritten.path, hcode, hwritten.body, hwritten.definitions⟩
  | branch line cond thenBody elseBody ih₁ ih₂ =>
    rw [Stmt.parts, List.forall_mem_cons, List.forall_mem_append] at hfits
    exact Stmt.writes_branch hv (writes_of_partsAll ih₁ hfits.2.1)
      (writes_of_partsAll ih₂ hfits.2.2)
  | loop line cond body ih =>
    rw [Stmt.parts, List.forall_mem_cons] at hfits
    exact Stmt.writes_loop hv (writes_of_partsAll ih hfits.2)
  | unroll line var iterable body ih =>
    rw [Stmt.parts, List.forall_mem_cons] at hfits
    exact Stmt.writes_unroll hfits.1 (writes_of_partsAll ih hfits.2)
  | function line name formals body ih =>
    rw [Stmt.parts, List.forall_mem_cons] at hfits
    exact Stmt.writes_function hv hfits.1.1 hfits.1.2 (writes_of_partsAll ih hfits.2)
  | space line name body ih =>
    rw [Stmt.parts, List.forall_mem_cons] at hfits
    exact Stmt.writes_space hfits.1 (writes_of_partsAll ih hfits.2)
  | unit line path body ih =>
    rw [Stmt.parts, List.forall_mem_cons] at hfits
    exact Stmt.writes_unit hfits.1 (writes_of_partsAll ih hfits.2)

/-- **The streams of a program are written with any complete vocabulary** that
its statements fit, and to which the labels that they define are known. -/
theorem Scope.Written.of_compileAll {v : Vocabulary} (hv : v.Complete) {config : Config}
    {stmts : List Stmt} {s : Scope} (hfits : ∀ part ∈ partsAll stmts, part.Fits v)
    (h : compileAll stmts (Scope.root config) = .ok () s)
    (hknown : Fragment.Known v (s.body ++ s.definitions)) : s.Written v [] := by
  rw [Fragment.known_append] at hknown
  have hroot : (Scope.root config).Written v [] := ⟨.startingAt _ _, nofun, .nil, .nil, .nil⟩
  exact hroot.of_block (writes_of_partsAll (fun stmt _ => stmt.writes hv) hfits) h hknown.1
    hknown.2

end RegMachine
