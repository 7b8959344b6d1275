import RegMachine.Proofs.Events
import RegMachine.Proofs.Vocabulary

/-!
# Labels are issued once

The labels of generated code come from two sources. A branch or a loop takes an
index from a counter and defines two labels with it, and a function claims a
label that no function has claimed before. `Issues` says what it means that a
list of labels was issued while the counter and the claims went from one state
to another: they are, in some order, the labels of one block for every index
that was taken and the labels that were claimed. Such lists can be put together
(`Issues.append`), and every statement issues just the labels that it defines
(`issues_of_compileAll`).

Labels of different blocks differ (`nodup_blockLabels`), and so do those of
functions. Nothing keeps a function from having the label of a block.
-/

namespace RegMachine

/-! ## Blocks -/

/-- What a label index is taken for. -/
inductive Block where
  | branch
  | loop
deriving DecidableEq

/-- The labels of the block of an index. -/
def Block.labels (index : Nat) : Block → List String
  | branch => [(BranchLabels.ofIndex index).ifEnd, (BranchLabels.ofIndex index).elseEnd]
  | loop => [(LoopLabels.ofIndex index).start, (LoopLabels.ofIndex index).stop]

/-- **The labels of blocks** whose indices follow each other. -/
def blockLabels : Nat → List Block → List String
  | _, [] => []
  | index, block :: rest => block.labels index ++ blockLabels (index + 1) rest

/-- Blocks are numbered on from those in front. -/
theorem blockLabels_append (index : Nat) (blocks more : List Block) :
    blockLabels index (blocks ++ more)
      = blockLabels index blocks ++ blockLabels (index + blocks.length) more := by
  induction blocks generalizing index with
  | nil => rfl
  | cons block rest ih =>
    rw [List.cons_append, blockLabels, ih, blockLabels, List.append_assoc, List.length_cons]
    congr 3
    omega

/-! ## Issued labels -/

/-- **Labels were issued** while the label counter went from `index` to `index'`
and the claimed labels from `claimed` to `claimed'`: those of blocks, which
took an index each, and those of functions. -/
structure Issues (index : Nat) (claimed : List String) (blocks : List Block)
    (functions : List String) (index' : Nat) (claimed' labels : List String) : Prop where
  eq_index : index' = index + blocks.length
  eq_claimed : claimed' = claimed ++ functions
  nodup : claimed.Nodup → claimed'.Nodup
  perm_labels : labels.Perm (blockLabels index blocks ++ functions)

namespace Issues

variable {index index₁ index₂ : Nat} {claimed claimed₁ claimed₂ labels more : List String}
variable {blocks₁ blocks₂ : List Block} {functions₁ functions₂ : List String}

protected theorem nil (index : Nat) (claimed : List String) :
    Issues index claimed [] [] index claimed [] :=
  ⟨rfl, (List.append_nil _).symm, id, .refl _⟩

/-- A block takes the next number. -/
theorem block (index : Nat) (claimed : List String) (b : Block) :
    Issues index claimed [b] [] (index + 1) claimed (b.labels index) := by
  refine ⟨rfl, (List.append_nil _).symm, id, ?_⟩
  rw [blockLabels, blockLabels, List.append_nil, List.append_nil]

/-- A function claims a label that was not claimed before. -/
theorem claim (index : Nat) {claimed : List String} {label : String} (h : label ∉ claimed) :
    Issues index claimed [] [label] index (claimed ++ [label]) [label] := by
  refine ⟨rfl, rfl, fun hnodup => ?_, .refl _⟩
  rw [List.nodup_append]
  refine ⟨hnodup, List.pairwise_singleton _ _, ?_⟩
  rintro l hl m hm rfl
  rw [List.mem_singleton] at hm
  exact h (hm ▸ hl)

protected theorem perm (h : Issues index claimed blocks₁ functions₁ index₁ claimed₁ labels)
    (hperm : labels.Perm more) : Issues index claimed blocks₁ functions₁ index₁ claimed₁ more :=
  ⟨h.eq_index, h.eq_claimed, h.nodup, hperm.symm.trans h.perm_labels⟩

/-- **Issues in a row** count on and claim on. -/
protected theorem append (h₁ : Issues index claimed blocks₁ functions₁ index₁ claimed₁ labels)
    (h₂ : Issues index₁ claimed₁ blocks₂ functions₂ index₂ claimed₂ more) :
    Issues index claimed (blocks₁ ++ blocks₂) (functions₁ ++ functions₂) index₂ claimed₂
      (labels ++ more) := by
  obtain ⟨rfl, rfl, hnodup₁, hlabels₁⟩ := h₁
  obtain ⟨rfl, rfl, hnodup₂, hlabels₂⟩ := h₂
  refine ⟨?_, List.append_assoc _ _ _, fun h => hnodup₂ (hnodup₁ h), ?_⟩
  · rw [List.length_append, Nat.add_assoc]
  -- the indices of the second blocks start behind those of the first
  · rw [blockLabels_append, List.perm_iff_count]
    intro label
    have hcount₁ := hlabels₁.count_eq label
    have hcount₂ := hlabels₂.count_eq label
    simp only [List.count_append] at hcount₁ hcount₂ ⊢
    omega

end Issues

/-! ## Labels of events -/

/-- The block whose labels a statement defines when it is entered. -/
def Event.block? : Event → Option Block
  | enter (.branch ..) _ => some .branch
  | enter (.loop ..) _ => some .loop
  | _ => none

/-- The label of the function that a statement defines when it is entered: its
name behind the enclosing namespaces. -/
def Event.functionLabel? : Event → Option String
  | enter (.function _ name _ _) s => some (s.qualify name)
  | _ => none

/-- The blocks of a run, in the order in which they are entered. -/
def blocksOf (events : List Event) : List Block := events.filterMap Event.block?

/-- The labels of the functions of a run, in the order in which they are
entered. -/
def functionsOf (events : List Event) : List String := events.filterMap Event.functionLabel?

section EventsOf

variable (events more : List Event) (event : Event)

theorem blocksOf_append : blocksOf (events ++ more) = blocksOf events ++ blocksOf more :=
  List.filterMap_append

theorem functionsOf_append :
    functionsOf (events ++ more) = functionsOf events ++ functionsOf more :=
  List.filterMap_append

theorem blocksOf_singleton : blocksOf [event] = event.block?.toList := by
  cases h : event.block? <;> simp [blocksOf, h]

theorem functionsOf_singleton : functionsOf [event] = event.functionLabel?.toList := by
  cases h : event.functionLabel? <;> simp [functionsOf, h]

end EventsOf

/-! ## Code without labels -/

/-- The vocabulary that allows everything but to define a label. -/
def Vocabulary.unlabelled : Vocabulary where
  target _ := True
  label _ := False
  name _ := True
  plain := False
  embeds := True
  isPlain_name h := h.elim

@[simp]
theorem Fragment.labels_append (f g : Fragment) : labels (f ++ g) = labels f ++ labels g :=
  List.filterMap_append

theorem Fragment.labels_nil : labels [] = [] := rfl

theorem Fragment.labels_cons (item : Item) (f : Fragment) :
    labels (item :: f) = item.label?.toList ++ labels f := by
  cases item <;> rfl

/-- Where no label may be defined there is none. -/
theorem Fragment.labels_of_uses {f : Fragment} (h : f.Uses .unlabelled) : f.labels = [] := by
  refine List.filterMap_eq_nil_iff.mpr fun item hitem => ?_
  have huses := h.items item hitem
  cases item with
  | label name => exact huses.elim
  | instr | comment | raw => rfl

/-- **A simple statement defines no label.** -/
theorem Stmt.labels_of_isSimple {stmt : Stmt} {s s' : Scope} {code : Fragment}
    (hsimple : stmt.isSimple = true) (h : stmt.compile s = .ok code s') : code.labels = [] := by
  have hfunction : ∀ f : Function, f.Fits .unlabelled :=
    fun _ => ⟨trivial, nofun, fun _ _ => nofun⟩
  have hs : s.symbols.Fits .unlabelled :=
    ⟨nofun, fun _ f _ => hfunction f, fun _ _ _ _ f _ => hfunction f⟩
  have hfits : stmt.Fits .unlabelled := by
    cases stmt with
    | function | unit => exact nomatch hsimple
    | _ => trivial
  exact Fragment.labels_of_uses (stmt.uses_of_isSimple hsimple hfits hs h).1

theorem Env.labels_of_condition {env : Env} {cond : Condition} {code : Fragment}
    (h : env.condition cond = .ok code) : code.labels = [] :=
  Fragment.labels_of_uses (uses_condition h)

theorem Fragment.labels_setIndex (var : String) (address : UInt32) (index : Nat) :
    (setIndex var address index).labels = [] := by
  have huses : (setIndex var address index).Uses .unlabelled :=
    .comment_cons nofun (.loadLiteral_cons _ _ _ (.storeTo _ _))
  exact labels_of_uses huses

/-! ## Statements -/

/-- **A scope has issued its labels** since the counter stood at `index` and the
claims were `claimed`: the labels of its streams and of code that is still to
be placed are those of the events since then. -/
def Scope.Issued (index : Nat) (claimed : List String) (events : List Event) (s : Scope)
    (code : Fragment) : Prop :=
  Issues index claimed (blocksOf events) (functionsOf events) s.labels s.functionLabels
    (Fragment.labels (code ++ s.body ++ s.definitions))

namespace Scope.Issued

variable {index : Nat} {claimed : List String} {events more : List Event} {s child : Scope}
variable {code : Fragment}

/-- A fork starts with nothing issued. -/
theorem fork (s : Scope) (link : Link) :
    (s.fork link).Issued s.labels s.functionLabels [] [] := .nil _ _

/-- Code that is emitted moves from the hand to the streams. -/
theorem emit {stream : Stream} (hsilent : stream = .silent → code = [])
    (h : s.Issued index claimed events code) :
    (s.emit stream code).Issued index claimed events [] := by
  cases stream with
  | body =>
    refine Issues.perm h ?_
    simp only [Fragment.labels_append, Scope.emit, List.nil_append]
    exact List.perm_append_comm.append_right _
  | definitions =>
    refine Issues.perm h ?_
    simp only [Fragment.labels_append, Scope.emit, List.nil_append, List.append_assoc]
    exact List.perm_append_comm.trans (by rw [List.append_assoc])
  | silent =>
    rw [hsilent rfl] at h
    exact h

/-- Nothing is issued at an event of another kind. -/
theorem pass {event : Event} (hblock : event.block? = none)
    (hfunction : event.functionLabel? = none) (h : s.Issued index claimed events code) :
    s.Issued index claimed (events ++ [event]) code := by
  unfold Issued
  rw [blocksOf_append, functionsOf_append, blocksOf_singleton, functionsOf_singleton, hblock,
    hfunction, Option.toList_none, Option.toList_none, List.append_nil, List.append_nil]
  exact h

/-- **What a child has issued** is issued by its parent, with the code of the
child still to be placed. -/
theorem sync (h : s.Issued index claimed events code)
    (hchild : child.Issued s.labels s.functionLabels more []) :
    (s.sync child).Issued index claimed (events ++ more) (code ++ child.body) := by
  unfold Issued
  rw [blocksOf_append, functionsOf_append]
  refine Issues.perm (Issues.append h hchild) ?_
  rw [List.perm_iff_count]
  intro label
  simp only [Fragment.labels_append, Scope.sync, List.count_append, List.nil_append]
  omega

/-- What a simple statement does to its scope leaves the counters alone. -/
theorem edits {names : String → Prop} {s' : Scope} (h : s.Issued index claimed events code)
    (hedits : s.Edits names s') : s'.Issued index claimed events code := by
  rw [hedits.rest]
  exact h

/-- Code that is still to be placed may be replaced by code with the same
labels. -/
theorem replace {code' : Fragment} (h : s.Issued index claimed events code)
    (hlabels : (Fragment.labels code).Perm (Fragment.labels code')) :
    s.Issued index claimed events code' := by
  refine Issues.perm h ?_
  simp only [Fragment.labels_append, List.append_assoc]
  exact hlabels.append_right _

/-- Taking a label index issues the labels of its block. -/
theorem nextLabel (h : s.Issued index claimed events []) {event : Event} {b : Block}
    (hblock : event.block? = some b) (hfunction : event.functionLabel? = none) :
    s.nextLabel.Issued index claimed (events ++ [event]) ((b.labels s.labels).map .label) := by
  have hlabels : Fragment.labels ((b.labels s.labels).map .label) = b.labels s.labels := by
    cases b <;> rfl
  unfold Issued
  rw [blocksOf_append, functionsOf_append, blocksOf_singleton, functionsOf_singleton, hblock,
    hfunction]
  refine Issues.perm (Issues.append h (.block _ _ b)) ?_
  rw [List.perm_iff_count]
  intro label
  simp only [Fragment.labels_append, hlabels, List.nil_append, List.count_append, Scope.nextLabel]
  omega

/-- Claiming the label of a function issues it. -/
theorem claim (h : s.Issued index claimed events []) (event : Event) {label : String}
    (hblock : event.block? = none) (hfunction : event.functionLabel? = some label)
    (hfresh : label ∉ s.functionLabels) :
    Issued index claimed (events ++ [event])
      { s with functionLabels := s.functionLabels ++ [label] } [.label label] := by
  unfold Issued
  rw [blocksOf_append, functionsOf_append, blocksOf_singleton, functionsOf_singleton, hblock,
    hfunction]
  exact Issues.perm (Issues.append h (.claim _ hfresh)) List.perm_append_comm

end Scope.Issued

/-- A statement issues the labels of its events. -/
def Stmt.Issues (stmt : Stmt) : Prop :=
  ∀ (index : Nat) (claimed : List String) (events : List Event) (s : Scope) (code : Fragment)
    (s' : Scope), s.Issued index claimed events [] → stmt.compile s = .ok code s' →
    s'.Issued index claimed (events ++ stmt.events (fun _ => true) s code s') code

/-- **Statements in a row** issue their labels in a row. -/
theorem issued_of_compileAll {stmts : List Stmt} (hstmts : ∀ stmt ∈ stmts, stmt.Issues)
    {index : Nat} {claimed : List String} {events : List Event} {s s' : Scope}
    (hs : s.Issued index claimed events []) (h : compileAll stmts s = .ok () s') :
    s'.Issued index claimed (events ++ eventsAll (fun _ => true) stmts s) [] :=
  invariant_of_eventsAll (fun _ => true) (fun stmt hstmt => hstmts stmt hstmt index claimed)
    (fun _ _ _ _ hsilent => .emit hsilent) events hs h

/-- The scope of a block has issued the labels of the block's events. -/
theorem issued_of_block {stmts : List Stmt} (hstmts : ∀ stmt ∈ stmts, stmt.Issues)
    {index : Nat} {claimed : List String} {s s' : Scope} (hs : s.Issued index claimed [] [])
    (h : compileAll stmts s = .ok () s') :
    s'.Issued index claimed (eventsAll (fun _ => true) stmts s) [] :=
  issued_of_compileAll hstmts hs h

/-- **Every statement issues its labels once**, one case for each kind. -/
theorem Stmt.issues (stmt : Stmt) : stmt.Issues := by
  induction stmt using Stmt.blockInduction with
  | simple stmt hsimple =>
    intro index claimed events s code s' hs h
    have hblock : (Event.enter stmt s).block? = none := by
      cases stmt with
      | branch | loop => exact nomatch hsimple
      | _ => rfl
    have hfunction : (Event.enter stmt s).functionLabel? = none := by
      cases stmt with
      | function => exact nomatch hsimple
      | _ => rfl
    rw [Stmt.append_events, Stmt.blockEvents_of_isSimple hsimple, List.append_nil]
    refine .pass rfl rfl (.pass hblock hfunction ?_)
    refine (hs.edits (stmt.edits_of_isSimple hsimple h)).replace ?_
    rw [Stmt.labels_of_isSimple hsimple h]
    exact .refl _
  | branch line cond thenBody elseBody ih₁ ih₂ =>
    intro index claimed events s code s' hs h
    obtain ⟨test, first, second, htest, hfirst, hsecond, rfl, rfl⟩ :=
      CompileM.branch_eq_ok_iff.mp h
    have hfirst' := issued_of_block ih₁ (.fork s.nextLabel .copy) hfirst
    have hsecond' := issued_of_block ih₂ (.fork (s.nextLabel.sync first) .copy) hsecond
    rw [Stmt.append_events, Stmt.blockEvents_branch hfirst, ← List.append_assoc]
    -- the labels come out in another order than they were issued in
    refine .pass rfl rfl ((((hs.nextLabel rfl rfl).sync hfirst').sync hsecond').replace ?_)
    rw [List.perm_iff_count]
    intro label
    simp only [Block.labels, List.map_cons, List.map_nil, List.cons_append, List.nil_append,
      Fragment.labels_cons, Item.label?, Option.toList_some, Fragment.labels_append,
      List.count_cons, List.count_append, beq_iff_eq, Item.ldr, Item.jpr, List.append_assoc,
      Option.toList_none, Env.labels_of_condition htest, Fragment.labels_nil, List.append_nil,
      List.count_nil, Nat.zero_add]
    omega
  | loop line cond body ih =>
    intro index claimed events s code s' hs h
    obtain ⟨test, child, htest, hchild, rfl, rfl⟩ := CompileM.loop_eq_ok_iff.mp h
    have hchild' := issued_of_block ih (.fork s.nextLabel .copy) hchild
    rw [Stmt.append_events]
    refine .pass rfl rfl (((hs.nextLabel rfl rfl).sync hchild').replace ?_)
    rw [List.perm_iff_count]
    intro label
    simp [Block.labels, Fragment.labels_cons, Item.label?, Item.ldr, Item.jpr,
      Env.labels_of_condition htest, List.count_cons, Fragment.labels_nil]
  | unroll line var iterable body ih =>
    intro index claimed events s code s' hs h
    obtain ⟨v, element, len, child, hv, htype, -, hcopies, rfl, rfl⟩ :=
      CompileM.unroll_eq_ok_iff.mp h
    rw [Stmt.append_events, Stmt.blockEvents_unroll hv htype]
    have hstart : (s.forkIndexed var).Issued s.labels s.functionLabels [] [] := .nil _ _
    refine .pass rfl rfl (Scope.Issued.sync (hs.pass rfl rfl) ?_)
    refine invariant_of_eventsOfCopies (eventsAll (fun _ => true) body)
      (fun _ _ _ ht h => issued_of_compileAll ih ht h) (fun _ t i ht => ?_)
      (fun _ t value t' ht h => ?_) [] hstart hcopies
    · refine Scope.Issued.emit nofun (ht.replace ?_)
      rw [Fragment.labels_setIndex]
      exact .refl _
    · have hedits : t.Edits (fun _ => False) t' := CompileM.edits_setValue var value h
      exact ht.edits hedits
  | function line name formals body ih =>
    intro index claimed events s code s' hs h
    obtain ⟨params, slot, start, inner, child, hfresh, hparams, hbody, hslot, rfl, hdeclare⟩ :=
      CompileM.function_eq_ok_iff.mp h
    -- the label is claimed before the body is compiled, so the body cannot claim it again
    have hclaimed := hs.claim (.enter (.function line name formals body) s) rfl rfl hfresh
    have hedits : Scope.Edits (fun _ => True) _ start :=
      CompileM.edits_declareParams (fun _ _ _ _ => trivial) hparams
    have hstart := (Scope.Issued.fork _ .copy).edits hedits
    have hinner := issued_of_block ih (by exact hstart) hbody
    have hallocate : inner.Edits (fun _ => True) child := CompileM.edits_allocate 4 hslot
    have hchild := hinner.edits hallocate
    rw [← CompileM.declareFunction_eq_ok_iff.mp hdeclare, Stmt.append_events,
      Stmt.blockEvents_function hparams]
    refine .pass rfl rfl (Scope.Issued.replace (s := Scope.sync _ child)
      (hclaimed.sync hchild) ?_)
    have hcode : Fragment.labels (CompileM.functionCode (s.qualify name) slot child.body)
        = s.qualify name :: child.body.labels := by
      have hstore := Fragment.labels_of_uses (.storeTo slot .word)
      have hload := Fragment.labels_of_uses (.loadFrom slot .word)
      simp [CompileM.functionCode, Fragment.labels_cons, Fragment.labels_nil, Item.label?,
        Item.mov, Item.jpr, hstore, hload]
    rw [hcode]
    exact .refl _
  | space line name body ih =>
    intro index claimed events s code s' hs h
    obtain ⟨child, hchild, rfl, hdeclare⟩ := CompileM.space_eq_ok_iff.mp h
    have hstart : ((s.fork .passThrough).enter name).Issued s.labels s.functionLabels [] [] :=
      .nil _ _
    rw [← CompileM.declareNamespace_eq_ok_iff.mp hdeclare, Stmt.append_events]
    exact .pass rfl rfl (Scope.Issued.sync (hs.pass rfl rfl) (issued_of_block ih hstart hchild))
  | unit line path body ih =>
    intro index claimed events s code s' hs h
    obtain ⟨child, hchild, rfl, rfl⟩ := CompileM.unit_eq_ok_iff.mp h
    rw [Stmt.append_events]
    exact .pass rfl rfl
      (Scope.Issued.sync (hs.pass rfl rfl) (issued_of_block ih (.fork s .isolated) hchild))

/-- The labels of a program since its first statement. -/
theorem issued_of_root {config : Config} {stmts : List Stmt} {s : Scope}
    (h : compileAll stmts (Scope.root config) = .ok () s) :
    s.Issued 0 [] (programEvents config stmts) [] :=
  issued_of_block (fun stmt _ => stmt.issues) (.nil 0 []) h

/-- **The labels of a program are issued once each**: they are, in some order,
two for every index that was taken and one for every function. -/
theorem issues_of_compileAll {config : Config} {stmts : List Stmt} {s : Scope}
    (h : compileAll stmts (Scope.root config) = .ok () s) :
    ∃ blocks, blocks.length = s.labels ∧ s.functionLabels.Nodup
      ∧ (Fragment.labels (s.body ++ s.definitions)).Perm
        (blockLabels 0 blocks ++ s.functionLabels) := by
  obtain ⟨hindex, hclaimed, hnodup, hlabels⟩ := issued_of_root h
  rw [List.nil_append] at hclaimed
  rw [hclaimed]
  exact ⟨_, by omega, hclaimed ▸ hnodup List.nodup_nil, hlabels⟩

/-! ## Labels of different blocks -/

/-- The characters behind the last underscore of a text. -/
def Text.afterUnderscore (s : String) : List Char :=
  (s.toList.reverse.takeWhile (· ≠ '_')).reverse

theorem Text.afterUnderscore_append_decimal {s : String} (h : s.toList.getLast? = some '_')
    (n : Nat) : afterUnderscore (s ++ decimal n) = Nat.toDigits 10 n := by
  obtain ⟨front, hfront⟩ := List.getLast?_eq_some_iff.mp h
  have hdigits : ∀ c ∈ (Nat.toDigits 10 n).reverse, decide (c ≠ '_') = true := by
    intro c hc
    have hdigit := isDigitChar_of_mem_toDigits (by decide) (by decide) (List.mem_reverse.mp hc)
    refine decide_eq_true fun hunderscore => ?_
    rw [hunderscore] at hdigit
    exact absurd hdigit (by decide)
  unfold afterUnderscore
  rw [String.toList_append, toList_decimal, hfront, List.reverse_append, List.reverse_append,
    List.takeWhile_append_of_pos hdigits]
  simp

/-- Numbers are told apart by their digits. -/
theorem Text.toDigits_injective {m n : Nat} (h : Nat.toDigits 10 m = Nat.toDigits 10 n) :
    m = n := by
  have hm := readDigits?_toDigits (show 1 < 10 by decide) (by decide) m
  have hn := readDigits?_toDigits (show 1 < 10 by decide) (by decide) n
  rw [h, hn] at hm
  exact (Option.some.inj hm).symm

/-- What the labels of blocks start with. -/
def Block.stems : List String := ["if_end_", "else_end_", "while_start_", "while_end_"]

/-- A label of a block is a stem and its index. -/
theorem Block.exists_stem_of_mem_labels {b : Block} {index : Nat} {label : String}
    (h : label ∈ b.labels index) : ∃ stem ∈ stems, label = stem ++ Text.decimal index := by
  cases b with
  | branch =>
    simp only [labels, List.mem_cons, List.not_mem_nil, or_false] at h
    rcases h with rfl | rfl
    · exact ⟨"if_end_", by decide, rfl⟩
    · exact ⟨"else_end_", by decide, rfl⟩
  | loop =>
    simp only [labels, List.mem_cons, List.not_mem_nil, or_false] at h
    rcases h with rfl | rfl
    · exact ⟨"while_start_", by decide, rfl⟩
    · exact ⟨"while_end_", by decide, rfl⟩

/-- The labels of a block end in its index. -/
theorem Block.afterUnderscore_of_mem_labels {b : Block} {index : Nat} {label : String}
    (h : label ∈ b.labels index) : Text.afterUnderscore label = Nat.toDigits 10 index := by
  have hstems : ∀ stem ∈ stems, stem.toList.getLast? = some '_' := by decide
  obtain ⟨stem, hstem, rfl⟩ := exists_stem_of_mem_labels h
  exact Text.afterUnderscore_append_decimal (hstems stem hstem) index

/-- The labels of one block have different stems. -/
theorem Block.nodup_labels (b : Block) (index : Nat) : (b.labels index).Nodup := by
  cases b with
  | branch =>
    refine List.nodup_cons.mpr ⟨fun h => ?_, List.pairwise_singleton _ _⟩
    have htext := congrArg String.toList (List.mem_singleton.mp h)
    simp [BranchLabels.ofIndex] at htext
  | loop =>
    refine List.nodup_cons.mpr ⟨fun h => ?_, List.pairwise_singleton _ _⟩
    have htext := congrArg String.toList (List.mem_singleton.mp h)
    simp [LoopLabels.ofIndex] at htext

/-- A label of a row of blocks is that of one of them. -/
theorem exists_of_mem_blockLabels {start : Nat} {blocks : List Block} {label : String}
    (h : label ∈ blockLabels start blocks) :
    ∃ index b, start ≤ index ∧ label ∈ Block.labels index b := by
  induction blocks generalizing start with
  | nil => exact nomatch h
  | cons b rest ih =>
    rcases List.mem_append.mp h with h | h
    · exact ⟨start, b, Nat.le_refl _, h⟩
    · obtain ⟨index, c, hle, hmem⟩ := ih h
      exact ⟨index, c, Nat.le_of_succ_le hle, hmem⟩

/-- **No two blocks share a label.** -/
theorem nodup_blockLabels (start : Nat) (blocks : List Block) :
    (blockLabels start blocks).Nodup := by
  induction blocks generalizing start with
  | nil => exact List.nodup_nil
  | cons b rest ih =>
    refine List.nodup_append.mpr ⟨b.nodup_labels start, ih (start + 1), ?_⟩
    rintro label hlabel _ hrest rfl
    -- the index of a block can be read off each of its labels
    obtain ⟨index, c, hle, hmem⟩ := exists_of_mem_blockLabels hrest
    have hdigits := (Block.afterUnderscore_of_mem_labels hlabel).symm.trans
      (Block.afterUnderscore_of_mem_labels hmem)
    have hindex := Text.toDigits_injective hdigits
    omega

/-! ## The labels of a program -/

/-- **Every label is issued exactly once.** The label counter ends at the number
of branches and loops that were compiled, and the labels that the two streams
define are, in some order, those of the blocks of all indices below it, each
once, and those of the functions that were compiled, no two of which are
alike. -/
theorem labels_issued_once {config : Config} {stmts : List Stmt} {s : Scope}
    (h : compileAll stmts (Scope.root config) = .ok () s) :
    (blocksOf (programEvents config stmts)).length = s.labels
      ∧ (functionsOf (programEvents config stmts)).Nodup
      ∧ (blockLabels 0 (blocksOf (programEvents config stmts))).Nodup
      ∧ (Fragment.labels (s.body ++ s.definitions)).Perm
        (blockLabels 0 (blocksOf (programEvents config stmts))
          ++ functionsOf (programEvents config stmts)) := by
  obtain ⟨hindex, hclaimed, hnodup, hlabels⟩ := issued_of_root h
  rw [List.nil_append] at hclaimed
  exact ⟨by omega, hclaimed ▸ hnodup List.nodup_nil, nodup_blockLabels 0 _, hlabels⟩

/-- A program with blocks in an unrolled loop, and in a function that is called in
a namespace. -/
def unrolledBranch : List Stmt :=
  [.declareList 1 "xs" (some .int) (some 2) none,
    .unroll 2 "i" "xs" [.branch 3 ⟨.equal, .ident "i", .int 0⟩ [] []],
    .space 4 "n" [.function 5 "f" [] [.loop 6 ⟨.less, .int 0, .int 1⟩ []], .call 7 none "f" []]]

/-- The branch is compiled twice, and each time it gets labels of its own. -/
theorem labels_issued_once_unrolledBranch :
    ∃ s, compileAll unrolledBranch (Scope.root {}) = .ok () s ∧ s.labels = 3
      ∧ (Fragment.labels (s.body ++ s.definitions)).Perm
        ["if_end_0", "else_end_0", "if_end_1", "else_end_1", "while_start_2", "while_end_2",
          "n::f"] := by
  have hrun : CompileM.succeeds (compileAll unrolledBranch) (Scope.root {}) = true := by
    decide +kernel
  have hblocks : blocksOf (programEvents {} unrolledBranch)
      = [.branch, .branch, .loop] := by decide +kernel
  have hfunctions : functionsOf (programEvents {} unrolledBranch)
      = ["n::f"] := by decide +kernel
  obtain ⟨_, hs⟩ := CompileM.exists_of_succeeds hrun
  obtain ⟨hlength, -, -, hperm⟩ := labels_issued_once hs
  rw [hblocks] at hlength
  rw [hblocks, hfunctions] at hperm
  refine ⟨_, hs, hlength.symm, hperm.trans ?_⟩
  decide +kernel

end RegMachine
