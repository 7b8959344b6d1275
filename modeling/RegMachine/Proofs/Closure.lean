import RegMachine.Proofs.Streams

/-!
# Generated code is closed

A call is resolved in the tables of the scope that it stands in. The definition
that it means travels another way: it is placed when the function has been
compiled, which may be after the call, and it comes to the surface through the
streams of all scopes around it. `label_closed` says that the two always meet.

Whoever is in sight has claimed a label (`Scope.Claims`), be it the function whose
body is being compiled, one that a unit brought in, or a member of a namespace.
The labels that were claimed are those of the functions that were entered, and
the code of every statement that was entered stands in one of the streams.
-/

namespace RegMachine

/-! ## Claimed functions -/

/-- The vocabulary in which functions of given labels can be called. -/
def Vocabulary.calling (labels : List String) : Vocabulary :=
  { unlabelled with
    target := fun l => l ∈ labels
    label := fun _ => True }

/-- Every label may be placed, those of blocks and those of functions. -/
theorem Vocabulary.complete_calling (labels : List String) : (calling labels).Complete :=
  ⟨fun _ _ _ _ => trivial, fun _ _ _ _ => trivial⟩

theorem Stmt.fits_calling (stmt : Stmt) (labels : List String) : stmt.Fits (.calling labels) := by
  cases stmt with
  | function line name formals body => exact ⟨trivial, fun _ _ => trivial⟩
  | unit line path body => exact False.elim
  | _ => trivial

/-- **A function fits if its label has been claimed.** -/
theorem Function.fits_calling_iff {f : Function} {labels : List String} :
    f.Fits (.calling labels) ↔ f.label ∈ labels :=
  ⟨fun h => h.target, fun h => ⟨h, False.elim, fun _ _ => False.elim⟩⟩

/-- More labels do not harm. -/
theorem Symbols.Fits.calling_mono {s : Symbols Function Namespace} {labels more : List String}
    (h : s.Fits (.calling labels)) (hsub : labels ⊆ more) : s.Fits (.calling more) where
  vars := False.elim
  functions name f hf :=
    Function.fits_calling_iff.mpr (hsub (Function.fits_calling_iff.mp (h.functions name f hf)))
  namespaces space n hn name f hf :=
    Function.fits_calling_iff.mpr
      (hsub (Function.fits_calling_iff.mp (h.namespaces space n hn name f hf)))

/-- **The function that a call means** where it is entered, if it means one. -/
def Event.callee? : Event → Option Function
  | enter (.call line space name _) s => (s.resolveFunction line space name).toOption
  | _ => none

/-- A call has a callee if it is resolved in the scope that it is entered in. -/
theorem Event.callee?_eq_some_iff {event : Event} {f : Function} :
    event.callee? = some f ↔ ∃ line space name args s,
      event = .enter (.call line space name args) s
        ∧ s.resolveFunction line space name = .ok f := by
  constructor
  · intro h
    unfold callee? at h
    split at h
    next line space name args s =>
      refine ⟨line, space, name, args, s, rfl, ?_⟩
      cases hf : s.resolveFunction line space name with
      | ok g =>
        rw [hf] at h
        exact congrArg Except.ok (Option.some.inj h)
      | error e =>
        rw [hf] at h
        exact nomatch h
    next => exact nomatch h
  · rintro ⟨line, space, name, args, s, rfl, hf⟩
    show (s.resolveFunction line space name).toOption = some f
    rw [hf]
    rfl

/-- **A scope has claimed its functions** since the claims were `claimed`: the
functions in sight, and those that were called, have claimed their labels. -/
structure Scope.Claims (claimed : List String) (events : List Event) (s : Scope) : Prop where
  kept : claimed ⊆ s.functionLabels
  symbols : s.symbols.Fits (.calling s.functionLabels)
  callees : ∀ event ∈ events, ∀ f, event.callee? = some f → f.label ∈ s.functionLabels

namespace Scope.Claims

variable {claimed : List String} {events : List Event} {s child : Scope}

/-- When a call is entered, what it is resolved to is in sight, and so has been claimed.
-/
theorem enter (h : s.Claims claimed events) (stmt : Stmt) :
    s.Claims claimed (events ++ [.enter stmt s]) := by
  refine ⟨h.kept, h.symbols, List.forall_mem_append.mpr ⟨h.callees,
    List.forall_mem_singleton.mpr fun f hf => ?_⟩⟩
  obtain ⟨line, space, name, args, _, ⟨⟩, hf⟩ := Event.callee?_eq_some_iff.mp hf
  exact Function.fits_calling_iff.mp (Scope.fits_of_resolveFunction h.symbols hf)

theorem leave (h : s.Claims claimed events) (stmt : Stmt) (t : Scope) (code : Fragment)
    (t' : Scope) : s.Claims claimed (events ++ [.leave stmt t code t']) :=
  ⟨h.kept, h.symbols, List.forall_mem_append.mpr
    ⟨h.callees, List.forall_mem_singleton.mpr fun _ hf => nomatch hf⟩⟩

theorem nextLabel (h : s.Claims claimed events) : s.nextLabel.Claims claimed events :=
  ⟨h.kept, h.symbols, h.callees⟩

/-- A fork starts from the claims of its parent. -/
theorem fork (h : s.Claims claimed events) (link : Link) :
    (s.fork link).Claims s.functionLabels events := by
  refine ⟨List.Subset.refl _, ?_, h.callees⟩
  cases link with
  | isolated => exact .startingAt _ _
  | copy | shared | passThrough => exact h.symbols

theorem edits {names : String → Prop} {s' : Scope} (h : s.Claims claimed events)
    (hedits : s.Edits names s') : s'.Claims claimed events := by
  have hsymbols := Symbols.Fits.of_steps (fun hplain => False.elim hplain) hedits.steps h.symbols
  rw [hedits.rest] at hsymbols ⊢
  exact ⟨h.kept, hsymbols, h.callees⟩

theorem emit {stream : Stream} {code : Fragment} (h : s.Claims claimed events) :
    (s.emit stream code).Claims claimed events := by
  cases stream <;> exact ⟨h.kept, h.symbols, h.callees⟩

/-- A function may be declared under a label that was claimed. -/
theorem declareFunction {s' : Scope} {f : Function} (h : s.Claims claimed events)
    (hf : f.label ∈ s.functionLabels) (hdeclare : CompileM.declareFunction f s = .ok () s') :
    s'.Claims claimed events := by
  obtain rfl := CompileM.declareFunction_eq_ok_iff.mp hdeclare
  exact ⟨h.kept, h.symbols.insertFunction _ (Function.fits_calling_iff.mpr hf), h.callees⟩

/-- The members of a namespace have claimed their labels before it is declared. -/
theorem declareNamespace {s' : Scope} {n : Namespace} (h : s.Claims claimed events)
    (hn : ∀ name f, n.symbols.functions.get? name = some f → f.Fits (.calling s.functionLabels))
    (hdeclare : CompileM.declareNamespace n s = .ok () s') : s'.Claims claimed events := by
  obtain rfl := CompileM.declareNamespace_eq_ok_iff.mp hdeclare
  exact ⟨h.kept, h.symbols.insertNamespace _ hn, h.callees⟩

/-- **A child hands its claims back** with the functions that it exports. -/
theorem sync {more : List Event} (h : s.Claims claimed events)
    (hchild : child.Claims s.functionLabels more) : (s.sync child).Claims claimed more := by
  refine ⟨List.Subset.trans h.kept hchild.kept, ?_, hchild.callees⟩
  by_cases hshared : child.link = .shared
  · show (s.syncSymbols child).Fits (.calling child.functionLabels)
    unfold Scope.syncSymbols
    rw [hshared]
    exact hchild.symbols
  · have hown := h.symbols.calling_mono hchild.kept
    have hadopt : (s.symbols.adoptCursors child.symbols).Fits (.calling child.functionLabels) :=
      ⟨hown.vars, hown.functions, hown.namespaces⟩
    exact .of_imports (Scope.imports_syncSymbols hshared) hchild.symbols hadopt

end Scope.Claims

/-- A statement keeps the functions of its scope claimed. -/
def Stmt.Claims (stmt : Stmt) : Prop :=
  ∀ (claimed : List String) (events : List Event) (s : Scope) (code : Fragment) (s' : Scope),
    s.Claims claimed events → stmt.compile s = .ok code s' →
    s'.Claims claimed (events ++ stmt.events (fun _ => true) s code s')

/-- **Along a list of statements** the claims hold if each statement keeps them. -/
theorem claims_of_compileAll {stmts : List Stmt} (hstmts : ∀ stmt ∈ stmts, stmt.Claims)
    {claimed : List String} {events : List Event} {s s' : Scope} (hs : s.Claims claimed events)
    (h : compileAll stmts s = .ok () s') :
    s'.Claims claimed (events ++ eventsAll (fun _ => true) stmts s) :=
  invariant_of_eventsAll (fun _ => true) (I := fun events s _ => s.Claims claimed events)
    (fun stmt hstmt => hstmts stmt hstmt claimed) (fun _ _ _ _ _ => .emit) events hs h

/-- **Every statement keeps the claims**, and so do the statements inside it. -/
theorem Stmt.claims (stmt : Stmt) : stmt.Claims := by
  induction stmt using Stmt.blockInduction with
  | simple stmt hsimple =>
    intro claimed events s code s' hs h
    rw [Stmt.append_events, Stmt.blockEvents_of_isSimple hsimple, List.append_nil]
    exact ((hs.enter stmt).edits (stmt.edits_of_isSimple hsimple h)).leave _ _ _ _
  | branch line cond thenBody elseBody ih₁ ih₂ =>
    intro claimed events s code s' hs h
    obtain ⟨test, first, second, -, hfirst, hsecond, -, rfl⟩ := CompileM.branch_eq_ok_iff.mp h
    rw [Stmt.append_events, Stmt.blockEvents_branch hfirst, ← List.append_assoc]
    have hstart := (hs.enter (.branch line cond thenBody elseBody)).nextLabel
    have hmid := hstart.sync (claims_of_compileAll ih₁ (hstart.fork .copy) hfirst)
    exact (hmid.sync (claims_of_compileAll ih₂ (hmid.fork .copy) hsecond)).leave _ _ _ _
  | loop line cond body ih =>
    intro claimed events s code s' hs h
    obtain ⟨test, child, -, hchild, -, rfl⟩ := CompileM.loop_eq_ok_iff.mp h
    rw [Stmt.append_events]
    have hstart := (hs.enter (.loop line cond body)).nextLabel
    exact (hstart.sync (claims_of_compileAll ih (hstart.fork .copy) hchild)).leave _ _ _ _
  | unroll line var iterable body ih =>
    intro claimed events s code s' hs h
    obtain ⟨v, element, len, child, hv, htype, -, hcopies, -, rfl⟩ :=
      CompileM.unroll_eq_ok_iff.mp h
    rw [Stmt.append_events, Stmt.blockEvents_unroll hv htype]
    have hstart := hs.enter (.unroll line var iterable body)
    have hfork : (s.forkIndexed var).Claims s.functionLabels
        (events ++ [.enter (.unroll line var iterable body) s]) :=
      ⟨List.Subset.refl _, ⟨False.elim, hs.symbols.functions, hs.symbols.namespaces⟩,
        hstart.callees⟩
    refine (hstart.sync ?_).leave _ _ _ _
    refine invariant_of_eventsOfCopies (eventsAll (fun _ => true) body)
      (I := fun events s _ => s.Claims _ events) (fun _ _ _ ht h => claims_of_compileAll ih ht h)
      (fun _ _ _ => .emit) (fun _ t value t' ht h => ?_) _ hfork hcopies
    have hedits : t.Edits (fun _ => False) t' := CompileM.edits_setValue var value h
    exact ht.edits hedits
  | function line name formals body ih =>
    intro claimed events s code s' hs h
    obtain ⟨params, slot, start, inner, child, -, hparams, hbody, hslot, -, hdeclare⟩ :=
      CompileM.function_eq_ok_iff.mp h
    rw [Stmt.append_events, Stmt.blockEvents_function hparams]
    have hentered := hs.enter (.function line name formals body)
    have hgrown : s.functionLabels ⊆ s.functionLabels ++ [s.qualify name] :=
      List.subset_append_left _ _
    have hlabel : s.qualify name ∈ s.functionLabels ++ [s.qualify name] :=
      List.mem_append_right _ (List.mem_singleton_self _)
    have hclaimed : Scope.Claims claimed (events ++ [.enter (.function line name formals body) s])
        { s with functionLabels := s.functionLabels ++ [s.qualify name] } :=
      ⟨List.Subset.trans hentered.kept hgrown, hentered.symbols.calling_mono hgrown,
        fun event hevent f hf => hgrown (hentered.callees event hevent f hf)⟩
    have hedits : Scope.Edits (fun _ => True) _ start :=
      CompileM.edits_declareParams (fun _ _ _ _ => trivial) hparams
    have hstart := (hclaimed.fork .copy).edits hedits
    -- the function is in sight of its own body, with the label that it has just claimed
    have hstub := hstart.declareFunction (f := .stub name (s.qualify name) params)
      (hstart.kept hlabel) (CompileM.declareFunction_eq_ok_iff.mpr rfl)
    have hinner := claims_of_compileAll ih hstub hbody
    have hallocate : inner.Edits (fun _ => True) child := CompileM.edits_allocate 4 hslot
    have hchild := hinner.edits hallocate
    exact ((hclaimed.sync hchild).declareFunction (hchild.kept hlabel) hdeclare).leave _ _ _ _
  | space line name body ih =>
    intro claimed events s code s' hs h
    obtain ⟨child, hchild, -, hdeclare⟩ := CompileM.space_eq_ok_iff.mp h
    rw [Stmt.append_events]
    have hentered := hs.enter (.space line name body)
    have hfork := hentered.fork .passThrough
    have hchild' := claims_of_compileAll ih
      (s := (s.fork .passThrough).enter name) ⟨hfork.kept, hfork.symbols, hfork.callees⟩ hchild
    -- the members of the namespace are among the child's functions
    have hmembers : child.exportedSymbols.Fits (.calling child.functionLabels) :=
      .of_imports child.imports_exportedSymbols hchild'.symbols (.startingAt _ _)
    exact ((hentered.sync hchild').declareNamespace hmembers.functions hdeclare).leave _ _ _ _
  | unit line path body ih =>
    intro claimed events s code s' hs h
    obtain ⟨child, hchild, -, rfl⟩ := CompileM.unit_eq_ok_iff.mp h
    rw [Stmt.append_events]
    have hstart := hs.enter (.unit line path body)
    exact (hstart.sync (claims_of_compileAll ih (hstart.fork .isolated) hchild)).leave _ _ _ _

/-! ## Calls that are resolved -/

/-- Where the built-in output is meant, no function is. -/
theorem Scope.meansPutchar_eq_false {s : Scope} {line : Nat} {space : Option String}
    {name : String} {f : Function} (h : s.resolveFunction line space name = .ok f) :
    s.meansPutchar space name = false := by
  unfold resolveFunction at h
  unfold meansPutchar
  cases space with
  | some space => rfl
  | none =>
    by_cases hname : name = "putchar"
    · subst hname
      dsimp only at h
      split at h
      next g hg => simp [Table.contains, hg]
      next => exact nomatch h
    · simp [hname]

/-- **A call that is resolved** ends with the jump to the function. -/
theorem Scope.suffix_of_call {s : Scope} {line : Nat} {space : Option String} {name : String}
    {args : List Expr} {f : Function} {code : Fragment}
    (hf : s.resolveFunction line space name = .ok f)
    (h : s.call line space name args = .ok code) :
    Call.code (.function f.label) <:+ code := by
  unfold call at h
  rw [meansPutchar_eq_false hf, if_neg Bool.false_ne_true, hf] at h
  replace h : (s.env line).callFunction f args = .ok code := h
  unfold Env.callFunction at h
  split at h
  next =>
    obtain ⟨stores, -, h⟩ := bind_eq_ok_iff.mp h
    cases h
    exact List.suffix_append _ _
  next => exact nomatch h

/-! ## The streams of a program -/

/-- **A scope has code**: it stands in one piece in one of the streams. -/
def Scope.Has (s : Scope) (code : Fragment) : Prop := code <:+: s.body ∨ code <:+: s.definitions

section Program

variable {config : Config} {stmts : List Stmt} {s : Scope}

/-- At the start of a program nothing is in sight, and nothing has been claimed. -/
theorem claims_of_root (h : compileAll stmts (Scope.root config) = .ok () s) :
    s.Claims [] (programEvents config stmts) := by
  have hroot : (Scope.root config).Claims [] [] :=
    ⟨List.Subset.refl _, .startingAt _ _, List.forall_mem_nil _⟩
  exact claims_of_compileAll (fun stmt _ => stmt.claims) hroot h

/-- **A function that has claimed its label is defined.** -/
theorem has_functionCode (h : compileAll stmts (Scope.root config) = .ok () s) {label : String}
    (hlabel : label ∈ s.functionLabels) :
    ∃ slot inner, s.Has (CompileM.functionCode label slot inner) := by
  -- the labels that were claimed are those of the functions that were entered
  rw [(issued_of_root h).eq_claimed, List.nil_append] at hlabel
  obtain ⟨event, hevent, hfunction⟩ := List.mem_filterMap.mp hlabel
  unfold Event.functionLabel? at hfunction
  split at hfunction
  next line name formals body t =>
    cases hfunction
    obtain ⟨code, t', hcode, hplaced⟩ := placed_of_compileAll h _ t hevent
    obtain ⟨params, slot, start, inner, child, -, -, -, -, rfl, -⟩ :=
      CompileM.function_eq_ok_iff.mp hcode
    refine ⟨slot, child.body, hplaced.resolve_left fun hnil => ?_⟩
    exact nomatch List.infix_nil.mp hnil
  next => exact nomatch hfunction

/-- **A call that is resolved stands in the streams**, with the jump to its
function. -/
theorem has_call (h : compileAll stmts (Scope.root config) = .ok () s) {event : Event}
    (hmem : event ∈ programEvents config stmts) {f : Function} (hf : event.callee? = some f) :
    s.Has (Call.code (.function f.label)) := by
  obtain ⟨line, space, name, args, t, rfl, hresolve⟩ := Event.callee?_eq_some_iff.mp hf
  obtain ⟨code, t', hcode, hplaced⟩ := placed_of_compileAll h _ t hmem
  obtain ⟨u, _, hget, hcode⟩ := CompileM.bind_eq_ok_iff.mp hcode
  obtain ⟨rfl, rfl⟩ := CompileM.get_eq_ok_iff.mp hget
  have hjump := (Scope.suffix_of_call hresolve (CompileM.liftM_eq_ok_iff.mp hcode).1).isInfix
  rcases hplaced with hnil | hbody | hdefinitions
  · exact nomatch List.infix_nil.mp (hjump.trans hnil)
  · exact .inl (hjump.trans hbody)
  · exact .inr (hjump.trans hdefinitions)

/-- **Generated code is closed.** Every label that an instruction names is that of
a memory routine or is defined in the streams. And wherever a call was resolved,
the streams hold the jump to the function and the function's definition. -/
theorem label_closed (h : compileAll stmts (Scope.root config) = .ok () s) :
    (∀ i ∈ Fragment.instructions (s.body ++ s.definitions), ∀ name, i.label? = some name →
      name ∈ ["lmemb", "lmemh", "lmemw", "cmemb", "cmemh", "cmemw"]
        ∨ name ∈ Fragment.labels (s.body ++ s.definitions))
      ∧ ∀ event ∈ programEvents config stmts, ∀ f, event.callee? = some f →
        s.Has (Call.code (.function f.label))
          ∧ ∃ slot inner, s.Has (CompileM.functionCode f.label slot inner) := by
  constructor
  · intro i hi name hname
    have hwritten := Scope.Written.of_compileAll
      (Vocabulary.complete_calling (Fragment.labels (s.body ++ s.definitions)))
      (fun part _ => part.fits_calling _) h fun l hl => hl
    obtain ⟨item, hitem, hinstr⟩ := List.mem_filterMap.mp hi
    have huses := (hwritten.body.append hwritten.definitions).items item hitem
    cases item with
    | instr j =>
      cases hinstr
      rcases huses name hname with htarget | ⟨r, rfl⟩
      · exact .inr htarget
      · exact .inl (by rcases r with ⟨⟨⟩⟩ | ⟨⟨⟩⟩ <;> decide)
    | label | comment | raw => exact nomatch hinstr
  · intro event hmem f hf
    exact ⟨has_call h hmem hf, has_functionCode h ((claims_of_root h).callees event hmem f hf)⟩

end Program

/-- A program that calls a function of an included unit, that function calling
itself, a member of a namespace, and a function that is local to a branch. -/
def scatteredCalls : List Stmt :=
  [.unit 1 "lib" [.function 2 "f" [] [.call 3 none "f" []]], .space 4 "n" [.function 5 "g" [] []],
    .branch 6 ⟨.equal, .int 1, .int 1⟩ [.function 7 "h" [] [], .call 8 none "h" []] [],
    .call 9 (some "n") "g" [], .call 10 none "f" []]

theorem label_closed_scatteredCalls :
    ∃ s, compileAll scatteredCalls (Scope.root {}) = .ok () s
      ∧ (∀ i ∈ Fragment.instructions (s.body ++ s.definitions), ∀ name, i.label? = some name →
        name ∈ ["lmemb", "lmemh", "lmemw", "cmemb", "cmemh", "cmemw"]
          ∨ name ∈ Fragment.labels (s.body ++ s.definitions))
      ∧ ∀ label ∈ ["f", "h", "n::g"], s.Has (Call.code (.function label))
        ∧ ∃ slot inner, s.Has (CompileM.functionCode label slot inner) := by
  have hrun : CompileM.succeeds (compileAll scatteredCalls) (Scope.root {}) = true := by
    decide +kernel
  have hcallees : ((programEvents {} scatteredCalls).filterMap Event.callee?).map (·.label)
      = ["f", "h", "n::g", "f"] := by decide +kernel
  obtain ⟨_, hs⟩ := CompileM.exists_of_succeeds hrun
  obtain ⟨hinstructions, hcalls⟩ := label_closed hs
  refine ⟨_, hs, hinstructions, fun label hlabel => ?_⟩
  have hmem : label ∈ ["f", "h", "n::g", "f"] := List.mem_append_left ["f"] hlabel
  rw [← hcallees] at hmem
  obtain ⟨f, hf, rfl⟩ := List.mem_map.mp hmem
  obtain ⟨event, hevent, hcallee⟩ := List.mem_filterMap.mp hf
  exact hcalls event hevent f hcallee

end RegMachine
