import RegMachine.Proofs.Events
import RegMachine.Proofs.Streams

/-!
# Where directives stand

A directive moves an allocation cursor, and it may do so only where the mode of its scope
allows it. The mode comes down to a scope from all the statements around it: a unit hands its
own mode on to its block, and every other block forbids directives. So a program that
compiles has its directives at the top level, of itself or of units that it includes there.

There is one way around this. The block of an unrolled loop over a list without elements is
never compiled, and what stands in it is not looked at (`NeverUnrolled`).

Which statements stand around a directive is read off the program (`Stmt.Stands`), and which
were compiled off the events of its run. The two come together in
`Program.directives_at_top`: going from the outside to the inside through the statements around
a directive, each one is entered, until one of them skips its block or the directive itself is
entered.
-/

namespace RegMachine

/-! ## Statements around a statement -/

/-- The blocks of a statement. -/
def Stmt.blocks : Stmt → List (List Stmt)
  | branch _ _ thenBody elseBody => [thenBody, elseBody]
  | loop _ _ body | unroll _ _ _ body | function _ _ _ body | space _ _ body | unit _ _ body =>
    [body]
  | _ => []

/-- **A statement stands in a program**, at the top level or in a block of a statement of it.
The statements around it, its ancestors, are listed from the outermost one on. -/
inductive Stmt.Stands (stmt : Stmt) : List Stmt → List Stmt → Prop
  | top {stmts : List Stmt} (h : stmt ∈ stmts) : Stands stmt [] stmts
  | inside {outer : Stmt} {ancestors block stmts : List Stmt} (houter : outer ∈ stmts)
      (hblock : block ∈ outer.blocks) (h : Stands stmt ancestors block) :
      Stands stmt (outer :: ancestors) stmts

/-- A loop over a list without elements skips its block. -/
def Stmt.Skips : Stmt → Scope → Prop
  | unroll _ _ iterable _, s =>
    ∃ address element value, s.symbols.vars.get? iterable = some ⟨address, .list element 0, value⟩
  | _, _ => False

/-- **A loop is never unrolled** in a run: it is entered, and each time its list has no
elements. -/
def NeverUnrolled (events : List Event) (loop : Stmt) : Prop :=
  (∃ s, .enter loop s ∈ events) ∧ ∀ s, .enter loop s ∈ events → loop.Skips s

/-- The cursor of a region. -/
def Symbols.cursor {Fn Ns : Type} (s : Symbols Fn Ns) : Region → UInt32
  | .cells => s.nextAddress
  | .data => s.nextDataAddress

variable {line : Nat} {region : Region} {address : UInt32} {s s' : Scope} {code : Fragment}

/-- **What a directive does**: where its mode allows it, it moves a cursor to the address, and
not back. -/
theorem Stmt.cursor_of_directive
    (h : (Stmt.directive line region address).compile s = .ok code s') :
    s.mode.bitset = true ∧ code = []
      ∧ s.symbols.cursor region ≤ address ∧ s'.symbols.cursor region = address := by
  obtain ⟨_, t, hdirective, h⟩ := CompileM.bind_eq_ok_iff.mp h
  obtain ⟨rfl, rfl⟩ := CompileM.pure_eq_ok_iff.mp h
  obtain ⟨_, _, hget, hdirective⟩ := CompileM.bind_eq_ok_iff.mp hdirective
  obtain ⟨rfl, rfl⟩ := CompileM.get_eq_ok_iff.mp hget
  split at hdirective
  next hmode =>
    have hmove := CompileM.moveCursor_eq_ok_iff.mp hdirective
    cases region with
    | cells =>
      obtain ⟨hle, rfl⟩ := hmove
      exact ⟨hmode, rfl, hle, rfl⟩
    | data =>
      obtain ⟨hle, rfl⟩ := hmove
      exact ⟨hmode, rfl, hle, rfl⟩
  next => exact (CompileM.fail_eq_ok_iff.mp hdirective).elim

/-! ## Runs that are told in full -/

/-- **Events are told in full**: every statement that is entered was compiled, and its own
events stand among them in one piece, up to the one that leaves it. -/
def ToldInFull (events : List Event) : Prop :=
  ∀ stmt s, .enter stmt s ∈ events → ∃ code s', stmt.compile s = .ok code s'
    ∧ stmt.events (fun _ => true) s code s' <:+: events

namespace ToldInFull

variable {events more : List Event}

protected theorem nil : ToldInFull [] := fun _ _ h => nomatch h

protected theorem append (h : ToldInFull events) (hmore : ToldInFull more) :
    ToldInFull (events ++ more) := by
  intro stmt s hmem
  rcases List.mem_append.mp hmem with hmem | hmem
  · obtain ⟨code, s', hcode, htold⟩ := h stmt s hmem
    exact ⟨code, s', hcode, htold.trans List.infix_append_left⟩
  · obtain ⟨code, s', hcode, htold⟩ := hmore stmt s hmem
    exact ⟨code, s', hcode, htold.trans List.infix_append_right⟩

/-- A statement joins its blocks. -/
theorem around {stmt : Stmt} (h : ToldInFull events) (hcode : stmt.compile s = .ok code s')
    (hinner : ToldInFull (stmt.blockEvents (fun _ => true) s)) :
    ToldInFull (events ++ stmt.events (fun _ => true) s code s') := by
  refine h.append fun other t hmem => ?_
  have hblocks : stmt.blockEvents (fun _ => true) s <:+: stmt.events (fun _ => true) s code s' :=
    ⟨[.enter stmt s], [.leave stmt s code s'], rfl⟩
  rw [Stmt.events, if_pos rfl, List.mem_cons, List.mem_append, List.mem_singleton] at hmem
  rcases hmem with hself | hinside | hleave
  · cases hself
    exact ⟨code, s', hcode, List.infix_rfl⟩
  · obtain ⟨code', t', hcode', htold⟩ := hinner other t hinside
    exact ⟨code', t', hcode', htold.trans hblocks⟩
  · cases hleave

end ToldInFull

/-- A statement that is compiled is told in full, and so are the statements inside it. -/
def Stmt.Tells (stmt : Stmt) : Prop :=
  ∀ events s code s', ToldInFull events → stmt.compile s = .ok code s' →
    ToldInFull (events ++ stmt.events (fun _ => true) s code s')

theorem toldInFull_of_compileAll {stmts : List Stmt} (hstmts : ∀ stmt ∈ stmts, stmt.Tells)
    {events : List Event} (hevents : ToldInFull events) (h : compileAll stmts s = .ok () s') :
    ToldInFull (events ++ eventsAll (fun _ => true) stmts s) :=
  invariant_of_eventsAll (fun _ => true) (I := fun events _ _ => ToldInFull events) hstmts
    (fun _ _ _ _ _ => id) events hevents h

theorem Stmt.tells (stmt : Stmt) : stmt.Tells := by
  induction stmt using Stmt.blockInduction with
  | simple stmt hsimple =>
    intro events s code s' hevents h
    refine hevents.around h ?_
    rw [Stmt.blockEvents_of_isSimple hsimple]
    exact .nil
  | branch line cond thenBody elseBody ih₁ ih₂ =>
    intro events s code s' hevents h
    obtain ⟨_, first, second, -, hfirst, hsecond, -, -⟩ := CompileM.branch_eq_ok_iff.mp h
    refine hevents.around h ?_
    rw [Stmt.blockEvents_branch hfirst]
    exact toldInFull_of_compileAll ih₂ (toldInFull_of_compileAll ih₁ .nil hfirst) hsecond
  | loop line cond body ih =>
    intro events s code s' hevents h
    obtain ⟨_, child, -, hchild, -, -⟩ := CompileM.loop_eq_ok_iff.mp h
    exact hevents.around h (toldInFull_of_compileAll ih .nil hchild)
  | unroll line var iterable body ih =>
    intro events s code s' hevents h
    obtain ⟨v, element, len, child, hv, htype, -, hcopies, -, -⟩ :=
      CompileM.unroll_eq_ok_iff.mp h
    refine hevents.around h ?_
    rw [Stmt.blockEvents_unroll hv htype]
    exact invariant_of_eventsOfCopies (eventsAll (fun _ => true) body)
      (I := fun events _ _ => ToldInFull events)
      (fun _ _ _ hevents => toldInFull_of_compileAll ih hevents) (fun _ _ _ => id)
      (fun _ _ _ _ hevents _ => hevents) [] .nil hcopies
  | function line name formals body ih =>
    intro events s code s' hevents h
    obtain ⟨params, slot, start, inner, child, -, hparams, hbody, -, -, -⟩ :=
      CompileM.function_eq_ok_iff.mp h
    refine hevents.around h ?_
    rw [Stmt.blockEvents_function hparams]
    exact toldInFull_of_compileAll ih .nil hbody
  | space line name body ih =>
    intro events s code s' hevents h
    obtain ⟨child, hchild, -, -⟩ := CompileM.space_eq_ok_iff.mp h
    exact hevents.around h (toldInFull_of_compileAll ih .nil hchild)
  | unit line path body ih =>
    intro events s code s' hevents h
    obtain ⟨child, hchild, -, -⟩ := CompileM.unit_eq_ok_iff.mp h
    exact hevents.around h (toldInFull_of_compileAll ih .nil hchild)

/-- **The events of a program that compiles are told in full.** -/
theorem Program.toldInFull_of_compile {config : Config} {stmts : List Stmt} {p : Program}
    (h : Program.compile config stmts = .ok p) : ToldInFull (programEvents config stmts) := by
  obtain ⟨s, hs, -⟩ := compile_eq_ok_iff.mp h
  exact toldInFull_of_compileAll (fun stmt _ => stmt.tells) .nil hs

/-! ## From the outside to the inside -/

/-- Every statement of a block that compiles is entered, in the mode of the block. -/
theorem exists_enter_of_mem {stmts : List Stmt} {stmt : Stmt} {shows : Stmt → Bool} {u : Unit}
    (h : compileAll stmts s = .ok u s') (hmem : stmt ∈ stmts) :
    ∃ t, .enter stmt t ∈ eventsAll shows stmts s ∧ t.mode = s.mode := by
  induction stmts generalizing s with
  | nil => exact nomatch hmem
  | cons first rest ih =>
    obtain ⟨code, t, hcode, hrest⟩ := compileAll_cons_eq_ok_iff.mp h
    rcases List.mem_cons.mp hmem with rfl | hmem
    · exact ⟨s, List.mem_cons_self, rfl⟩
    · obtain ⟨t', henter, hmode⟩ := ih hrest hmem
      have hemit : (t.emit first.kind.stream code).mode = t.mode := by
        cases first.kind.stream <;> rfl
      refine ⟨t', ?_, hmode.trans (hemit.trans (first.stays hcode).mode)⟩
      rw [eventsAll_cons hcode]
      exact List.mem_append_right _ henter

/-- **The blocks of a statement are compiled with it**, unless it skips them, and only a unit
lets its block have directives. -/
theorem Stmt.exists_start_of_block {stmt : Stmt} {block : List Stmt}
    (h : stmt.compile s = .ok code s') (hblock : block ∈ stmt.blocks) (hskips : ¬ stmt.Skips s) :
    ∃ start t, compileAll block start = .ok () t
      ∧ eventsAll (fun _ => true) block start ⊆ stmt.blockEvents (fun _ => true) s
      ∧ (start.mode.bitset = true → stmt.kind = .unit ∧ s.mode.bitset = true) := by
  cases stmt with
  | branch line cond thenBody elseBody =>
    obtain ⟨_, first, second, -, hfirst, hsecond, -, -⟩ := CompileM.branch_eq_ok_iff.mp h
    rw [Stmt.blockEvents_branch hfirst]
    rcases List.mem_cons.mp hblock with rfl | hblock
    · exact ⟨_, first, hfirst, List.subset_append_left _ _, fun h => (Bool.false_ne_true h).elim⟩
    · obtain rfl := List.mem_singleton.mp hblock
      exact ⟨_, second, hsecond, List.subset_append_right _ _,
        fun h => (Bool.false_ne_true h).elim⟩
  | loop line cond body =>
    obtain ⟨_, child, -, hchild, -, -⟩ := CompileM.loop_eq_ok_iff.mp h
    obtain rfl := List.mem_singleton.mp hblock
    exact ⟨_, child, hchild, List.Subset.refl _, fun h => (Bool.false_ne_true h).elim⟩
  | unroll line var iterable body =>
    obtain ⟨⟨address, type, value⟩, element, len, child, hv, htype, -, hcopies, -, -⟩ :=
      CompileM.unroll_eq_ok_iff.mp h
    obtain rfl := List.mem_singleton.mp hblock
    obtain rfl : type = .list element len := htype
    cases len with
    | zero => exact absurd ⟨address, element, value, hv⟩ hskips
    | succ count =>
      rw [Stmt.blockEvents_unroll hv rfl]
      obtain ⟨_, t, ht, hcopies⟩ := CompileM.bind_eq_ok_iff.mp hcopies
      obtain ⟨_, u, hu, hcopies⟩ := CompileM.bind_eq_ok_iff.mp hcopies
      obtain ⟨_, w, hw, -⟩ := CompileM.bind_eq_ok_iff.mp hcopies
      have hstart : (s.forkIndexed var).atIndex line var s.symbols.nextAddress 0 = u :=
        CompileM.scopeAfter_of_ok (CompileM.bind_eq_ok_iff.mpr ⟨(), t, ht, hu⟩)
      have hmode : u.mode = (s.forkIndexed var).mode :=
        (CompileM.stays_setValue _ _ _ hu).mode.trans (CompileM.stays_emit _ _ ht).mode
      refine ⟨u, w, hw, ?_, fun hbitset => ?_⟩
      · rw [eventsOfCopies, hstart]
        exact List.subset_append_left _ _
      · rw [hmode] at hbitset
        exact (Bool.false_ne_true hbitset).elim
  | function line name formals body =>
    obtain ⟨params, slot, start, inner, child, -, hparams, hbody, -, -, -⟩ :=
      CompileM.function_eq_ok_iff.mp h
    obtain rfl := List.mem_singleton.mp hblock
    rw [Stmt.blockEvents_function hparams]
    refine ⟨_, inner, hbody, List.Subset.refl _, fun hbitset => ?_⟩
    have hedits : Scope.Edits (fun _ => True) _ start :=
      CompileM.edits_declareParams (fun _ _ _ _ => trivial) hparams
    rw [hedits.rest] at hbitset
    exact (Bool.false_ne_true hbitset).elim
  | space line name body =>
    obtain ⟨child, hchild, -, -⟩ := CompileM.space_eq_ok_iff.mp h
    obtain rfl := List.mem_singleton.mp hblock
    exact ⟨_, child, hchild, List.Subset.refl _, fun h => (Bool.false_ne_true h).elim⟩
  | unit line path body =>
    obtain ⟨child, hchild, -, -⟩ := CompileM.unit_eq_ok_iff.mp h
    obtain rfl := List.mem_singleton.mp hblock
    exact ⟨_, child, hchild, List.Subset.refl _, fun hbitset => ⟨rfl, hbitset⟩⟩
  | _ => exact (List.not_mem_nil hblock).elim

/-- **A directive in statements that compile** stands under units only, in a scope that allows
directives, or in a loop that is never unrolled. -/
theorem Stmt.Stands.directive {events : List Event} (hevents : ToldInFull events)
    {stmts ancestors : List Stmt}
    (hstands : (Stmt.directive line region address).Stands ancestors stmts)
    (h : compileAll stmts s = .ok () s')
    (hsubset : eventsAll (fun _ => true) stmts s ⊆ events) :
    (s.mode.bitset = true ∧ ∀ outer ∈ ancestors, outer.kind = .unit)
      ∨ ∃ loop ∈ ancestors, NeverUnrolled events loop := by
  induction hstands generalizing s s' with
  | top hmem =>
    obtain ⟨t, henter, hmode⟩ := exists_enter_of_mem h hmem
    obtain ⟨code, t', hcode, -⟩ := hevents _ _ (hsubset henter)
    exact .inl ⟨hmode ▸ (cursor_of_directive hcode).1, nofun⟩
  | @inside outer ancestors block stmts houter hblock _ ih =>
    -- wherever the statement does not skip the block, the block is a program of its own
    have hinside : ∀ t, .enter outer t ∈ events → ¬ outer.Skips t →
        (outer.kind = .unit ∧ t.mode.bitset = true ∧ ∀ inner ∈ ancestors, inner.kind = .unit)
          ∨ ∃ loop ∈ ancestors, NeverUnrolled events loop := by
      intro t henter hskips
      obtain ⟨code, t', hcode, htold⟩ := hevents outer t henter
      obtain ⟨start, u, hu, hblockEvents, hbitset⟩ :=
        Stmt.exists_start_of_block hcode hblock hskips
      have hmid : outer.blockEvents (fun _ => true) t
          ⊆ outer.events (fun _ => true) t code t' :=
        fun event hevent => List.mem_cons_of_mem _ (List.mem_append_left _ hevent)
      refine (ih hu fun event hevent => htold.subset (hmid (hblockEvents hevent))).imp_left ?_
      rintro ⟨hstart, hinner⟩
      exact ⟨(hbitset hstart).1, (hbitset hstart).2, hinner⟩
    have hlift : (∃ loop ∈ ancestors, NeverUnrolled events loop) →
        ∃ loop ∈ outer :: ancestors, NeverUnrolled events loop :=
      fun ⟨_, hloop, hnever⟩ => ⟨_, List.mem_cons_of_mem _ hloop, hnever⟩
    obtain ⟨t, henter, hmode⟩ := exists_enter_of_mem h houter
    have henter := hsubset henter
    by_cases hskips : outer.Skips t
    · by_cases hnever : ∀ t, .enter outer t ∈ events → outer.Skips t
      · exact .inr ⟨outer, List.mem_cons_self, ⟨t, henter⟩, hnever⟩
      · -- entered elsewhere with elements, the loop would forbid the directive
        simp only [not_forall] at hnever
        obtain ⟨t₂, henter₂, hskips₂⟩ := hnever
        refine (hinside t₂ henter₂ hskips₂).elim (fun hunit => ?_) fun hloop => .inr (hlift hloop)
        cases outer with
        | unroll => exact nomatch hunit.1
        | _ => exact hskips.elim
    · refine (hinside t henter hskips).imp (fun ⟨hunit, hbitset, hinner⟩ => ?_) hlift
      exact ⟨hmode ▸ hbitset, List.forall_mem_cons.mpr ⟨hunit, hinner⟩⟩

/-- **Directives stand at the top level.** In a program that compiles, a directive stands under
units only, and the configuration allows directives; or it stands in a loop that is never
unrolled. Each directive that is compiled finds its cursor at its address or before it, and
leaves it at the address. -/
theorem Program.directives_at_top {config : Config} {stmts : List Stmt} {p : Program}
    (h : Program.compile config stmts = .ok p) :
    (∀ line region address ancestors,
        (Stmt.directive line region address).Stands ancestors stmts →
        (config.allowBitset = true ∧ ∀ outer ∈ ancestors, outer.kind = .unit)
          ∨ ∃ loop ∈ ancestors, NeverUnrolled (programEvents config stmts) loop)
      ∧ ∀ line region address s,
        .enter (.directive line region address) s ∈ programEvents config stmts →
        ∃ s', .leave (.directive line region address) s [] s' ∈ programEvents config stmts
          ∧ s.symbols.cursor region ≤ address ∧ s'.symbols.cursor region = address := by
  have htold := toldInFull_of_compile h
  obtain ⟨last, hrun, -⟩ := compile_eq_ok_iff.mp h
  constructor
  · intro line region address ancestors hstands
    exact hstands.directive htold hrun (List.Subset.refl _)
  · intro line region address s henter
    obtain ⟨code, s', hcode, hevents⟩ := htold _ s henter
    obtain ⟨-, rfl, hle, hcursor⟩ := Stmt.cursor_of_directive hcode
    have hleave : .leave (.directive line region address) s [] s'
        ∈ (Stmt.directive line region address).events (fun _ => true) s [] s' :=
      List.mem_cons_of_mem _ (List.mem_append_right _ List.mem_cons_self)
    exact ⟨s', hevents.subset hleave, hle, hcursor⟩

/-- A loop with a directive that moves the cursor back, inside a namespace. -/
def idleLoop : Stmt := .unroll 4 "i" "xs" [.space 5 "low" [.directive 6 .cells 0x10000000]]

/-- A directive, one in a unit, and the loop over a list without elements. -/
def relocated : List Stmt :=
  [.directive 1 .cells 0x20000000, .declareList 2 "xs" (some .int) (some 0) none,
    .unit 3 "data" [.directive 3 .data 0x30000000], idleLoop]

theorem Program.directives_at_top_relocated :
    ∃ p s', Program.compile {} relocated = .ok p
      ∧ NeverUnrolled (programEvents {} relocated) idleLoop
      ∧ .leave (.directive 1 .cells 0x20000000) (Scope.root {}) [] s'
        ∈ programEvents {} relocated
      ∧ s'.symbols.nextAddress = 0x20000000 := by
  have hok : (Program.compile {} relocated).toOption.isSome = true := by decide +kernel
  cases hp : Program.compile {} relocated with
  | error e =>
    rw [hp] at hok
    exact nomatch hok
  | ok p =>
    obtain ⟨hstands, hcursor⟩ := Program.directives_at_top hp
    have hinside : (Stmt.directive 6 .cells 0x10000000).Stands
        [idleLoop, .space 5 "low" [.directive 6 .cells 0x10000000]] relocated :=
      .inside (List.mem_of_getLast? rfl) List.mem_cons_self
        (.inside List.mem_cons_self List.mem_cons_self (.top List.mem_cons_self))
    obtain ⟨s', hleave, -, haddress⟩ := hcursor 1 .cells 0x20000000 _ List.mem_cons_self
    rcases hstands _ _ _ _ hinside with ⟨-, hunits⟩ | ⟨skipped, hmem, hnever⟩
    · exact nomatch hunits _ List.mem_cons_self
    · rcases List.mem_cons.mp hmem with rfl | hspace
      · exact ⟨p, s', rfl, hnever, hleave, haddress⟩
      · -- a namespace never skips its block
        obtain rfl := List.mem_singleton.mp hspace
        obtain ⟨⟨s, henter⟩, hskips⟩ := hnever
        exact (hskips s henter).elim

end RegMachine
