import RegMachine.Program
import RegMachine.Proofs.Edits

/-!
# The events of a run

Which statements are compiled in a run cannot be read off a program: an
unrolled block is compiled once for every element of a list, and that may be
never. So a run is told as *events* (`eventsAll`): a statement is entered in
some scope, its blocks follow, and it is left with its code. Statements about
"every function that was compiled" or "all that a block declares" are
statements about this list.

A reader of events may want to pass over the blocks of some statements, so the
list takes the statements whose blocks it shows as an argument. The events of a
run are found together with what the run does (`invariant_of_eventsAll`).

The first thing that they show is that no code is lost: the code of every
statement that was entered stands in one piece in the streams of the scope that
the run ends with (`placed_of_compileAll`).
-/

namespace RegMachine

variable {α : Type}

/-! ## Events -/

/-- **An event of a run.** -/
inductive Event where
  /-- A statement is entered in a scope. -/
  | enter (stmt : Stmt) (scope : Scope)
  /-- A statement that was entered in a scope is left, with its code and the
  scope behind it. -/
  | leave (stmt : Stmt) (scope : Scope) (code : Fragment) (behind : Scope)

/-- The scope that an action leaves, whether or not it succeeds. -/
def CompileM.scopeAfter (x : CompileM α) (s : Scope) : Scope :=
  match x s with
  | .ok _ t | .error _ t => t

theorem CompileM.scopeAfter_of_ok {x : CompileM α} {s t : Scope} {a : α} (h : x s = .ok a t) :
    scopeAfter x s = t := by
  unfold scopeAfter
  rw [h]

theorem CompileM.scopeAfter_of_error {x : CompileM α} {s t : Scope} {e : CompileError}
    (h : x s = .error e t) : scopeAfter x s = t := by
  unfold scopeAfter
  rw [h]

/-- **What a sequence leaves** is what its first action leaves if that fails, and else what
the second one leaves. -/
theorem CompileM.leaves_bind {β : Type} {P : Scope → Prop} {x : CompileM α}
    {f : α → CompileM β} {s : Scope} (hx : ∀ e t, x s = .error e t → P t)
    (hf : ∀ a t, x s = .ok a t → P (scopeAfter (f a) t)) : P (scopeAfter (x >>= f) s) := by
  show P (scopeAfter (EStateM.bind x f) s)
  unfold scopeAfter EStateM.bind at *
  cases hrun : x s with
  | ok a t => exact hf a t hrun
  | error e t => exact hx e t hrun

/-- An unrolled block is folded back also if it fails. -/
theorem CompileM.scopeAfter_unrolled (x : CompileM Unit) (s : Scope) :
    scopeAfter (unrolled x) s = s.sync (scopeAfter x s.forkUnrolled) := by
  unfold scopeAfter CompileM.unrolled
  dsimp only
  rw [← Scope.forkUnrolled]
  cases x s.forkUnrolled <;> rfl

/-- Whether an action succeeds from a scope on. -/
def CompileM.succeeds (x : CompileM α) (s : Scope) : Bool :=
  match x s with
  | .ok _ _ => true
  | .error _ _ => false

theorem CompileM.exists_of_succeeds {x : CompileM α} {s : Scope} (h : succeeds x s = true) :
    ∃ a, x s = .ok a (scopeAfter x s) := by
  unfold succeeds at h
  unfold scopeAfter
  split at h
  next a t ht =>
    rw [ht]
    exact ⟨a, rfl⟩
  next => exact absurd h Bool.false_ne_true

/-- The error that an action fails with from a scope on. -/
def CompileM.failure? (x : CompileM α) (s : Scope) : Option CompileError :=
  match x s with
  | .ok _ _ => none
  | .error e _ => some e

theorem CompileM.eq_error_of_failure? {x : CompileM α} {s : Scope} {e : CompileError}
    (h : failure? x s = some e) : x s = .error e (scopeAfter x s) := by
  unfold failure? at h
  unfold scopeAfter
  split at h
  next => exact nomatch h
  next e' t ht =>
    rw [ht, Option.some.inj h]

/-- The scope that the body of a function starts from: the parameters and the
function itself are declared. -/
def Scope.forkFunction (s : Scope) (line : Nat) (name : String) (formals : List Formal) : Scope :=
  CompileM.scopeAfter
    (do
      let params ← CompileM.declareParams line formals
      CompileM.declareFunction (.stub name (s.qualify name) params))
    ({ s with functionLabels := s.functionLabels ++ [s.qualify name] }.fork .copy)

theorem Scope.forkFunction_eq {s start : Scope} {line : Nat} {name : String}
    {formals : List Formal} {params : List Param}
    (h : CompileM.declareParams line formals
      ({ s with functionLabels := s.functionLabels ++ [s.qualify name] }.fork .copy)
        = .ok params start) :
    s.forkFunction line name formals = { start with
      symbols := start.symbols.insertFunction name (.stub name (s.qualify name) params)
      exports := start.exports ++ [.function name] } :=
  CompileM.scopeAfter_of_ok (a := ()) (CompileM.bind_eq_ok_iff.mpr
    ⟨params, start, h, CompileM.declareFunction_eq_ok_iff.mpr rfl⟩)

/-- The scope that one copy of an unrolled block starts from. -/
def Scope.atIndex (s : Scope) (line : Nat) (var : String) (address : UInt32) (index : Nat) :
    Scope :=
  CompileM.scopeAfter
    (do
      CompileM.emit .body (Fragment.setIndex var address index)
      CompileM.setValue var (.literal (Int64.ofNat index)) line) s

/-- The events of the copies of an unrolled block, given what compiles it and
its events. -/
def eventsOfCopies (line : Nat) (var : String) (address : UInt32) (body : CompileM Unit)
    (events : Scope → List Event) : Nat → Nat → Scope → List Event
  | 0, _, _ => []
  | count + 1, index, s =>
    let start := s.atIndex line var address index
    events start
      ++ eventsOfCopies line var address body events count (index + 1)
        (CompileM.scopeAfter body start)

mutual

/-- The events of the blocks of a statement that is entered in a scope. -/
def Stmt.blockEvents (shows : Stmt → Bool) : Stmt → Scope → List Event
  | .branch _ _ thenBody elseBody, s =>
    let start := s.nextLabel.fork .copy
    let first := CompileM.scopeAfter (compileAll thenBody) start
    eventsAll shows thenBody start
      ++ eventsAll shows elseBody ((s.nextLabel.sync first).fork .copy)
  | .loop _ _ body, s => eventsAll shows body (s.nextLabel.fork .copy)
  | .unroll line var iterable body, s =>
    match s.symbols.vars.get? iterable with
    | some ⟨_, .list _ len, _⟩ =>
      eventsOfCopies line var s.symbols.nextAddress (compileAll body) (eventsAll shows body) len 0
        (s.forkIndexed var)
    | _ => []
  | .function line name formals body, s =>
    eventsAll shows body (s.forkFunction line name formals)
  | .space _ name body, s => eventsAll shows body ((s.fork .passThrough).enter name)
  | .unit _ _ body, s => eventsAll shows body (s.fork .isolated)
  | _, _ => []

/-- **The events of statements** that are compiled one after the other from a
scope on, with the blocks of the statements that are shown. -/
def eventsAll (shows : Stmt → Bool) : List Stmt → Scope → List Event
  | [], _ => []
  | stmt :: rest, s =>
    .enter stmt s :: ((if shows stmt then stmt.blockEvents shows s else [])
      ++ match stmt.compile s with
        | .ok code t =>
          .leave stmt s code t :: eventsAll shows rest (t.emit stmt.kind.stream code)
        | .error _ _ => [])

end

/-- **The events of a program**, with all blocks. -/
def programEvents (config : Config) (stmts : List Stmt) : List Event :=
  eventsAll (fun _ => true) stmts (Scope.root config)

/-- A program is made of the scope that its statements end in. -/
theorem Program.compile_eq_ok_iff {config : Config} {stmts : List Stmt} {p : Program} :
    compile config stmts = .ok p ↔
      ∃ s, compileAll stmts (Scope.root config) = .ok () s ∧ ofScope s = p := by
  unfold compile
  cases compileAll stmts (Scope.root config) <;> simp

/-- The events of one statement that is left with its code. -/
def Stmt.events (shows : Stmt → Bool) (stmt : Stmt) (s : Scope) (code : Fragment) (s' : Scope) :
    List Event :=
  .enter stmt s :: ((if shows stmt then stmt.blockEvents shows s else [])
    ++ [.leave stmt s code s'])

section Events

variable {shows : Stmt → Bool} {line : Nat} {s s' : Scope} {code : Fragment}

theorem eventsAll_cons {stmt : Stmt} {rest : List Stmt} (h : stmt.compile s = .ok code s') :
    eventsAll shows (stmt :: rest) s
      = stmt.events shows s code s' ++ eventsAll shows rest (s'.emit stmt.kind.stream code) := by
  rw [eventsAll, h, Stmt.events, List.cons_append, List.append_assoc]
  rfl

/-- Where all blocks are shown, they stand between entering and leaving. -/
theorem Stmt.append_events (events : List Event) (stmt : Stmt) (s : Scope) (code : Fragment)
    (s' : Scope) :
    events ++ stmt.events (fun _ => true) s code s'
      = events ++ [.enter stmt s] ++ stmt.blockEvents (fun _ => true) s
        ++ [.leave stmt s code s'] := by
  rw [Stmt.events, if_pos rfl, List.append_assoc, List.append_assoc, List.singleton_append]

theorem Stmt.blockEvents_of_isSimple {stmt : Stmt} (h : stmt.isSimple = true) (s : Scope) :
    stmt.blockEvents shows s = [] := by
  cases stmt with
  | branch | loop | unroll | function | space | unit => exact nomatch h
  | _ => rfl

theorem Stmt.blockEvents_branch {cond : Condition} {thenBody elseBody : List Stmt} {first : Scope}
    (h : compileAll thenBody (s.nextLabel.fork .copy) = .ok () first) :
    (Stmt.branch line cond thenBody elseBody).blockEvents shows s
      = eventsAll shows thenBody (s.nextLabel.fork .copy)
        ++ eventsAll shows elseBody ((s.nextLabel.sync first).fork .copy) := by
  rw [blockEvents, CompileM.scopeAfter_of_ok h]

theorem Stmt.blockEvents_unroll {var iterable : String} {body : List Stmt} {v : Variable}
    {element : Scalar} {len : Nat} (hv : s.symbols.vars.get? iterable = some v)
    (htype : v.type = .list element len) :
    (Stmt.unroll line var iterable body).blockEvents shows s
      = eventsOfCopies line var s.symbols.nextAddress (compileAll body)
        (eventsAll shows body) len 0
        (s.forkIndexed var) := by
  obtain ⟨address, type, value⟩ := v
  obtain rfl : type = .list element len := htype
  rw [blockEvents, hv]

theorem Stmt.blockEvents_function {name : String} {formals : List Formal} {body : List Stmt}
    {start : Scope} {params : List Param}
    (h : CompileM.declareParams line formals
      ({ s with functionLabels := s.functionLabels ++ [s.qualify name] }.fork .copy)
        = .ok params start) :
    (Stmt.function line name formals body).blockEvents shows s
      = eventsAll shows body { start with
          symbols := start.symbols.insertFunction name (.stub name (s.qualify name) params)
          exports := start.exports ++ [.function name] } := by
  rw [blockEvents, Scope.forkFunction_eq h]

/-! ## Invariants along events -/

/-- **What holds of the events so far, of the scope and of code that is still to
be placed** holds on along a list of statements, if each statement takes it
from no such code to its own, and placing the code keeps it. -/
theorem invariant_of_eventsAll (shows : Stmt → Bool) {I : List Event → Scope → Fragment → Prop}
    {stmts : List Stmt}
    (hstmts : ∀ stmt ∈ stmts, ∀ events s code s', I events s [] → stmt.compile s = .ok code s' →
      I (events ++ stmt.events shows s code s') s' code)
    (hemit : ∀ events s stream code, (stream = .silent → code = []) → I events s code →
      I events (s.emit stream code) [])
    (events : List Event) {u : Unit} (hs : I events s []) (h : compileAll stmts s = .ok u s') :
    I (events ++ eventsAll shows stmts s) s' [] := by
  induction stmts generalizing events s with
  | nil =>
    obtain ⟨-, rfl⟩ := CompileM.pure_eq_ok_iff.mp h
    rw [eventsAll, List.append_nil]
    exact hs
  | cons stmt rest ih =>
    rw [List.forall_mem_cons] at hstmts
    obtain ⟨code, t, hcode, hrest⟩ := compileAll_cons_eq_ok_iff.mp h
    have ht := hstmts.1 events s code t hs hcode
    rw [eventsAll_cons hcode, ← List.append_assoc]
    exact ih hstmts.2 _ (hemit _ t _ code (fun hsilent => stmt.code_of_silent hsilent hcode) ht)
      hrest

/-- The same for the copies of an unrolled block, if setting the variable keeps
it. -/
theorem invariant_of_eventsOfCopies (eventsOf : Scope → List Event)
    {I : List Event → Scope → Fragment → Prop} {x : CompileM Unit} {var : String}
    {address : UInt32}
    (hx : ∀ events s s', I events s [] → x s = .ok () s' → I (events ++ eventsOf s) s' [])
    (hemit : ∀ events s index, I events s [] →
      I events (s.emit .body (Fragment.setIndex var address index)) [])
    (hset : ∀ events s value s', I events s [] → CompileM.setValue var value line s = .ok () s' →
      I events s' [])
    (events : List Event) {count index : Nat} (hs : I events s [])
    (h : CompileM.copies line var address x count index s = .ok () s') :
    I (events ++ eventsOfCopies line var address x eventsOf count index s) s' [] := by
  induction count generalizing events index s with
  | zero =>
    obtain ⟨-, rfl⟩ := CompileM.pure_eq_ok_iff.mp h
    rw [eventsOfCopies, List.append_nil]
    exact hs
  | succ count ih =>
    rw [CompileM.copies] at h
    obtain ⟨_, t, ht, h⟩ := CompileM.bind_eq_ok_iff.mp h
    obtain ⟨_, u, hu, h⟩ := CompileM.bind_eq_ok_iff.mp h
    obtain ⟨_, w, hw, hrest⟩ := CompileM.bind_eq_ok_iff.mp h
    have hindex : s.atIndex line var address index = u :=
      CompileM.scopeAfter_of_ok (CompileM.bind_eq_ok_iff.mpr ⟨(), t, ht, hu⟩)
    obtain rfl := CompileM.emit_eq_ok_iff.mp ht
    rw [eventsOfCopies, hindex, CompileM.scopeAfter_of_ok hw, ← List.append_assoc]
    exact ih _ (hx _ u w (hset _ _ _ u (hemit _ s index hs) hu) hw) hrest

/-- What holds of a scope and of code that is still to be placed, without regard
to events. -/
theorem invariant_of_compileAll {I : Scope → Fragment → Prop} {stmts : List Stmt}
    (hstmts : ∀ stmt ∈ stmts, ∀ s code s', I s [] → stmt.compile s = .ok code s' → I s' code)
    (hemit : ∀ s stream code, (stream = .silent → code = []) → I s code →
      I (s.emit stream code) [])
    {u : Unit} (hs : I s []) (h : compileAll stmts s = .ok u s') : I s' [] :=
  invariant_of_eventsAll (fun _ => false) (I := fun _ => I)
    (fun stmt hstmt _ => hstmts stmt hstmt) (fun _ => hemit) [] hs h

theorem CompileM.invariant_of_copies {I : Scope → Fragment → Prop} {x : CompileM Unit}
    {var : String} {address : UInt32} (hx : ∀ s s', I s [] → x s = .ok () s' → I s' [])
    (hemit : ∀ s index, I s [] → I (s.emit .body (Fragment.setIndex var address index)) [])
    (hset : ∀ s value s', I s [] → setValue var value line s = .ok () s' → I s' [])
    {count index : Nat} (hs : I s []) (h : copies line var address x count index s = .ok () s') :
    I s' [] :=
  invariant_of_eventsOfCopies (fun _ => []) (I := fun _ => I) (fun _ => hx) (fun _ => hemit)
    (fun _ => hset) [] hs h

end Events

/-! ## No code is lost -/

/-- **The statements of events are placed**: each was compiled from the scope that
it was entered in, and its code stands in one piece in a stream of a scope, or in
code that is still to be placed. -/
def Placed (events : List Event) (s : Scope) (code : Fragment) : Prop :=
  ∀ stmt t, .enter stmt t ∈ events → ∃ c t', stmt.compile t = .ok c t'
    ∧ (c <:+: code ∨ c <:+: s.body ∨ c <:+: s.definitions)

namespace Placed

variable {events more : List Event} {s s' child : Scope} {code code' : Fragment}

protected theorem nil (s : Scope) (code : Fragment) : Placed [] s code := fun _ _ h => nomatch h

protected theorem append (h : Placed events s code) (hmore : Placed more s code) :
    Placed (events ++ more) s code :=
  fun stmt t hmem => (List.mem_append.mp hmem).elim (h stmt t) (hmore stmt t)

/-- Code that goes on standing in the streams stays placed. -/
theorem mono (h : Placed events s code) (hcode : code <:+: code')
    (hbody : s.body <:+: s'.body) (hdefinitions : s.definitions <:+: s'.definitions) :
    Placed events s' code' := by
  intro stmt t hmem
  obtain ⟨c, t', hc, hplaced⟩ := h stmt t hmem
  refine ⟨c, t', hc, ?_⟩
  rcases hplaced with hplaced | hplaced | hplaced
  · exact .inl (hplaced.trans hcode)
  · exact .inr (.inl (hplaced.trans hbody))
  · exact .inr (.inr (hplaced.trans hdefinitions))

theorem emit {stream : Stream} (hsilent : stream = .silent → code = [])
    (h : Placed events s code) :
    Placed events (s.emit stream code) [] := by
  intro stmt t hmem
  obtain ⟨c, t', hc, hplaced⟩ := h stmt t hmem
  refine ⟨c, t', hc, ?_⟩
  cases stream with
  | body =>
    rcases hplaced with hcode | hbody | hdefinitions
    · exact .inr (.inl (hcode.trans List.infix_append_right))
    · exact .inr (.inl (hbody.trans List.infix_append_left))
    · exact .inr (.inr hdefinitions)
  | definitions =>
    rcases hplaced with hcode | hbody | hdefinitions
    · exact .inr (.inr (hcode.trans List.infix_append_right))
    · exact .inr (.inl hbody)
    · exact .inr (.inr (hdefinitions.trans List.infix_append_left))
  | silent =>
    rw [hsilent rfl] at hplaced
    exact hplaced

/-- A statement that was compiled is placed with its blocks. -/
theorem around {stmt : Stmt} {s₀ : Scope} (h : Placed events s [])
    (hcode : stmt.compile s₀ = .ok code s')
    (hinner : Placed (stmt.blockEvents (fun _ => true) s₀) s' code)
    (hbody : s.body <:+: s'.body) (hdefinitions : s.definitions <:+: s'.definitions) :
    Placed (events ++ stmt.events (fun _ => true) s₀ code s') s' code := by
  refine (h.mono (List.nil_infix) hbody hdefinitions).append fun other t hmem => ?_
  rw [Stmt.events, if_pos rfl, List.mem_cons, List.mem_append, List.mem_singleton] at hmem
  rcases hmem with hself | hinside | hleave
  · cases hself
    exact ⟨code, s', hcode, .inl List.infix_rfl⟩
  · exact hinner other t hinside
  · exact nomatch hleave

/-- **What a child has placed** is placed by its parent, where the child's body
is part of the code. -/
theorem sync (h : Placed events child []) (hbody : child.body <:+: code) :
    Placed events (s.sync child) code := by
  intro stmt t hmem
  obtain ⟨c, t', hc, hplaced⟩ := h stmt t hmem
  refine ⟨c, t', hc, ?_⟩
  rcases hplaced with hplaced | hplaced | hplaced
  · exact .inl (hplaced.trans List.nil_infix)
  · exact .inl (hplaced.trans hbody)
  · exact .inr (.inr (hplaced.trans List.infix_append_right))

end Placed

/-- A statement places its code and that of its blocks. -/
def Stmt.Places (stmt : Stmt) : Prop :=
  ∀ events s code s', Placed events s [] → stmt.compile s = .ok code s' →
    Placed (events ++ stmt.events (fun _ => true) s code s') s' code

theorem placed_of_block {stmts : List Stmt} (hstmts : ∀ stmt ∈ stmts, stmt.Places) {s s' : Scope}
    (h : compileAll stmts s = .ok () s') : Placed (eventsAll (fun _ => true) stmts s) s' [] :=
  invariant_of_eventsAll (fun _ => true) hstmts (fun _ _ _ _ hsilent => .emit hsilent) []
    (.nil s []) h

theorem Stmt.places (stmt : Stmt) : stmt.Places := by
  induction stmt using Stmt.blockInduction with
  | simple stmt hsimple =>
    intro events s code s' hs h
    have hrest := (stmt.edits_of_isSimple hsimple h).rest
    have hbody : s'.body = s.body := by rw [hrest]
    have hdefinitions : s'.definitions = s.definitions := by rw [hrest]
    refine hs.around h ?_ (hbody ▸ List.infix_rfl) (hdefinitions ▸ List.infix_rfl)
    rw [Stmt.blockEvents_of_isSimple hsimple]
    exact .nil _ code
  | branch line cond thenBody elseBody ih₁ ih₂ =>
    intro events s code s' hs h
    obtain ⟨test, first, second, -, hfirst, hsecond, rfl, rfl⟩ := CompileM.branch_eq_ok_iff.mp h
    refine hs.around h ?_ List.infix_rfl (List.infix_append_left.trans List.infix_append_left)
    rw [Stmt.blockEvents_branch hfirst]
    have hbody : first.body <:+: (.comment cond.comment
        :: .ldr .branch (.label (BranchLabels.ofIndex s.labels).ifEnd) :: test) ++ first.body :=
      List.infix_append_right
    refine .append ?_ ((placed_of_block ih₂ hsecond).sync ⟨_, _, rfl⟩)
    refine Placed.mono (s := s.nextLabel.sync first) ((placed_of_block ih₁ hfirst).sync ?_)
      List.infix_rfl List.infix_rfl List.infix_append_left
    exact hbody.trans (List.infix_append_left.trans
      (List.infix_append_left.trans List.infix_append_left))
  | loop line cond body ih =>
    intro events s code s' hs h
    obtain ⟨test, child, -, hchild, rfl, rfl⟩ := CompileM.loop_eq_ok_iff.mp h
    exact hs.around h ((placed_of_block ih hchild).sync ⟨_, _, rfl⟩) List.infix_rfl
      List.infix_append_left
  | unroll line var iterable body ih =>
    intro events s code s' hs h
    obtain ⟨v, element, len, child, hv, htype, -, hcopies, rfl, rfl⟩ :=
      CompileM.unroll_eq_ok_iff.mp h
    refine hs.around h ?_ List.infix_rfl List.infix_append_left
    rw [Stmt.blockEvents_unroll hv htype]
    refine Placed.sync ?_ List.infix_rfl
    refine invariant_of_eventsOfCopies (eventsAll (fun _ => true) body) ?_ ?_ ?_ []
      (Placed.nil (s.forkIndexed var) []) hcopies
    · intro events t t' ht h
      exact invariant_of_eventsAll (fun _ => true) ih
        (fun _ _ _ _ hsilent => .emit hsilent) events
        ht h
    · intro events t index ht
      exact ht.mono List.infix_rfl List.infix_append_left List.infix_rfl
    · intro events t value t' ht h
      obtain ⟨_, -, rfl⟩ := CompileM.setValue_eq_ok_iff.mp h
      exact ht
  | function line name formals body ih =>
    intro events s code s' hs h
    obtain ⟨params, slot, start, inner, child, -, hparams, hbody, hslot, rfl, hdeclare⟩ :=
      CompileM.function_eq_ok_iff.mp h
    obtain rfl := CompileM.declareFunction_eq_ok_iff.mp hdeclare
    obtain ⟨-, -, rfl⟩ := CompileM.allocate_eq_ok_iff.mp hslot
    refine hs.around h ?_ List.infix_rfl List.infix_append_left
    rw [Stmt.blockEvents_function hparams]
    -- the return cell is handed out behind the body and places nothing
    have hinner := placed_of_block ih hbody
    refine Placed.mono (s := s.sync inner) (hinner.sync ?_) List.infix_rfl List.infix_rfl
      List.infix_rfl
    exact List.infix_append_right.trans (List.infix_append_left.trans List.infix_append_left)
  | space line name body ih =>
    intro events s code s' hs h
    obtain ⟨child, hchild, rfl, hdeclare⟩ := CompileM.space_eq_ok_iff.mp h
    obtain rfl := CompileM.declareNamespace_eq_ok_iff.mp hdeclare
    exact hs.around h ((placed_of_block ih hchild).sync (s := s) List.infix_rfl) List.infix_rfl
      List.infix_append_left
  | unit line path body ih =>
    intro events s code s' hs h
    obtain ⟨child, hchild, rfl, rfl⟩ := CompileM.unit_eq_ok_iff.mp h
    exact hs.around h ((placed_of_block ih hchild).sync (List.suffix_cons _ _).isInfix)
      List.infix_rfl List.infix_append_left

/-- **No code is lost.** Every statement that is entered is compiled, and its code
stands in one of the streams in the end, in one piece. -/
theorem placed_of_compileAll {stmts : List Stmt} {s s' : Scope}
    (h : compileAll stmts s = .ok () s') : Placed (eventsAll (fun _ => true) stmts s) s' [] :=
  placed_of_block (fun stmt _ => stmt.places) h

end RegMachine
