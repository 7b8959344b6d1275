import RegMachine.Proofs.Events
import RegMachine.Proofs.Faults

/-!
# Compiling only moves forward

A run that fails keeps the scope as the fault left it, so it matters what a
fault can leave. Nothing is ever taken back: cursors and counters do not
decrease, streams only grow at their ends, names that are bound stay bound, and
the place of the scope stays what it was (`Scope.Forward`).

An action *advances* if this holds of every run of it, whether or not it
succeeds (`CompileM.Advances`). Chains of such actions advance, so it is enough
to look at the actions that statements are made of. What needs care is children.
One that fails is dropped, and its parent is as it was before. Only the child of
an unrolled loop works on the tables of its parent, and it is folded back also
when it fails; folding back never loses anything, whatever the link
(`Scope.Forward.sync`).
-/

namespace RegMachine

variable {α β : Type}

/-! ## Later scopes -/

/-- The names of a table are bound in another one too. -/
def Table.Covered (t t' : Table α) : Prop :=
  ∀ name, t.contains name = true → t'.contains name = true

namespace Table.Covered

variable {t t' t'' : Table α}

protected theorem refl (t : Table α) : Covered t t := fun _ h => h

/-- A name that stays bound step by step stays bound. -/
protected theorem trans (h : Covered t t') (h' : Covered t' t'') : Covered t t'' :=
  fun name hname => h' name (h name hname)

/-- Binding a name anew does not lose it. -/
theorem insert (t : Table α) (name : String) (a : α) : Covered t (t.insert name a) := by
  intro other hother
  unfold contains at hother ⊢
  by_cases hname : other = name
  · rw [hname, get?_insert_self]
    rfl
  · rw [get?_insert_of_ne t hname]
    exact hother

end Table.Covered

/-- **Later symbols**: no cursor has moved back, and no name has been lost. -/
structure Symbols.Forward (s s' : Symbols Function Namespace) : Prop where
  nextAddress : s.nextAddress ≤ s'.nextAddress
  nextDataAddress : s.nextDataAddress ≤ s'.nextDataAddress
  vars : s.vars.Covered s'.vars
  functions : s.functions.Covered s'.functions
  namespaces : s.namespaces.Covered s'.namespaces

namespace Symbols.Forward

variable {s s' s'' : Symbols Function Namespace}

protected theorem refl (s : Symbols Function Namespace) : Forward s s :=
  ⟨UInt32.le_refl _, UInt32.le_refl _, .refl _, .refl _, .refl _⟩

/-- Symbols that are later than later ones are later. -/
protected theorem trans (h : Forward s s') (h' : Forward s' s'') : Forward s s'' where
  nextAddress := UInt32.le_trans h.nextAddress h'.nextAddress
  nextDataAddress := UInt32.le_trans h.nextDataAddress h'.nextDataAddress
  vars := h.vars.trans h'.vars
  functions := h.functions.trans h'.functions
  namespaces := h.namespaces.trans h'.namespaces

/-- A binding moves no cursor. It may hide another one of its name, but the name
stays bound. -/
theorem insertVariable (s : Symbols Function Namespace) (name : String) (v : Variable) :
    Forward s (s.insertVariable name v) :=
  { Forward.refl s with vars := .insert _ name v }

theorem insertFunction (s : Symbols Function Namespace) (name : String) (f : Function) :
    Forward s (s.insertFunction name f) :=
  { Forward.refl s with functions := .insert _ name f }

theorem insertNamespace (s : Symbols Function Namespace) (name : String) (n : Namespace) :
    Forward s (s.insertNamespace name n) :=
  { Forward.refl s with namespaces := .insert _ name n }

/-- Copying exports only binds names. -/
theorem foldl_copyExport (child : Scope) (exports : List Export)
    (s : Symbols Function Namespace) :
    Forward s (exports.foldl child.copyExport s) := by
  induction exports generalizing s with
  | nil => exact .refl s
  | cons entry rest ih =>
    refine Forward.trans ?_ (ih _)
    unfold Scope.copyExport
    split
    · split
      · exact .insertFunction s _ _
      · exact .refl s
    · split
      · exact .insertNamespace s _ _
      · exact .refl s

end Symbols.Forward

/-- **A later scope**: what was handed out, claimed, declared or written before is
still there, and the scope is in the same place. -/
structure Scope.Forward (s s' : Scope) : Prop extends s.Stays s' where
  symbols : s.symbols.Forward s'.symbols
  labels : s.labels ≤ s'.labels
  functionLabels : s.functionLabels ⊆ s'.functionLabels
  warnings : s.warnings ≤ s'.warnings
  body : s.body <+: s'.body
  definitions : s.definitions <+: s'.definitions

namespace Scope.Forward

variable {s s' s'' child : Scope} {link : Link}

/-- Every scope is later than itself, with nothing appended. -/
protected theorem refl (s : Scope) : Forward s s where
  toStays := Std.Refl.refl s
  symbols := .refl _
  labels := Nat.le_refl _
  functionLabels := List.Subset.refl _
  warnings := Nat.le_refl _
  body := List.prefix_rfl
  definitions := List.prefix_rfl

instance : Std.Refl Scope.Forward := ⟨.refl⟩

/-- **One run after the other**: what both append is appended in order. -/
protected theorem trans (h : Forward s s') (h' : Forward s' s'') : Forward s s'' where
  toStays := Trans.trans h.toStays h'.toStays
  symbols := h.symbols.trans h'.symbols
  labels := Nat.le_trans h.labels h'.labels
  functionLabels := List.Subset.trans h.functionLabels h'.functionLabels
  warnings := Nat.le_trans h.warnings h'.warnings
  body := h.body.trans h'.body
  definitions := h.definitions.trans h'.definitions

/-- An action on the symbols alone moves a scope forward if it does them. -/
theorem withSymbols {symbols : Symbols Function Namespace} (h : s.symbols.Forward symbols) :
    Forward s { s with symbols := symbols } :=
  { Forward.refl s with symbols := h }

/-- Code is appended at the end of a stream. -/
theorem emit (s : Scope) (stream : Stream) (code : Fragment) :
    Forward s (s.emit stream code) := by
  cases stream with
  | body => exact { Forward.refl s with body := List.prefix_append _ _ }
  | definitions => exact { Forward.refl s with definitions := List.prefix_append _ _ }
  | silent => exact .refl s

/-- The tables of a parent are covered by what comes back from a child. -/
theorem syncSymbols (hlink : child.link = link)
    (h : (s.fork link).symbols.Forward child.symbols) :
    s.symbols.Forward (s.syncSymbols child) := by
  -- whatever a child starts with, it starts from the cursors of its parent
  have haddress : s.symbols.nextAddress ≤ child.symbols.nextAddress := by
    cases link <;> exact h.nextAddress
  have hdata : s.symbols.nextDataAddress ≤ child.symbols.nextDataAddress := by
    cases link <;> exact h.nextDataAddress
  have hadopt : s.symbols.Forward (s.symbols.adoptCursors child.symbols) :=
    { Symbols.Forward.refl s.symbols with nextAddress := haddress, nextDataAddress := hdata }
  unfold Scope.syncSymbols
  cases link with
  | copy =>
    rw [hlink]
    exact hadopt
  | shared =>
    rw [hlink]
    exact h
  | passThrough | isolated =>
    rw [hlink]
    exact hadopt.trans (.foldl_copyExport child _ _)

/-- **Folding a child back loses nothing**, if the child has only moved forward. The
child may have started in another mode and inside a namespace. -/
theorem sync (mode : Mode) (path : List String)
    (h : Forward { s.fork link with mode := mode, path := path } child) :
    Forward s (s.sync child) where
  mode := rfl
  link := rfl
  path := rfl
  config := rfl
  symbols := syncSymbols h.link h.symbols
  labels := h.labels
  functionLabels := h.functionLabels
  warnings := h.warnings
  body := List.prefix_rfl
  definitions := List.prefix_append _ _

end Scope.Forward

/-! ## Actions -/

/-- **An action advances**: every run of it leads to a later scope, whether or not it
succeeds. -/
def CompileM.Advances (x : CompileM α) : Prop := ∀ s : Scope, s.Forward (scopeAfter x s)

namespace CompileM.Advances

variable {line : Nat}

/-- **A chain of actions advances** if each of them does. If the first one fails,
the chain is where that left it. -/
protected theorem bind {x : CompileM α} {f : α → CompileM β} (hx : Advances x)
    (hf : ∀ a, Advances (f a)) : Advances (x >>= f) := by
  intro s
  have hfirst := hx s
  refine leaves_bind (P := s.Forward) (fun e t h => ?_) fun a t h => ?_
  · rwa [scopeAfter_of_error h] at hfirst
  · rw [scopeAfter_of_ok h] at hfirst
    exact hfirst.trans (hf a t)

/-- An action that leads to a later scope if it succeeds, and else changes nothing,
advances. -/
theorem of_follows {x : CompileM α} (hok : Follows Scope.Forward x) (hx : Cautious x) :
    Advances x := by
  intro s
  unfold scopeAfter
  split
  next a t hrun => exact hok hrun
  next e t hrun =>
    rw [hx s e t hrun]
    exact .refl s

/-- What only reads the scope leaves it, and so it advances. -/
protected theorem pure (a : α) : Advances (pure a : CompileM α) := of_follows (.pure a) (.pure a)

protected theorem get : Advances (get : CompileM Scope) := of_follows .get .get

protected theorem env (line : Nat) : Advances (CompileM.env line) :=
  of_follows (.env line) (.env line)

protected theorem nextAddress : Advances CompileM.nextAddress :=
  of_follows .nextAddress .nextAddress

protected theorem fail (line : Nat) (fault : CompileFault) :
    Advances (CompileM.fail line fault : CompileM α) :=
  of_follows (.fail line fault) (.fail line fault)

protected theorem liftM (x : Except CompileError α) : Advances (liftM x : CompileM α) :=
  of_follows (.liftM x) (.liftM x)

protected theorem lookup (name : String) (line : Nat) : Advances (CompileM.lookup name line) :=
  of_follows (.lookup name line) (.lookup name line)

protected theorem ensureUndeclared (name : String) :
    Advances (CompileM.ensureUndeclared name line) :=
  of_follows (.ensureUndeclared name line) (.ensureUndeclared name line)

/-! ### Allocation and counters -/

/-- **Allocating moves the cursor**, and never back: there is no room behind the end
of the address space. -/
protected theorem allocate (size : Nat) : Advances (allocate size line) := by
  refine of_follows (fun s address s' h => ?_) (.allocate size line)
  obtain ⟨hroom, -, rfl⟩ := allocate_eq_ok_iff.mp h
  exact .withSymbols { Symbols.Forward.refl s.symbols with nextAddress := le_addressAfter hroom }

/-- A directive is refused if its address lies before the cursor. -/
protected theorem moveCursor (region : Region) (address : UInt32) :
    Advances (moveCursor region address line) := by
  refine of_follows (fun s u s' h => ?_) (.moveCursor region address line)
  rw [moveCursor_eq_ok_iff] at h
  cases region with
  | cells =>
    obtain ⟨hle, rfl⟩ := h
    exact .withSymbols { Symbols.Forward.refl s.symbols with nextAddress := hle }
  | data =>
    obtain ⟨hle, rfl⟩ := h
    exact .withSymbols { Symbols.Forward.refl s.symbols with nextDataAddress := hle }

protected theorem newLabel : Advances newLabel :=
  fun s => { Scope.Forward.refl s with labels := Nat.le_succ _ }

protected theorem warn : Advances warn :=
  fun s => { Scope.Forward.refl s with warnings := Nat.le_succ _ }

/-! ### Bindings -/

protected theorem bindVariable (name : String) (v : Variable) : Advances (bindVariable name v) :=
  fun s => .withSymbols (.insertVariable s.symbols name v)

protected theorem declare (name : String) (v : Variable) : Advances (declare name v line) :=
  .bind (.ensureUndeclared name) fun _ => .bindVariable name v

/-- Recording a value binds the name again that it was found under. -/
protected theorem setValue (name : String) (value : Stored) :
    Advances (setValue name value line) := by
  refine of_follows (fun s u s' h => ?_) (.setValue name value line)
  obtain ⟨v, -, rfl⟩ := setValue_eq_ok_iff.mp h
  exact .withSymbols (.insertVariable s.symbols name _)

/-- A claimed label is added behind the others. -/
protected theorem claimLabel (label : String) : Advances (claimLabel label line) := by
  refine of_follows (fun s u s' h => ?_) (.claimLabel label line)
  obtain ⟨-, rfl⟩ := claimLabel_eq_ok_iff.mp h
  exact { Scope.Forward.refl s with functionLabels := List.subset_append_left _ _ }

protected theorem declareFunction (f : Function) : Advances (declareFunction f) :=
  fun s => { Scope.Forward.refl s with symbols := .insertFunction s.symbols f.name f }

protected theorem declareNamespace (n : Namespace) : Advances (declareNamespace n) :=
  fun s => { Scope.Forward.refl s with symbols := .insertNamespace s.symbols n.name n }

protected theorem emit (stream : Stream) (code : Fragment) : Advances (emit stream code) :=
  fun s => .emit s stream code

/-! ### Children -/

/-- **What runs in a child and folds it back advances.** A child that fails is dropped,
and then nothing has happened. -/
theorem inChild_sync {x : CompileM α} {link : Link} {enter : Scope → Scope}
    {f : α × Scope → Fragment → CompileM β} (hx : Advances x)
    (henter : ∀ s : Scope, ∃ path, enter (s.fork link) = { s.fork link with path := path })
    (hf : ∀ p code, Advances (f p code)) :
    Advances (inChild link enter x >>= fun p => CompileM.sync p.2 >>= f p) := by
  intro s
  show s.Forward (scopeAfter
    (EStateM.bind (inChild link enter x) fun p => CompileM.sync p.2 >>= f p) s)
  have hchild := hx (enter (s.fork link))
  obtain ⟨path, hpath⟩ := henter s
  unfold scopeAfter EStateM.bind CompileM.inChild at *
  cases hrun : x (enter (s.fork link)) with
  | error e child => exact .refl s
  | ok a child =>
    rw [hrun, hpath] at hchild
    exact Scope.Forward.trans (.sync _ path hchild) (hf (a, child) child.body (s.sync child))

/-- **A block that fails** is dropped, and its parent is where it was before. -/
protected theorem block {x : CompileM Unit} (link : Link) (hx : Advances x) :
    Advances (block link x) :=
  inChild_sync (f := fun _ => pure) hx (fun s => ⟨s.path, rfl⟩) fun _ _ => .pure _

/-- **An unrolled block advances.** It is folded back also if it fails. -/
protected theorem unrolled {x : CompileM Unit} (hx : Advances x) : Advances (unrolled x) := by
  intro s
  have hchild : Scope.Forward
      { s.fork .shared with mode := s.forkUnrolled.mode, path := s.path }
      (scopeAfter x s.forkUnrolled) := hx s.forkUnrolled
  rw [scopeAfter_unrolled]
  exact .sync _ _ hchild

end CompileM.Advances

/-! ## Statements -/

namespace CompileM

variable {line : Nat}

/-- Elements get their cells one by one. Those that were bound before the address
space ended stay bound. -/
theorem advances_reserveElements (list : String) (element : Scalar) (count index : Nat) :
    Advances (reserveElements line list element count index) := by
  induction count generalizing index with
  | zero => exact .pure ()
  | succ count ih =>
    exact .bind (.allocate _) fun _ => .bind (.bindVariable _ _) fun _ => ih (index + 1)

theorem advances_fillElements (list : String) (element : Scalar) (count index : Nat)
    (loads : List Loaded) : Advances (fillElements line list element count index loads) := by
  induction count generalizing index loads with
  | zero => exact .pure []
  | succ count ih =>
    cases loads with
    | nil =>
      exact .bind (.allocate _) fun _ => .bind (.bindVariable _ _) fun _ =>
        .bind (ih (index + 1) []) fun _ => .pure _
    | cons loaded rest =>
      exact .bind (.allocate _) fun _ => .bind (.bindVariable _ _) fun _ =>
        .bind (ih (index + 1) rest) fun _ => .pure _

theorem advances_elementType (element : Option Scalar) (items : List Expr) :
    Advances (elementType line element items) := by
  unfold elementType
  split
  · exact .pure _
  · exact .bind (.env line) fun _ => .bind (.liftM _) fun _ => .bind .warn fun _ => .pure _
  · exact .pure _

theorem advances_declareCopy (name : String) (element : Option Scalar) (len : Option Nat)
    (source : String) : Advances (declareCopy line name element len source) := by
  refine .bind (.lookup source line) fun v => ?_
  split
  · dsimp only
    split
    · exact .bind .nextAddress fun _ => .bind (advances_reserveElements _ _ _ _) fun _ =>
        .bind (.env line) fun _ => .bind (.liftM _) fun _ => .bind (.declare _ _) fun _ => .pure _
    · exact .fail _ _
  · exact .fail _ _

/-- Items are checked and loaded before any cell is handed out. -/
theorem advances_declareItems (name : String) (element : Option Scalar) (len : Option Nat)
    (value : Option Expr) : Advances (declareItems line name element len value) :=
  .bind (.env line) fun _ => .bind (.liftM _) fun _ => .bind (advances_elementType _ _) fun _ =>
    .bind (.liftM _) fun _ => .bind (.liftM _) fun _ => .bind (.liftM _) fun _ =>
    .bind .nextAddress fun _ => .bind (advances_fillElements _ _ _ _ _) fun _ =>
    .bind (.declare _ _) fun _ => .pure _

theorem advances_declareList (name : String) (element : Option Scalar) (len : Option Nat)
    (value : Option Expr) : Advances (declareList line name element len value) := by
  refine .bind (.ensureUndeclared name) fun _ => ?_
  split
  · exact advances_declareCopy name element len _
  · exact advances_declareItems name element len _

theorem advances_declareCell (type : ValueType) (name : String) (value : Expr) :
    Advances (declareCell line type name value) :=
  .bind (.ensureUndeclared name) fun _ => .bind (.env line) fun _ => .bind (.liftM _) fun _ =>
    .bind (.allocate _) fun _ => .bind (.declare _ _) fun _ => .pure _

theorem advances_declareVariable (type : ValueType) (name : String) (value : Expr) :
    Advances (declareVariable line type name value) := by
  unfold declareVariable
  split
  · exact advances_declareList name _ _ _
  · split
    · exact advances_declareList name _ _ _
    · exact advances_declareCell _ name _
  · exact advances_declareCell _ name _

theorem advances_reserveParam (name : String) (type : ValueType) :
    Advances (reserveParam line name type) := by
  cases type with
  | list element len => exact advances_reserveElements _ _ _ _
  | scalar | pointer => exact .bind (.allocate _) fun _ => .pure _

/-- Parameters are bound in the child, from left to right. -/
theorem advances_declareParams (formals : List Formal) :
    Advances (declareParams line formals) := by
  induction formals with
  | nil => exact .pure []
  | cons p rest ih =>
    exact .bind .nextAddress fun _ => .bind (advances_reserveParam _ _) fun _ =>
      .bind (.bindVariable _ _) fun _ => .bind ih fun _ => .pure _

theorem advances_assign (name : String) (value : Expr) : Advances (assign line name value) := by
  refine .bind (.lookup name line) fun v => .bind (.env line) fun env => ?_
  split
  · exact .bind (.liftM _) fun _ => .pure _
  · exact .bind (.liftM _) fun _ => .bind (.setValue _ _) fun _ => .pure _

theorem advances_assignAt (name : String) (index value : Expr) :
    Advances (assignAt line name index value) := by
  refine .bind (.lookup name line) fun v => .bind (.env line) fun env => ?_
  split
  · split
    · exact .bind (.liftM _) fun _ => .bind (.liftM _) fun _ => .bind (.setValue _ _) fun _ =>
        .pure _
    · exact .liftM _
  · exact .fail _ _

theorem advances_directive (region : Region) (address : UInt32) :
    Advances (directive line region address) := by
  refine .bind .get fun s => ?_
  split
  · exact .moveCursor region address
  · exact .fail _ _

/-- The copies of an unrolled loop run in one child, one after the other. -/
theorem advances_copies {x : CompileM Unit} (hx : Advances x) (var : String) (address : UInt32)
    (count index : Nat) : Advances (copies line var address x count index) := by
  induction count generalizing index with
  | zero => exact .pure ()
  | succ count ih =>
    exact .bind (.emit _ _) fun _ => .bind (.setValue _ _) fun _ => .bind hx fun _ =>
      ih (index + 1)

/-- **An unrolled loop advances**, also if one of its copies fails. -/
theorem advances_unroll {x : CompileM Unit} (hx : Advances x) (var iterable : String) :
    Advances (unroll line var iterable x) := by
  refine .bind (.lookup iterable line) fun v => ?_
  split
  · exact .unrolled (.bind (.allocate _) fun _ => .bind (.bindVariable _ _) fun _ =>
      advances_copies hx var _ _ _)
  · exact .fail _ _

/-- A branch counts its label first, and that is kept if the condition or a block
fails. -/
theorem advances_branch {x y : CompileM Unit} (hx : Advances x) (hy : Advances y)
    (cond : Condition) : Advances (branch line cond x y) :=
  .bind .newLabel fun _ => .bind (.env line) fun _ => .bind (.liftM _) fun _ =>
    .bind (.block .copy hx) fun _ => .bind (.block .copy hy) fun _ => .pure _

theorem advances_loop {x : CompileM Unit} (hx : Advances x) (cond : Condition) :
    Advances (loop line cond x) :=
  .bind .newLabel fun _ => .bind (.env line) fun _ => .bind (.liftM _) fun _ =>
    .bind (.block .copy hx) fun _ => .pure _

/-- **A function advances**: its label is claimed first, and what its block binds
stays in a child. -/
theorem advances_function {x : CompileM Unit} (hx : Advances x) (name : String)
    (formals : List Formal) : Advances (function line name formals x) := by
  refine .bind .get fun s => .bind (.claimLabel _) fun _ => .inChild_sync ?_
    (fun s => ⟨s.path, rfl⟩) fun p code => .bind .get fun _ => .bind (.declareFunction _) fun _ =>
    .pure _
  exact .bind (advances_declareParams formals) fun _ => .bind (.declareFunction _) fun _ =>
    .bind hx fun _ => .bind (.allocate 4) fun _ => .pure _

/-- A namespace is declared behind its block, if this succeeds. -/
theorem advances_space {x : CompileM Unit} (hx : Advances x) (name : String) :
    Advances (space name x) :=
  .inChild_sync hx (fun s => ⟨s.path ++ [name], rfl⟩) fun _ _ =>
    .bind (.declareNamespace _) fun _ => .pure _

theorem advances_unit {x : CompileM Unit} (hx : Advances x) (path : String) :
    Advances (unit path x) :=
  .bind (.block .isolated hx) fun _ => .pure _

end CompileM

/-- **A list of statements advances** if each of its statements does. -/
theorem advances_of_forall {stmts : List Stmt}
    (hstmts : ∀ stmt ∈ stmts, CompileM.Advances stmt.compile) :
    CompileM.Advances (compileAll stmts) := by
  induction stmts with
  | nil => exact .pure ()
  | cons stmt rest ih =>
    rw [List.forall_mem_cons] at hstmts
    exact .bind hstmts.1 fun _ => .bind (.emit _ _) fun _ => ih hstmts.2

/-- **Every statement advances.** -/
theorem Stmt.advances (stmt : Stmt) : CompileM.Advances stmt.compile := by
  induction stmt using Stmt.blockInduction with
  | simple stmt hsimple =>
    cases stmt with
    | declare line type name value => exact CompileM.advances_declareVariable type name value
    | declareList line name element len value =>
      exact CompileM.advances_declareList name element len value
    | assign line name value => exact CompileM.advances_assign name value
    | assignAt line name index value => exact CompileM.advances_assignAt name index value
    | call line space name args => exact .bind .get fun _ => .liftM _
    | embed line code => exact .bind (.env line) fun _ => .liftM _
    | poke line address type value => exact .bind (.env line) fun _ => .liftM _
    | directive line region address =>
      exact .bind (CompileM.advances_directive region address) fun _ => .pure _
    | branch | loop | unroll | function | space | unit => exact nomatch hsimple
  | branch line cond thenBody elseBody ih₁ ih₂ =>
    exact CompileM.advances_branch (advances_of_forall ih₁) (advances_of_forall ih₂) cond
  | loop line cond body ih => exact CompileM.advances_loop (advances_of_forall ih) cond
  | unroll line var iterable body ih =>
    exact CompileM.advances_unroll (advances_of_forall ih) var iterable
  | function line name formals body ih =>
    exact CompileM.advances_function (advances_of_forall ih) name formals
  | space line name body ih => exact CompileM.advances_space (advances_of_forall ih) name
  | unit line path body ih => exact CompileM.advances_unit (advances_of_forall ih) path

/-- **Compiling only moves forward**, also when it fails. From any scope on, whether the
statements compile or stop at a fault, what was there before is still there: cursors
and counters have not decreased, claimed labels and bound names are kept, the streams
have at most grown at their ends, and mode, link, namespace and settings are the same. -/
theorem compileAll_forward (stmts : List Stmt) (s : Scope) :
    s.Forward (CompileM.scopeAfter (compileAll stmts) s) :=
  advances_of_forall (fun stmt _ => stmt.advances) s

end RegMachine
