import RegMachine.Proofs.Cells
import RegMachine.Proofs.Forward
import RegMachine.Proofs.Streams

/-!
# Wherever compiling can get to

Statements are compiled in the scope of a program, in the scopes that blocks start from, and
behind whatever was compiled there before, also if that has failed: a failed run keeps its
scope, and another one may go on in it. `Scope.Reached` are all these scopes.

Two things hold of every list in sight in them (`Scope.Reached.lists`). It has a name that
some statement declares, so it is not an element of another list if no such name has a
bracket. And its elements end before the cursor, whatever names there are: a header is bound
when all its elements have got their cells, and never if they have not.

Both are kept by single actions, whether or not they fail (`CompileM.Retains`). A child keeps
them by itself, and folding it back needs nothing but that its cursor has not moved back.
-/

namespace RegMachine

variable {α β : Type} {names : String → Prop}

/-! ## Lists in sight -/

/-- **The lists in sight** have names of a kind, and their elements end before the cursor. -/
def Symbols.Lists (names : String → Prop) (s : Symbols Function Namespace) : Prop :=
  ∀ name v element len, s.vars.get? name = some v → v.type = .list element len →
    names name ∧ v.address.toNat + len * element.size ≤ s.nextAddress.toNat

namespace Symbols.Lists

variable {s t : Symbols Function Namespace}

/-- Where nothing is bound, no list is in sight. -/
theorem startingAt (nextAddress nextDataAddress : UInt32) :
    (Symbols.startingAt nextAddress nextDataAddress).Lists names := nofun

/-- The cursor may move forward. -/
theorem of_vars (h : s.Lists names) (hvars : t.vars = s.vars)
    (hle : s.nextAddress ≤ t.nextAddress) : t.Lists names := by
  intro name v element len hv htype
  rw [hvars] at hv
  obtain ⟨hname, hend⟩ := h name v element len hv htype
  exact ⟨hname, Nat.le_trans hend (UInt32.le_iff_toNat_le.mp hle)⟩

/-- **A variable may be bound** if it is no list, or one with a name of the kind whose
elements end before the cursor. -/
theorem insertVariable (h : s.Lists names) {name : String} {v : Variable}
    (hv : ∀ element len, v.type = .list element len →
      names name ∧ v.address.toNat + len * element.size ≤ s.nextAddress.toNat) :
    (s.insertVariable name v).Lists names := by
  intro other w element len hw htype
  unfold Symbols.insertVariable at hw
  by_cases hother : other = name
  · subst hother
    rw [Table.get?_insert_self, Option.some.injEq] at hw
    subst hw
    exact hv element len htype
  · rw [Table.get?_insert_of_ne _ hother] at hw
    exact h other w element len hw htype

/-- A single cell may be bound under any name. -/
theorem insertCell (h : s.Lists names) {name : String} {v : Variable}
    (hv : v.type.isList = false) : (s.insertVariable name v).Lists names := by
  refine h.insertVariable fun element len htype => ?_
  rw [htype] at hv
  exact nomatch hv

/-- What is recorded of a list moves neither it nor the cursor. -/
theorem setValue (h : s.Lists names) {name : String} {v : Variable}
    (hv : s.vars.get? name = some v) (value : Stored) :
    (s.insertVariable name { v with value := value }).Lists names :=
  h.insertVariable fun element len htype => h name v element len hv htype

end Symbols.Lists

section Scope

variable {s child : Scope}

/-- A child has the lists of its parent in sight, or none. -/
theorem Scope.lists_fork (hs : s.symbols.Lists names) (link : Link) :
    (s.fork link).symbols.Lists names := by
  cases link with
  | isolated => exact .startingAt _ _
  | copy | shared | passThrough => exact hs

theorem Scope.lists_emit (hs : s.symbols.Lists names) (stream : Stream) (code : Fragment) :
    (s.emit stream code).symbols.Lists names := by
  cases stream <;> exact hs

/-- A child that is folded back leaves its lists, or none, and its cursor. -/
theorem Scope.lists_sync (hs : s.symbols.Lists names) (hchild : child.symbols.Lists names)
    (hle : s.symbols.nextAddress ≤ child.symbols.nextAddress) :
    (s.sync child).symbols.Lists names := by
  show (s.syncSymbols child).Lists names
  by_cases hshared : child.link = .shared
  · unfold Scope.syncSymbols
    rw [hshared]
    exact hchild
  · have himports := Scope.imports_syncSymbols (s := s) hshared
    exact hs.of_vars himports.vars (himports.nextAddress ▸ hle)

end Scope

/-! ## Actions -/

namespace CompileM

/-- Behind an action that only reads the scope, what follows starts where that started; and
if the action fails, it leaves the scope as it was. -/
theorem leaves_of_reads {P : Scope → Prop} {x : CompileM α} {f : α → CompileM β} {s : Scope}
    (hx : Cautious x) (hreads : Follows Eq x) (hs : P s) (hf : ∀ a, P (scopeAfter (f a) s)) :
    P (scopeAfter (x >>= f) s) :=
  leaves_bind (fun e _ h => hx s e _ h ▸ hs) fun a _ h => hreads h ▸ hf a

/-- **An action retains the lists in sight**, whether or not it succeeds. -/
def Retains (names : String → Prop) (x : CompileM α) : Prop :=
  ∀ s : Scope, s.symbols.Lists names → (scopeAfter x s).symbols.Lists names

namespace Retains

variable {line : Nat}

/-- **A chain of actions retains the lists** if each of them does. -/
protected theorem bind {x : CompileM α} {f : α → CompileM β} (hx : Retains names x)
    (hf : ∀ a, Retains names (f a)) : Retains names (x >>= f) := by
  intro s hs
  have hfirst := hx s hs
  refine leaves_bind (P := fun t => t.symbols.Lists names) (fun e t h => ?_) fun a t h => ?_
  · rwa [scopeAfter_of_error h] at hfirst
  · rw [scopeAfter_of_ok h] at hfirst
    exact hf a t hfirst

/-- An action that retains the lists if it succeeds, and else changes nothing. -/
theorem of_cautious {x : CompileM α} (hx : Cautious x)
    (hok : ∀ s a t, s.symbols.Lists names → x s = .ok a t → t.symbols.Lists names) :
    Retains names x := by
  intro s hs
  unfold scopeAfter
  split
  next a t hrun => exact hok s a t hs hrun
  next e t hrun =>
    rw [hx s e t hrun]
    exact hs

/-- What only reads the scope retains the lists. -/
theorem of_reads {x : CompileM α} (hx : Cautious x) (hreads : Follows Eq x) : Retains names x :=
  of_cautious hx fun _ _ _ hs h => hreads h ▸ hs

protected theorem pure (a : α) : Retains names (pure a : CompileM α) :=
  of_reads (.pure a) (.pure a)

protected theorem get : Retains names (get : CompileM Scope) := of_reads .get .get

protected theorem env (line : Nat) : Retains names (CompileM.env line) :=
  of_reads (.env line) (.env line)

protected theorem nextAddress : Retains names CompileM.nextAddress :=
  of_reads .nextAddress .nextAddress

protected theorem fail (line : Nat) (fault : CompileFault) :
    Retains names (CompileM.fail line fault : CompileM α) :=
  of_reads (.fail line fault) (.fail line fault)

protected theorem liftM (x : Except CompileError α) : Retains names (liftM x : CompileM α) :=
  of_reads (.liftM x) (.liftM x)

protected theorem lookup (name : String) (line : Nat) :
    Retains names (CompileM.lookup name line) :=
  of_reads (.lookup name line) (.lookup name line)

protected theorem ensureUndeclared (name : String) :
    Retains names (CompileM.ensureUndeclared name line) :=
  of_reads (.ensureUndeclared name line) (.ensureUndeclared name line)

/-- The cursor moves forward only, so the elements still end before it. -/
protected theorem allocate (size : Nat) : Retains names (allocate size line) := by
  refine of_cautious (.allocate size line) fun s address t hs h => ?_
  obtain ⟨hroom, -, rfl⟩ := allocate_eq_ok_iff.mp h
  exact hs.of_vars rfl (le_addressAfter hroom)

/-- A directive leaves the cursor where it is, or takes it further from the elements. -/
protected theorem moveCursor (region : Region) (address : UInt32) :
    Retains names (moveCursor region address line) := by
  refine of_cautious (.moveCursor region address line) fun s u t hs h => ?_
  rw [moveCursor_eq_ok_iff] at h
  cases region with
  | cells =>
    obtain ⟨hle, rfl⟩ := h
    exact hs.of_vars rfl hle
  | data =>
    obtain ⟨-, rfl⟩ := h
    exact hs

protected theorem newLabel : Retains names newLabel := fun _ hs => hs

protected theorem warn : Retains names warn := fun _ hs => hs

protected theorem claimLabel (label : String) : Retains names (claimLabel label line) := by
  refine of_cautious (.claimLabel label line) fun s u t hs h => ?_
  obtain ⟨-, rfl⟩ := claimLabel_eq_ok_iff.mp h
  exact hs

protected theorem bindVariable (name : String) {v : Variable} (hv : v.type.isList = false) :
    Retains names (bindVariable name v) :=
  fun _ hs => hs.insertCell hv

/-- **A cell may be declared** under any name, because it is no list. -/
protected theorem declare (name : String) {v : Variable} (hv : v.type.isList = false) :
    Retains names (declare name v line) :=
  .bind (.ensureUndeclared name) fun _ => .bindVariable name hv

/-- A value is recorded of a variable that keeps its type and its address. -/
protected theorem setValue (name : String) (value : Stored) :
    Retains names (setValue name value line) := by
  refine of_cautious (.setValue name value line) fun s u t hs h => ?_
  obtain ⟨v, hv, rfl⟩ := setValue_eq_ok_iff.mp h
  exact hs.setValue hv value

protected theorem declareFunction (f : Function) : Retains names (declareFunction f) :=
  fun _ hs => hs

protected theorem declareNamespace (n : Namespace) : Retains names (declareNamespace n) :=
  fun _ hs => hs

protected theorem emit (stream : Stream) (code : Fragment) : Retains names (emit stream code) :=
  fun _ hs => Scope.lists_emit hs stream code

/-- **What runs in a child and folds it back** retains the lists. A child that fails is
dropped. -/
theorem inChild_sync {x : CompileM α} {link : Link} {enter : Scope → Scope}
    {f : α × Scope → Fragment → CompileM β} (hx : Retains names x) (hadvances : Advances x)
    (henter : ∀ s : Scope, ∃ path, enter (s.fork link) = { s.fork link with path := path })
    (hf : ∀ p code, Retains names (f p code)) :
    Retains names (inChild link enter x >>= fun p => CompileM.sync p.2 >>= f p) := by
  intro s hs
  obtain ⟨path, hpath⟩ := henter s
  refine leaves_bind (P := fun t => t.symbols.Lists names) (fun e t h => ?_) fun p t h => ?_
  · unfold inChild at h
    split at h
    · exact nomatch h
    · cases h
      exact hs
  · obtain ⟨a, child⟩ := p
    obtain ⟨hrun, rfl⟩ := inChild_eq_ok_iff.mp h
    have hchild := hx _ (show (enter (s.fork link)).symbols.Lists names by
      rw [hpath]
      exact Scope.lists_fork hs link)
    have hforward := (hadvances (enter (s.fork link))).symbols.nextAddress
    rw [scopeAfter_of_ok hrun] at hchild hforward
    have hcursor : (enter (s.fork link)).symbols.nextAddress = s.symbols.nextAddress := by
      rw [hpath]
      cases link <;> rfl
    exact hf _ _ _ (Scope.lists_sync hs hchild (hcursor ▸ hforward))

/-- A block retains the lists of its parent, whatever the parent takes back from it. -/
protected theorem block {x : CompileM Unit} (link : Link) (hx : Retains names x)
    (hadvances : Advances x) : Retains names (block link x) :=
  inChild_sync (f := fun _ => pure) hx hadvances (fun s => ⟨s.path, rfl⟩) fun _ _ => .pure _

/-- An unrolled block is folded back also if it fails. -/
protected theorem unrolled {x : CompileM Unit} (hx : Retains names x) (hadvances : Advances x) :
    Retains names (unrolled x) := by
  intro s hs
  rw [scopeAfter_unrolled]
  exact Scope.lists_sync hs (hx s.forkUnrolled hs) (hadvances s.forkUnrolled).symbols.nextAddress

end Retains

/-! ## Statements -/

variable {line : Nat}

/-- The elements of a list are single cells. -/
theorem retains_reserveElements (list : String) (element : Scalar) (count index : Nat) :
    Retains names (reserveElements line list element count index) := by
  induction count generalizing index with
  | zero => exact .pure ()
  | succ count ih =>
    exact .bind (.allocate _) fun _ => .bind (.bindVariable _ rfl) fun _ => ih (index + 1)

theorem retains_fillElements (list : String) (element : Scalar) (count index : Nat)
    (loads : List Loaded) : Retains names (fillElements line list element count index loads) := by
  induction count generalizing index loads with
  | zero => exact .pure []
  | succ count ih =>
    cases loads with
    | nil =>
      exact .bind (.allocate _) fun _ => .bind (.bindVariable _ rfl) fun _ =>
        .bind (ih (index + 1) []) fun _ => .pure _
    | cons loaded rest =>
      exact .bind (.allocate _) fun _ => .bind (.bindVariable _ rfl) fun _ =>
        .bind (ih (index + 1) rest) fun _ => .pure _

/-- **A header is bound behind the cells of its elements**, which start where the cursor stood
before them. -/
theorem retains_header {x : CompileM α} {bind : UInt32 → α → CompileM β} {element : Scalar}
    {len : Nat} (hx : Retains names x)
    (hcells : ∀ s a t, x s = .ok a t →
      t.symbols.nextAddress.toNat = s.symbols.nextAddress.toNat + len * element.size)
    (hbind : ∀ base a s, s.symbols.Lists names →
      base.toNat + len * element.size ≤ s.symbols.nextAddress.toNat →
      (scopeAfter (bind base a) s).symbols.Lists names) :
    Retains names (nextAddress >>= fun base => x >>= bind base) := by
  intro s hs
  have hafter := hx s hs
  show (scopeAfter (x >>= bind s.symbols.nextAddress) s).symbols.Lists names
  refine leaves_bind (P := fun t => t.symbols.Lists names) (fun e t h => ?_) fun a t h => ?_
  · rwa [scopeAfter_of_error h] at hafter
  · rw [scopeAfter_of_ok h] at hafter
    exact hbind _ a t hafter (Nat.le_of_eq (hcells s a t h).symm)

/-- To declare a list whose elements end before the cursor. -/
theorem leaves_declare {name : String} (hname : names name) {base : UInt32} {element : Scalar}
    {len : Nat} {s : Scope} (hs : s.symbols.Lists names)
    (hend : base.toNat + len * element.size ≤ s.symbols.nextAddress.toNat) (value : Stored)
    (a : α) :
    (scopeAfter (declare name ⟨base, .list element len, value⟩ line >>= fun _ => pure a)
      s).symbols.Lists names := by
  refine leaves_bind (P := fun t => t.symbols.Lists names) (fun e t h => ?_) fun u t h => ?_
  · obtain ⟨-, -, rfl⟩ := declare_eq_error_iff.mp h
    exact hs
  · obtain ⟨-, rfl⟩ := declare_eq_ok_iff.mp h
    refine hs.insertVariable fun element' len' htype => ?_
    cases htype
    exact ⟨hname, hend⟩

theorem retains_elementType (element : Option Scalar) (items : List Expr) :
    Retains names (elementType line element items) := by
  unfold elementType
  split
  · exact .pure _
  · exact .bind (.env line) fun _ => .bind (.liftM _) fun _ => .bind .warn fun _ => .pure _
  · exact .pure _

theorem retains_declareCopy {name : String} (hname : names name) (element : Option Scalar)
    (len : Option Nat) (source : String) :
    Retains names (declareCopy line name element len source) := by
  refine .bind (.lookup source line) fun v => ?_
  split
  · dsimp only
    split
    · refine retains_header (retains_reserveElements _ _ _ _)
        (fun _ _ _ => toNat_nextAddress_of_reserveElements) fun base _ s hs hend => ?_
      exact leaves_of_reads (P := fun t => t.symbols.Lists names) (.env line) (.env line) hs
        fun env => leaves_of_reads (P := fun t => t.symbols.Lists names) (.liftM _) (.liftM _) hs
          fun copy => leaves_declare hname hs hend _ _
    · exact .fail _ _
  · exact .fail _ _

/-- **A list of items is declared** under a name of the kind. Its elements have got their
cells before its header is bound. -/
theorem retains_declareItems {name : String} (hname : names name) (element : Option Scalar)
    (len : Option Nat) (value : Option Expr) :
    Retains names (declareItems line name element len value) :=
  .bind (.env line) fun _ => .bind (.liftM _) fun _ => .bind (retains_elementType _ _) fun _ =>
    .bind (.liftM _) fun _ => .bind (.liftM _) fun _ => .bind (.liftM _) fun _ =>
    retains_header (retains_fillElements _ _ _ _ _)
      (fun _ _ _ => toNat_nextAddress_of_fillElements)
      fun _ _ _ hs hend => leaves_declare hname hs hend _ _

theorem retains_declareList {name : String} (hname : names name) (element : Option Scalar)
    (len : Option Nat) (value : Option Expr) :
    Retains names (declareList line name element len value) := by
  refine .bind (.ensureUndeclared name) fun _ => ?_
  split
  · exact retains_declareCopy hname element len _
  · exact retains_declareItems hname element len _

theorem retains_declareCell {type : ValueType} (htype : type.isList = false) (name : String)
    (value : Expr) : Retains names (declareCell line type name value) :=
  .bind (.ensureUndeclared name) fun _ => .bind (.env line) fun _ => .bind (.liftM _) fun _ =>
    .bind (.allocate _) fun _ => .bind (.declare name htype) fun _ => .pure _

/-- A variable is declared as a list or as a cell, depending on its type and its value. -/
theorem retains_declareVariable {name : String} (hname : names name) (type : ValueType)
    (value : Expr) : Retains names (declareVariable line type name value) := by
  unfold declareVariable
  split
  · exact retains_declareList hname _ _ _
  · split
    · exact retains_declareList hname _ _ _
    · exact retains_declareCell rfl name _
  next hlist _ =>
    refine retains_declareCell ?_ name _
    cases type with
    | list element len => exact (hlist element len rfl).elim
    | scalar | pointer => rfl

/-- A parameter that is a list gets its elements' cells first, like any list. -/
theorem retains_declareParams {formals : List Formal} (hnames : ∀ p ∈ formals, names p.name) :
    Retains names (declareParams line formals) := by
  induction formals with
  | nil => exact .pure []
  | cons p rest ih =>
    obtain ⟨hname, hrest⟩ := List.forall_mem_cons.mp hnames
    obtain ⟨name, type⟩ := p
    cases type with
    | list element len =>
      refine retains_header (retains_reserveElements name element len 0)
        (fun _ _ _ => toNat_nextAddress_of_reserveElements) fun base _ s hs hend => ?_
      refine Retains.bind (ih hrest) (fun _ => .pure _) _ (hs.insertVariable fun _ _ htype => ?_)
      cases htype
      exact ⟨hname, hend⟩
    | scalar | pointer =>
      exact .bind .nextAddress fun _ => .bind (.bind (.allocate _) fun _ => .pure _) fun _ =>
        .bind (.bindVariable _ rfl) fun _ => .bind (ih hrest) fun _ => .pure _

/-- Assignments declare nothing. -/
theorem retains_assign (name : String) (value : Expr) :
    Retains names (assign line name value) := by
  refine .bind (.lookup name line) fun v => .bind (.env line) fun env => ?_
  split
  · exact .bind (.liftM _) fun _ => .pure _
  · exact .bind (.liftM _) fun _ => .bind (.setValue _ _) fun _ => .pure _

theorem retains_assignAt (name : String) (index value : Expr) :
    Retains names (assignAt line name index value) := by
  refine .bind (.lookup name line) fun v => .bind (.env line) fun env => ?_
  split
  · split
    · exact .bind (.liftM _) fun _ => .bind (.liftM _) fun _ => .bind (.setValue _ _) fun _ =>
        .pure _
    · exact .liftM _
  · exact .fail _ _

theorem retains_directive (region : Region) (address : UInt32) :
    Retains names (directive line region address) := by
  refine .bind .get fun s => ?_
  split
  · exact .moveCursor region address
  · exact .fail _ _

section Blocks

variable {x y : CompileM Unit}

/-- A copy may declare lists of its own, and the next one finds them in sight. -/
theorem retains_copies (hx : Retains names x) (var : String) (address : UInt32)
    (count index : Nat) : Retains names (copies line var address x count index) := by
  induction count generalizing index with
  | zero => exact .pure ()
  | succ count ih =>
    exact .bind (.emit _ _) fun _ => .bind (.setValue _ _) fun _ => .bind hx fun _ =>
      ih (index + 1)

/-- **An unrolled loop** binds its variable to a cell, and works on the lists of its parent.
-/
theorem retains_unroll (hx : Retains names x) (hadvances : Advances x) (var iterable : String) :
    Retains names (unroll line var iterable x) := by
  refine .bind (.lookup iterable line) fun v => ?_
  split
  · exact .unrolled (.bind (.allocate _) fun _ => .bind (.bindVariable _ rfl) fun _ =>
      retains_copies hx var _ _ _)
      (.bind (.allocate _) fun _ => .bind (.bindVariable _ _) fun _ =>
        advances_copies hadvances var _ _ _)
  · exact .fail _ _

theorem retains_branch (hx : Retains names x) (hxadvances : Advances x) (hy : Retains names y)
    (hyadvances : Advances y) (cond : Condition) : Retains names (branch line cond x y) :=
  .bind .newLabel fun _ => .bind (.env line) fun _ => .bind (.liftM _) fun _ =>
    .bind (.block .copy hx hxadvances) fun _ =>
      .bind (.block .copy hy hyadvances) fun _ => .pure _

theorem retains_loop (hx : Retains names x) (hadvances : Advances x) (cond : Condition) :
    Retains names (loop line cond x) :=
  .bind .newLabel fun _ => .bind (.env line) fun _ => .bind (.liftM _) fun _ =>
    .bind (.block .copy hx hadvances) fun _ => .pure _

/-- **A function** declares its parameters in a child, and its parent gets the cursor back.
-/
theorem retains_function (hx : Retains names x) (hadvances : Advances x) (name : String)
    {formals : List Formal} (hnames : ∀ p ∈ formals, names p.name) :
    Retains names (function line name formals x) := by
  refine .bind .get fun s => .bind (.claimLabel _) fun _ => .inChild_sync ?_ ?_
    (fun s => ⟨s.path, rfl⟩) fun p code => .bind .get fun _ => .bind (.declareFunction _) fun _ =>
    .pure _
  · exact .bind (retains_declareParams hnames) fun _ => .bind (.declareFunction _) fun _ =>
      .bind hx fun _ => .bind (.allocate 4) fun _ => .pure _
  · exact .bind (advances_declareParams formals) fun _ => .bind (.declareFunction _) fun _ =>
      .bind hadvances fun _ => .bind (.allocate 4) fun _ => .pure _

theorem retains_space (hx : Retains names x) (hadvances : Advances x) (name : String) :
    Retains names (space name x) :=
  .inChild_sync hx hadvances (fun s => ⟨s.path ++ [name], rfl⟩) fun _ _ =>
    .bind (.declareNamespace _) fun _ => .pure _

theorem retains_unit (hx : Retains names x) (hadvances : Advances x) (path : String) :
    Retains names (unit path x) :=
  .bind (.block .isolated hx hadvances) fun _ => .pure _

end Blocks

end CompileM

/-- **The variables that a statement declares have names of a kind**, as far as it goes
itself. -/
def Stmt.DeclaresOnly (names : String → Prop) : Stmt → Prop
  | declare _ _ name _ | declareList _ name _ _ _ => names name
  | unroll _ var _ _ => names var
  | function _ _ formals _ => ∀ p ∈ formals, names p.name
  | _ => True

/-- A block retains the lists if its statements do and all names in it are of the kind. -/
theorem retains_of_partsAll {stmts : List Stmt}
    (ih : ∀ stmt ∈ stmts, (∀ part ∈ stmt.parts, part.DeclaresOnly names) →
      CompileM.Retains names stmt.compile)
    (hnames : ∀ part ∈ partsAll stmts, part.DeclaresOnly names) :
    CompileM.Retains names (compileAll stmts) := by
  induction stmts with
  | nil => exact .pure ()
  | cons stmt rest ihrest =>
    rw [List.forall_mem_cons] at ih
    rw [partsAll, List.forall_mem_append] at hnames
    exact .bind (ih.1 hnames.1) fun _ => .bind (.emit _ _) fun _ => ihrest ih.2 hnames.2

/-- **Every statement retains the lists in sight**, whether or not it compiles. -/
theorem Stmt.retains (stmt : Stmt) (hnames : ∀ part ∈ stmt.parts, part.DeclaresOnly names) :
    CompileM.Retains names stmt.compile := by
  have hadvances : ∀ body : List Stmt, CompileM.Advances (compileAll body) := compileAll_forward
  induction stmt using Stmt.blockInduction with
  | simple stmt hsimple =>
    have hself : stmt.DeclaresOnly names := hnames stmt stmt.mem_parts_self
    cases stmt with
    | declare line type name value => exact CompileM.retains_declareVariable hself type value
    | declareList line name element len value =>
      exact CompileM.retains_declareList hself element len value
    | assign line name value => exact CompileM.retains_assign name value
    | assignAt line name index value => exact CompileM.retains_assignAt name index value
    | call line space name args => exact .bind .get fun _ => .liftM _
    | embed line code => exact .bind (.env line) fun _ => .liftM _
    | poke line address type value => exact .bind (.env line) fun _ => .liftM _
    | directive line region address =>
      exact .bind (CompileM.retains_directive region address) fun _ => .pure _
    | branch | loop | unroll | function | space | unit => exact nomatch hsimple
  | branch line cond thenBody elseBody ih₁ ih₂ =>
    rw [Stmt.parts, List.forall_mem_cons, List.forall_mem_append] at hnames
    exact CompileM.retains_branch (retains_of_partsAll ih₁ hnames.2.1) (hadvances thenBody)
      (retains_of_partsAll ih₂ hnames.2.2) (hadvances elseBody) cond
  | loop line cond body ih =>
    rw [Stmt.parts, List.forall_mem_cons] at hnames
    exact CompileM.retains_loop (retains_of_partsAll ih hnames.2) (hadvances body) cond
  | unroll line var iterable body ih =>
    rw [Stmt.parts, List.forall_mem_cons] at hnames
    exact CompileM.retains_unroll (retains_of_partsAll ih hnames.2) (hadvances body) var iterable
  | function line name formals body ih =>
    rw [Stmt.parts, List.forall_mem_cons] at hnames
    exact CompileM.retains_function (retains_of_partsAll ih hnames.2)
      (hadvances body) name hnames.1
  | space line name body ih =>
    rw [Stmt.parts, List.forall_mem_cons] at hnames
    exact CompileM.retains_space (retains_of_partsAll ih hnames.2) (hadvances body) name
  | unit line path body ih =>
    rw [Stmt.parts, List.forall_mem_cons] at hnames
    exact CompileM.retains_unit (retains_of_partsAll ih hnames.2) (hadvances body) path

/-- **A list of statements retains the lists** if it declares names of the kind only. -/
theorem retains_compileAll {stmts : List Stmt}
    (hnames : ∀ part ∈ partsAll stmts, part.DeclaresOnly names) :
    CompileM.Retains names (compileAll stmts) :=
  retains_of_partsAll (fun stmt _ => stmt.retains) hnames

/-! ## Scopes -/

/-- **The scopes that compiling can get to**, where statements declare variables with names of
a kind only: behind statements, compiled or not, and where the blocks of a statement start.
What only makes them harder to reach is left out: that a condition compiles, that a label is
free, that a list has so many elements, or that the statements before have compiled. -/
inductive Scope.Reached (names : String → Prop) (config : Config) : Scope → Prop
  | start (nextAddress nextDataAddress : UInt32) :
    Reached names config (.startingAt config nextAddress nextDataAddress)
  /-- Behind statements, or where the first of them that fails has left the scope. -/
  | behind {s : Scope} {stmts : List Stmt} (hs : Reached names config s)
      (hnames : ∀ part ∈ partsAll stmts, part.DeclaresOnly names) :
      Reached names config (CompileM.scopeAfter (compileAll stmts) s)
  /-- The block of a loop, and the first one of a branch. -/
  | block {s : Scope} (hs : Reached names config s) :
      Reached names config (s.nextLabel.fork .copy)
  /-- The second block of a branch, behind the first. -/
  | second {s : Scope} {stmts : List Stmt} (hs : Reached names config s)
      (hnames : ∀ part ∈ partsAll stmts, part.DeclaresOnly names) :
      Reached names config
        ((s.nextLabel.sync
          (CompileM.scopeAfter (compileAll stmts) (s.nextLabel.fork .copy))).fork .copy)
  /-- What the copies of the block of an unrolled loop start from, when its variable has a
  cell. -/
  | indexed {s : Scope} {var : String} (hs : Reached names config s)
      (hroom : s.symbols.nextAddress.toNat + Scalar.int.size < UInt32.size) :
      Reached names config (s.forkIndexed var)
  /-- One of the copies. -/
  | atIndex {s : Scope} (line : Nat) (var : String) (address : UInt32) (index : Nat)
      (hs : Reached names config s) : Reached names config (s.atIndex line var address index)
  /-- The body of a function, which sees the parameters and the function itself. -/
  | body {s : Scope} (line : Nat) (name : String) {formals : List Formal}
      (hs : Reached names config s) (hnames : ∀ p ∈ formals, names p.name) :
      Reached names config (s.forkFunction line name formals)
  | space {s : Scope} (name : String) (hs : Reached names config s) :
      Reached names config ((s.fork .passThrough).enter name)
  | unit {s : Scope} (hs : Reached names config s) : Reached names config (s.fork .isolated)

/-- **Wherever compiling gets to, the lists in sight** have names that were declared, and their
elements end before the cursor. -/
theorem Scope.Reached.lists {config : Config} {s : Scope} (h : Reached names config s) :
    s.symbols.Lists names := by
  induction h with
  | start => exact .startingAt _ _
  | behind hs hnames ih => exact retains_compileAll hnames _ ih
  | @block s hs ih => exact Scope.lists_fork (s := s.nextLabel) ih .copy
  | @second s stmts hs hnames ih =>
    have hfork := Scope.lists_fork (s := s.nextLabel) ih .copy
    have hforward := (compileAll_forward stmts (s.nextLabel.fork .copy)).symbols.nextAddress
    exact Scope.lists_fork (Scope.lists_sync (s := s.nextLabel) ih
      (retains_compileAll hnames _ hfork) hforward) .copy
  | @indexed s var hs hroom ih =>
    have hmoved : Symbols.Lists names { s.symbols with
        nextAddress := addressAfter s.symbols.nextAddress Scalar.int.size } :=
      ih.of_vars rfl (le_addressAfter hroom)
    exact hmoved.insertCell rfl
  | atIndex line var address index hs ih =>
    exact CompileM.Retains.bind (.emit _ _) (fun _ => .setValue _ _) _ ih
  | @body s line name formals hs hnames ih =>
    have hfork : Symbols.Lists names
        ({ s with functionLabels := s.functionLabels ++ [s.qualify name] }.fork .copy).symbols :=
      ih
    exact CompileM.Retains.bind (CompileM.retains_declareParams hnames)
      (fun _ => .declareFunction _) _ hfork
  | space name hs ih => exact ih
  | unit hs ih => exact Scope.lists_fork ih .isolated

namespace Scope

/-- The scope behind the declaration of a list of two elements. -/
def holdingPair : Scope :=
  CompileM.scopeAfter
    (compileAll [.declareList 1 "xs" (some .int) none (some (.list [.int 1, .int 2]))]) (.root {})

theorem reached_holdingPair (hname : names "xs") : Reached names {} holdingPair := by
  refine .behind (.start _ _) fun part hpart => ?_
  obtain rfl := List.mem_singleton.mp hpart
  exact hname

end Scope

end RegMachine
