import RegMachine.Proofs.Faults
import RegMachine.Proofs.Skeleton
import RegMachine.Proofs.Streams

/-!
# Runs that are moved

Where the cells of variables start is a setting, and a run that starts elsewhere
hands out other addresses. One scope is *moved* against another
(`Scope.Moved`) if all addresses differ by the same distance and the code that
was produced matches; what is recorded of values, where the data region is,
and the texts that functions keep do not matter.

An action *relocates* (`CompileM.Relocates`) if from moved scopes it leads to the
same error, or to related answers and moved scopes again. There is one exception,
and it is the reason for the third way in which outcomes can correspond: the
address space ends, and it may end for one of the two runs only.

A directive is bound to an address, and what is embedded may spell one. All other
statements relocate (`relocates_compileAll`).
-/

namespace RegMachine

variable {α β γ δ : Type} {d : Int}

/-! ## Moved symbols -/

/-- **An address is shifted** by a distance to another, without wrapping around. -/
def Shifted (d : Int) (a b : UInt32) : Prop := (b.toNat : Int) = a.toNat + d

/-- A variable is moved: it has the same type, and its address is shifted. -/
structure Variable.Moved (d : Int) (v w : Variable) : Prop where
  type : v.type = w.type
  address : Shifted d v.address w.address

/-- A parameter is moved. -/
structure Param.Moved (d : Int) (p q : Param) : Prop where
  name : p.name = q.name
  type : p.type = q.type
  address : Shifted d p.address q.address

/-- **A function is moved**: its parameters are, and the variables that it records. -/
structure Function.Moved (d : Int) (f g : Function) : Prop where
  name : f.name = g.name
  label : f.label = g.label
  params : List.Forall₂ (Param.Moved d) f.params g.params
  vars : f.symbols.vars.Related (Variable.Moved d) g.symbols.vars

/-- A namespace is moved: its variables and functions are. -/
structure Namespace.Moved (d : Int) (m n : Namespace) : Prop where
  name : m.name = n.name
  vars : m.symbols.vars.Related (Variable.Moved d) n.symbols.vars
  functions : m.symbols.functions.Related (Function.Moved d) n.symbols.functions

/-- **Symbols are moved**, at every depth, and so is the cursor of cells. -/
structure Symbols.Moved (d : Int) (s t : Symbols Function Namespace) : Prop where
  vars : s.vars.Related (Variable.Moved d) t.vars
  functions : s.functions.Related (Function.Moved d) t.functions
  namespaces : s.namespaces.Related (Namespace.Moved d) t.namespaces
  nextAddress : Shifted d s.nextAddress t.nextAddress

namespace Symbols.Moved

variable {s t : Symbols Function Namespace}

/-- Without symbols only the cursors can differ, and they differ by the distance. -/
theorem startingAt {a b : UInt32} (h : Shifted d a b) (data data' : UInt32) :
    Moved d (.startingAt a data) (.startingAt b data') where
  vars := .empty
  functions := .empty
  namespaces := .empty
  nextAddress := h

/-- Moved variables may be bound under the same name. -/
theorem insertVariable (h : s.Moved d t) (name : String) {v w : Variable} (hvw : v.Moved d w) :
    (s.insertVariable name v).Moved d (t.insertVariable name w) :=
  { h with vars := h.vars.insert name hvw }

/-- Moved functions may be bound under the same name. -/
theorem insertFunction (h : s.Moved d t) (name : String) {f g : Function} (hfg : f.Moved d g) :
    (s.insertFunction name f).Moved d (t.insertFunction name g) :=
  { h with functions := h.functions.insert name hfg }

theorem insertNamespace (h : s.Moved d t) (name : String) {m n : Namespace} (hmn : m.Moved d n) :
    (s.insertNamespace name m).Moved d (t.insertNamespace name n) :=
  { h with namespaces := h.namespaces.insert name hmn }

/-- The cursor of a child is moved as that of its parent was. -/
theorem adoptCursors (h : s.Moved d t) {s' t' : Symbols Function Namespace} (h' : s'.Moved d t') :
    (s.adoptCursors s').Moved d (t.adoptCursors t') :=
  { h with nextAddress := h'.nextAddress }

end Symbols.Moved

/-! ## Moved scopes -/

/-- **A scope is moved against another**: the symbols are, and the code matches. -/
structure Scope.Moved (d : Int) (s t : Scope) : Prop where
  symbols : s.symbols.Moved d t.symbols
  labels : s.labels = t.labels
  functionLabels : s.functionLabels = t.functionLabels
  warnings : s.warnings = t.warnings
  mode : s.mode = t.mode
  link : s.link = t.link
  path : s.path = t.path
  exports : s.exports = t.exports
  body : s.body.Matches t.body
  definitions : s.definitions.Matches t.definitions

namespace Scope.Moved

variable {s t : Scope}

/-- Expressions see variables of the same types in moved scopes. -/
theorem env (h : s.Moved d t) (line : Nat) : (s.env line).SameTypes (t.env line) where
  vars := h.symbols.vars.imp fun _ _ hvw => hvw.type
  line := rfl

/-- Names do not depend on addresses, and so labels do not either. -/
theorem qualify (h : s.Moved d t) (name : String) : s.qualify name = t.qualify name := by
  unfold Scope.qualify
  rw [h.path]

/-- Matching code may be appended to the streams. -/
theorem emit (h : s.Moved d t) (stream : Stream) {code code' : Fragment}
    (hcode : code.Matches code') : (s.emit stream code).Moved d (t.emit stream code') := by
  cases stream with
  | body => exact { h with body := h.body.append hcode }
  | definitions => exact { h with definitions := h.definitions.append hcode }
  | silent => exact h

/-- **The children of moved scopes are moved**, whatever the link. -/
theorem fork (h : s.Moved d t) (link : Link) : (s.fork link).Moved d (t.fork link) := by
  refine { h with symbols := ?_, mode := ?_, link := rfl, exports := rfl, body := .nil,
                  definitions := .nil }
  · cases link with
    | isolated => exact .startingAt h.symbols.nextAddress _ _
    | copy | shared | passThrough => exact h.symbols
  · unfold Scope.fork
    rw [h.mode]

theorem forkUnrolled (h : s.Moved d t) : s.forkUnrolled.Moved d t.forkUnrolled := by
  have hfork := h.fork .shared
  refine { hfork with mode := ?_ }
  unfold Scope.forkUnrolled
  rw [hfork.mode]

theorem enter (h : s.Moved d t) (name : String) : (s.enter name).Moved d (t.enter name) :=
  { h with path := congrArg (· ++ [name]) h.path }

/-- Exports are copied to moved values. -/
theorem copyExport (h : s.Moved d t) {u v : Symbols Function Namespace} (huv : u.Moved d v)
    (entry : Export) : (s.copyExport u entry).Moved d (t.copyExport v entry) := by
  cases entry with
  | function name =>
    unfold Scope.copyExport
    dsimp only
    obtain ⟨hs, ht⟩ | ⟨f, g, hs, ht, hfg⟩ := h.symbols.functions.get?_cases name <;> rw [hs, ht]
    · exact huv
    · exact huv.insertFunction name hfg
  | space name =>
    unfold Scope.copyExport
    dsimp only
    obtain ⟨hs, ht⟩ | ⟨m, n, hs, ht, hmn⟩ := h.symbols.namespaces.get?_cases name <;> rw [hs, ht]
    · exact huv
    · exact huv.insertNamespace name hmn

/-- Exports are taken over one by one, by their names. -/
theorem foldl_copyExport (h : s.Moved d t) {u v : Symbols Function Namespace} (huv : u.Moved d v)
    (entries : List Export) :
    (entries.foldl s.copyExport u).Moved d (entries.foldl t.copyExport v) := by
  induction entries generalizing u v with
  | nil => exact huv
  | cons entry rest ih => exact ih (h.copyExport huv entry)

/-- What a namespace is bound to is moved with the scope of its block. -/
theorem exportedSymbols (h : s.Moved d t) : s.exportedSymbols.Moved d t.exportedSymbols := by
  unfold Scope.exportedSymbols
  rw [h.exports]
  exact h.foldl_copyExport (.startingAt h.symbols.nextAddress _ _) _

/-- **Folding moved children back** keeps scopes moved. -/
theorem sync (h : s.Moved d t) {child child' : Scope} (hchild : child.Moved d child') :
    (s.sync child).Moved d (t.sync child') := by
  have hadopt := h.symbols.adoptCursors hchild.symbols
  refine { h with symbols := ?_, labels := hchild.labels, functionLabels := hchild.functionLabels,
                  warnings := hchild.warnings, exports := ?_,
                  definitions := h.definitions.append hchild.definitions }
  · show (s.syncSymbols child).Moved d (t.syncSymbols child')
    unfold Scope.syncSymbols
    rw [hchild.link, hchild.exports]
    split
    · exact hadopt
    · exact hchild.symbols
    all_goals exact hchild.foldl_copyExport hadopt _
  · show s.syncExports child = t.syncExports child'
    unfold Scope.syncExports
    rw [hchild.link, hchild.exports, h.exports]

end Scope.Moved

/-! ## Relocation -/

namespace CompileM

/-- **Two outcomes correspond**: the answers are related and the scopes moved, or the
error is the same, or one of the two runs found no room. -/
inductive Corresponds (d : Int) (Q : α → β → Prop) :
    EStateM.Result CompileError Scope α → EStateM.Result CompileError Scope β → Prop
  | ok {a : α} {b : β} {s t : Scope} (hanswer : Q a b) (hscope : s.Moved d t) :
      Corresponds d Q (.ok a s) (.ok b t)
  | error (e : CompileError) (s t : Scope) : Corresponds d Q (.error e s) (.error e t)
  | fullLeft {e : CompileError} (he : e.IsOverflow) (s : Scope)
      (r : EStateM.Result CompileError Scope β) : Corresponds d Q (.error e s) r
  | fullRight {e : CompileError} (he : e.IsOverflow) (t : Scope)
      (r : EStateM.Result CompileError Scope α) : Corresponds d Q r (.error e t)

/-- **Two actions relocate**: from moved scopes they lead to outcomes that correspond. -/
def Relocates (d : Int) (Q : α → β → Prop) (x : CompileM α) (y : CompileM β) : Prop :=
  ∀ ⦃s t⦄, s.Moved d t → Corresponds d Q (x s) (y t)

namespace Relocates

open Fragment (Matches)

variable {Q : α → β → Prop} {P : γ → δ → Prop} {line : Nat}

/-- **A chain of actions relocates** if each of them does. Where one of the two runs
finds no room, the chain ends there. -/
protected theorem bind {x : CompileM α} {y : CompileM β} {f : α → CompileM γ} {g : β → CompileM δ}
    (hxy : Relocates d Q x y) (hfg : ∀ a b, Q a b → Relocates d P (f a) (g b)) :
    Relocates d P (x >>= f) (y >>= g) := by
  intro s t h
  have hcorr := hxy h
  show Corresponds d P (EStateM.bind x f s) (EStateM.bind y g t)
  unfold EStateM.bind
  generalize x s = r, y t = r' at hcorr
  cases hcorr with
  | ok hanswer hscope => exact hfg _ _ hanswer hscope
  | error e => exact .error e _ _
  | fullLeft he s => exact .fullLeft he s _
  | fullRight he t => exact .fullRight he t _

/-- A chain that goes on with the same answer. -/
theorem bind_eq {x y : CompileM α} {f : α → CompileM γ} {g : α → CompileM δ}
    (hxy : Relocates d Eq x y) (hfg : ∀ a, Relocates d P (f a) (g a)) :
    Relocates d P (x >>= f) (y >>= g) :=
  hxy.bind fun a _ heq => heq ▸ hfg a

protected theorem pure {a : α} {b : β} (h : Q a b) : Relocates d Q (pure a) (pure b) :=
  fun _ _ hscope => .ok h hscope

/-- Outcomes that are the same are taken over into the scopes. -/
protected theorem liftM {x : Except CompileError α} {y : Except CompileError β}
    (h : SameOutcome Q x y) : Relocates d Q (liftM x) (liftM y) := by
  intro s t hscope
  cases h with
  | ok h => exact .ok h hscope
  | error e => exact .error e s t

/-- A fault that names no address is raised in both. -/
protected theorem fail (line : Nat) (fault : CompileFault) :
    Relocates d Q (fail line fault) (fail line fault) :=
  fun s t _ => .error _ s t

/-- An action that reads the scope may go on in moved ones. -/
protected theorem get : Relocates d (Scope.Moved d) get get := fun _ _ h => .ok h h

protected theorem env : Relocates d Env.SameTypes (CompileM.env line) (CompileM.env line) :=
  fun _ _ h => .ok (h.env line) h

/-- **A variable is looked up** to one of the same type, whose address is shifted. -/
theorem lookup_bind (name : String) {f : Variable → CompileM α} {g : Variable → CompileM β}
    (hfg : ∀ type a b v w, Shifted d a b → Relocates d Q (f ⟨a, type, v⟩) (g ⟨b, type, w⟩)) :
    Relocates d Q (CompileM.lookup name line >>= f) (CompileM.lookup name line >>= g) := by
  refine .bind (Q := Variable.Moved d) (fun s t h => ?_)
    fun ⟨a, type, v⟩ ⟨b, _, w⟩ ⟨htype, haddress⟩ => ?_
  · unfold CompileM.lookup Env.lookup Scope.env
    dsimp only
    obtain ⟨hs, ht⟩ | ⟨v, w, hs, ht, hvw⟩ := h.symbols.vars.get?_cases name <;> rw [hs, ht]
    · rw [h.symbols.vars.keys]
      exact .error _ s t
    · exact .ok hvw h
  · cases htype
    exact hfg type a b v w haddress

/-! ### Allocation and counters -/

protected theorem nextAddress : Relocates d (Shifted d) nextAddress nextAddress :=
  fun _ _ h => .ok h.symbols.nextAddress h

/-- **Cells are handed out at the same distance**, as long as there is room for both. -/
protected theorem allocate (size : Nat) :
    Relocates d (Shifted d) (allocate size line) (allocate size line) := by
  intro s t h
  have hcursor := h.symbols.nextAddress
  unfold allocate Symbols.allocate?
  by_cases hs : s.symbols.nextAddress.toNat + size < UInt32.size
  · by_cases ht : t.symbols.nextAddress.toNat + size < UInt32.size
    · rw [if_pos hs, if_pos ht]
      have hnext : Shifted d (UInt32.ofNat (s.symbols.nextAddress.toNat + size))
          (UInt32.ofNat (t.symbols.nextAddress.toNat + size)) := by
        unfold Shifted at hcursor ⊢
        rw [UInt32.toNat_ofNat_of_lt' hs, UInt32.toNat_ofNat_of_lt' ht]
        omega
      exact .ok hcursor { h with symbols := { h.symbols with nextAddress := hnext } }
    · rw [if_neg ht]
      exact .fullRight ⟨size, _, rfl⟩ t _
  · rw [if_neg hs]
    exact .fullLeft ⟨size, _, rfl⟩ s _

/-- **Labels are counted alike**, since no address is in them. -/
protected theorem newLabel : Relocates d Eq newLabel newLabel :=
  fun _ _ h => .ok h.labels { h with labels := congrArg (· + 1) h.labels }

protected theorem warn : Relocates d Eq warn warn :=
  fun _ _ h => .ok rfl { h with warnings := congrArg (· + 1) h.warnings }

/-! ### Variables -/

/-- A name is bound in both scopes or in neither. -/
protected theorem ensureUndeclared (name : String) :
    Relocates d Eq (ensureUndeclared name line) (ensureUndeclared name line) := by
  intro s t h
  unfold ensureUndeclared
  rw [h.symbols.vars.contains, h.mode]
  split
  · exact .error _ s t
  · exact .ok rfl h

/-- A name may be bound to cells at the distance of the scopes. -/
protected theorem bindVariable (name : String) (type : ValueType) {a b : UInt32}
    (h : Shifted d a b) (v w : Stored) :
    Relocates d Eq (bindVariable name ⟨a, type, v⟩) (bindVariable name ⟨b, type, w⟩) :=
  fun _ _ hscope => .ok rfl
    { hscope with symbols := hscope.symbols.insertVariable name ⟨rfl, h⟩ }

protected theorem declare (name : String) (type : ValueType) {a b : UInt32} (h : Shifted d a b)
    (v w : Stored) :
    Relocates d Eq (declare name ⟨a, type, v⟩ line) (declare name ⟨b, type, w⟩ line) :=
  .bind_eq (.ensureUndeclared name) fun _ => .bindVariable name type h v w

/-- Whatever values are recorded, no variable is moved by it. -/
protected theorem setValue (name : String) (v w : Stored) :
    Relocates d Eq (setValue name v line) (setValue name w line) := by
  intro s t h
  unfold setValue Symbols.setValue?
  obtain ⟨hs, ht⟩ | ⟨x, y, hs, ht, hxy⟩ := h.symbols.vars.get?_cases name <;> rw [hs, ht]
  · dsimp only [Option.map_none]
    rw [h.symbols.vars.keys]
    exact .error _ s t
  · exact .ok rfl
      { h with symbols := h.symbols.insertVariable name ⟨hxy.type, hxy.address⟩ }

/-! ### Functions and namespaces -/

/-- A label is refused in both scopes or in neither. -/
protected theorem claimLabel (label : String) :
    Relocates d Eq (claimLabel label line) (claimLabel label line) := by
  intro s t h
  unfold claimLabel
  rw [h.functionLabels]
  split
  · exact .error _ s t
  · exact .ok rfl { h with functionLabels := rfl }

/-- Moved functions may be declared, and exported under their common name. -/
protected theorem declareFunction {f g : Function} (hfg : f.Moved d g) :
    Relocates d Eq (declareFunction f) (declareFunction g) := by
  intro s t h
  unfold declareFunction
  rw [hfg.name, h.exports]
  exact .ok rfl { h with symbols := h.symbols.insertFunction g.name hfg, exports := rfl }

protected theorem declareNamespace {m n : Namespace} (hmn : m.Moved d n) :
    Relocates d Eq (declareNamespace m) (declareNamespace n) := by
  intro s t h
  unfold declareNamespace
  rw [hmn.name, h.exports]
  exact .ok rfl { h with symbols := h.symbols.insertNamespace n.name hmn, exports := rfl }

/-! ### Streams and children -/

protected theorem emit (stream : Stream) {code code' : Fragment} (hcode : Matches code code') :
    Relocates d Eq (emit stream code) (emit stream code') :=
  fun _ _ h => .ok rfl (h.emit stream hcode)

/-- **A child is compiled in moved scopes**, and its parents wait as they are. -/
protected theorem inChild {x : CompileM α} {y : CompileM β} {enter : Scope → Scope} (link : Link)
    (henter : ∀ s t, s.Moved d t → (enter s).Moved d (enter t)) (hxy : Relocates d Q x y) :
    Relocates d (fun p q => Q p.1 q.1 ∧ p.2.Moved d q.2) (inChild link enter x)
      (inChild link enter y) := by
  intro s t h
  have hcorr := hxy (henter _ _ (h.fork link))
  unfold inChild
  generalize x (enter (s.fork link)) = r, y (enter (t.fork link)) = r' at hcorr
  cases hcorr with
  | ok hanswer hscope => exact .ok ⟨hanswer, hscope⟩ h
  | error e => exact .error e s t
  | fullLeft he => exact .fullLeft he s _
  | fullRight he => exact .fullRight he t _

protected theorem sync {child child' : Scope} (hchild : child.Moved d child') :
    Relocates d Matches (sync child) (sync child') :=
  fun _ _ h => .ok hchild.body (h.sync hchild)

/-- A block leaves its code to its parent, and what comes back is moved. -/
protected theorem block {x : CompileM Unit} (link : Link) (hx : Relocates d Eq x x) :
    Relocates d Matches (block link x) (block link x) :=
  .bind (.inChild link (fun _ _ h => h) hx) fun _ _ h => .sync h.2

/-- The child of an unrolled loop is folded back on every outcome, and moved on every
one. -/
protected theorem unrolled {x : CompileM Unit} (hx : Relocates d Eq x x) :
    Relocates d Matches (unrolled x) (unrolled x) := by
  intro s t h
  have hcorr := hx h.forkUnrolled
  unfold unrolled
  dsimp only
  rw [← Scope.forkUnrolled, ← Scope.forkUnrolled]
  generalize x s.forkUnrolled = r, x t.forkUnrolled = r' at hcorr
  cases hcorr with
  | ok hanswer hscope => exact .ok hscope.body (h.sync hscope)
  | error e => exact .error e _ _
  | fullLeft he => exact .fullLeft he _ _
  | fullRight he => exact .fullRight he _ _

end Relocates

end CompileM

/-! ## Calls -/

section Calls

open Fragment (Matches)

/-- Arguments are passed to moved parameters by code that matches. -/
theorem Env.SameTypes.passArguments {env env' : Env} (h : env.SameTypes env')
    {params params' : List Param} (hparams : List.Forall₂ (Param.Moved d) params params')
    (args : List Expr) :
    SameOutcome Matches (env.passArguments params args) (env'.passArguments params' args) := by
  have hpass : ∀ (p q : Param) (arg : Expr), p.Moved d q →
      SameOutcome Matches (env.passArgument p arg) (env'.passArgument q arg) := by
    rintro ⟨name, a, type⟩ ⟨_, b, _⟩ arg ⟨rfl, rfl, -⟩
    cases type with
    | list element len => exact h.copyList _ _ _ _ _ _
    | scalar | pointer => exact (h.assign _ _ _ _ _).map fun _ _ hcode => hcode
  induction hparams generalizing args with
  | nil => exact .ok .nil
  | cons hp _ ih =>
    cases args with
    | nil => exact .ok .nil
    | cons arg args =>
      exact (hpass _ _ arg hp).bind fun _ _ hcode => (ih args).bind fun _ _ hmore =>
        .ok (hcode.append hmore)

/-- **A call of moved functions** stores the arguments at other addresses and jumps to
the same label. -/
theorem Env.SameTypes.callFunction {env env' : Env} (h : env.SameTypes env') {f g : Function}
    (hfg : f.Moved d g) (args : List Expr) :
    SameOutcome Matches (env.callFunction f args) (env'.callFunction g args) := by
  unfold Env.callFunction
  rw [hfg.label, hfg.params.length_eq]
  split
  · exact (h.passArguments hfg.params args).bind fun _ _ hstores =>
      .ok (.append_of_last? (.cons rfl hstores.similar) (.refl _) rfl rfl)
  · exact h.fail _

variable {s t : Scope}

/-- A table of moved functions answers moved functions, or the same fault. -/
theorem Function.sameOutcome_of_related {u v : Table Function}
    (h : u.Related (Function.Moved d) v) (name : String) (e : CompileError) :
    SameOutcome (Function.Moved d) (match u.get? name with | some f => .ok f | none => .error e)
      (match v.get? name with | some f => .ok f | none => .error e) := by
  obtain ⟨hu, hv⟩ | ⟨f, g, hu, hv, hfg⟩ := h.get?_cases name <;> rw [hu, hv]
  · exact .error e
  · exact .ok hfg

/-- **A call means moved functions** in moved scopes. -/
theorem Scope.Moved.resolveFunction (h : s.Moved d t) (line : Nat) (space : Option String)
    (name : String) :
    SameOutcome (Function.Moved d) (s.resolveFunction line space name)
      (t.resolveFunction line space name) := by
  cases space with
  | none => exact Function.sameOutcome_of_related h.symbols.functions name _
  | some space =>
    unfold Scope.resolveFunction Scope.lookupNamespace
    dsimp only
    obtain ⟨hs, ht⟩ | ⟨m, n, hs, ht, hmn⟩ := h.symbols.namespaces.get?_cases space <;> rw [hs, ht]
    · rw [h.symbols.namespaces.keys]
      exact .error _
    · exact Function.sameOutcome_of_related hmn.functions name _

/-- **The code of a call** matches in moved scopes, wherever the output device is. -/
theorem Scope.Moved.call (h : s.Moved d t) (line : Nat) (space : Option String) (name : String)
    (args : List Expr) :
    SameOutcome Matches (s.call line space name args) (t.call line space name args) := by
  have hputchar : s.meansPutchar space name = t.meansPutchar space name := by
    unfold Scope.meansPutchar
    rw [h.symbols.functions.contains]
  unfold Scope.call
  rw [hputchar]
  split
  · exact (h.env line).putchar _ _ args
  · exact (h.resolveFunction line space name).bind fun _ _ hfg =>
      (h.env line).callFunction hfg args

end Calls

/-! ## Statements -/

namespace CompileM

open Fragment (Matches)

variable {line : Nat}

/-- Elements get their cells one after the other, each at the distance. -/
theorem relocates_reserveElements (list : String) (element : Scalar) (count index : Nat) :
    Relocates d Eq (reserveElements line list element count index)
      (reserveElements line list element count index) := by
  induction count generalizing index with
  | zero => exact .pure rfl
  | succ count ih =>
    exact .bind (.allocate _) fun _ _ h => .bind_eq (.bindVariable _ _ h _ _) fun _ =>
      ih (index + 1)

theorem relocates_fillElements (list : String) (element : Scalar) (count index : Nat)
    {loads loads' : List Loaded} (hloads : List.Forall₂ Loaded.Similar loads loads') :
    Relocates d Matches (fillElements line list element count index loads)
      (fillElements line list element count index loads') := by
  induction count generalizing index loads loads' with
  | zero => exact .pure .nil
  | succ count ih =>
    cases hloads with
    | nil =>
      exact .bind (.allocate _) fun _ _ h => .bind_eq (.bindVariable _ _ h _ _) fun _ =>
        .bind (ih (index + 1) .nil) fun _ _ hmore =>
          .pure (.append ⟨.storeZero _ _ _, by rintro _ ⟨⟩; rfl⟩ hmore)
    | cons hload hrest =>
      exact .bind (.allocate _) fun _ _ h => .bind_eq (.bindVariable _ _ h _ _) fun _ =>
        .bind (ih (index + 1) hrest) fun _ _ hmore =>
          .pure (.append (.append_of_last? hload (.storeTo _ _ _) rfl rfl) hmore)

theorem relocates_elementType (element : Option Scalar) (items : List Expr) :
    Relocates d Eq (elementType line element items) (elementType line element items) := by
  unfold elementType
  split
  · exact .pure rfl
  · exact .bind .env fun _ _ henv => .bind_eq (.liftM (henv.operandType _)) fun _ =>
      .bind_eq .warn fun _ => .pure rfl
  · exact .pure rfl

theorem relocates_declareCopy (name : String) (element : Option Scalar) (len : Option Nat)
    (source : String) :
    Relocates d Matches (declareCopy line name element len source)
      (declareCopy line name element len source) := by
  refine .lookup_bind source fun type _ _ _ _ _ => ?_
  cases type with
  | list sourceElement sourceLen =>
    dsimp only
    split
    · exact .bind .nextAddress fun _ _ hbase =>
        .bind_eq (relocates_reserveElements _ _ _ _) fun _ => .bind .env fun _ _ henv =>
        .bind (.liftM (henv.copyList _ _ _ _ _ _)) fun _ _ hcopy =>
        .bind_eq (.declare _ _ hbase _ _) fun _ => .pure (.comment_cons _ _ hcopy)
    · exact .fail _ _
  | scalar | pointer => exact .fail _ _

/-- **A list of items is declared moved.** Its items are checked before an address is
handed out. -/
theorem relocates_declareItems (name : String) (element : Option Scalar) (len : Option Nat)
    (value : Option Expr) :
    Relocates d Matches (declareItems line name element len value)
      (declareItems line name element len value) :=
  .bind .env fun _ _ henv => .bind_eq (.liftM (henv.initialItems _ _)) fun _ =>
    .bind_eq (relocates_elementType _ _) fun _ =>
    .bind_eq (.liftM (henv.checkItems _ _ _ _)) fun _ =>
    .bind_eq (.liftM (henv.listLength _ _ _)) fun _ =>
    .bind (.liftM (henv.loadItems _ _ _ _)) fun _ _ hloads => .bind .nextAddress fun _ _ hbase =>
    .bind (relocates_fillElements _ _ _ _ hloads) fun _ _ hcode =>
    .bind_eq (.declare _ _ hbase _ _) fun _ => .pure (.comment_cons _ _ hcode)

theorem relocates_declareList (name : String) (element : Option Scalar) (len : Option Nat)
    (value : Option Expr) :
    Relocates d Matches (declareList line name element len value)
      (declareList line name element len value) := by
  refine .bind_eq (.ensureUndeclared name) fun _ => ?_
  split
  · exact relocates_declareCopy name element len _
  · exact relocates_declareItems name element len _

/-- A cell is handed out at the distance, and a value of its type is stored in it. -/
theorem relocates_declareCell (type : ValueType) (name : String) (value : Expr) :
    Relocates d Matches (declareCell line type name value) (declareCell line type name value) :=
  .bind_eq (.ensureUndeclared name) fun _ => .bind .env fun _ _ henv =>
    .bind (.liftM (henv.load _ _ _)) fun _ _ hload => .bind (.allocate _) fun _ _ haddress =>
    .bind_eq (.declare _ _ haddress _ _) fun _ =>
    .pure (.append_of_last? (.cons rfl hload) (.storeTo _ _ _) rfl rfl)

theorem relocates_declareVariable (type : ValueType) (name : String) (value : Expr) :
    Relocates d Matches (declareVariable line type name value)
      (declareVariable line type name value) := by
  unfold declareVariable
  split
  · exact relocates_declareList name _ _ _
  · split
    · exact relocates_declareList name _ _ _
    · exact relocates_declareCell _ name _
  · exact relocates_declareCell _ name _

theorem relocates_reserveParam (name : String) (type : ValueType) :
    Relocates d Eq (reserveParam line name type) (reserveParam line name type) := by
  cases type with
  | list element len => exact relocates_reserveElements _ _ _ _
  | scalar | pointer => exact .bind (.allocate _) fun _ _ _ => .pure rfl

/-- The parameters of a function are moved one by one, in the order they are written. -/
theorem relocates_declareParams (formals : List Formal) :
    Relocates d (List.Forall₂ (Param.Moved d)) (declareParams line formals)
      (declareParams line formals) := by
  induction formals with
  | nil => exact .pure .nil
  | cons p rest ih =>
    exact .bind .nextAddress fun _ _ haddress => .bind_eq (relocates_reserveParam _ _) fun _ =>
      .bind_eq (.bindVariable _ _ haddress _ _) fun _ => .bind ih fun _ _ hmore =>
        .pure (.cons ⟨rfl, rfl, haddress⟩ hmore)

/-- A value is stored at the address of its variable, which is moved. -/
theorem relocates_assign (name : String) (value : Expr) :
    Relocates d Matches (assign line name value) (assign line name value) := by
  refine .lookup_bind name fun type _ _ _ _ _ => .bind .env fun _ _ henv => ?_
  cases type with
  | list element len =>
    exact .bind (.liftM (henv.copyList _ _ _ _ _ _)) fun _ _ hcopy =>
      .pure (.comment_cons _ _ hcopy)
  | scalar | pointer =>
    exact .bind (.liftM (henv.assign _ _ _ _ _)) fun _ _ hcode =>
      .bind_eq (.setValue _ _ _) fun _ => .pure hcode

theorem relocates_assignAt (name : String) (index value : Expr) :
    Relocates d Matches (assignAt line name index value) (assignAt line name index value) := by
  refine .lookup_bind name fun type _ _ _ _ _ => .bind .env fun _ _ henv => ?_
  cases type with
  | list element len =>
    dsimp only
    split
    · exact .bind (.liftM (henv.elementAddress _ _ _ _ _ _)) fun _ _ _ =>
        .bind (.liftM (henv.assign _ _ _ _ _)) fun _ _ hcode =>
        .bind_eq (.setValue _ _ _) fun _ => .pure hcode
    · exact .liftM (henv.assignComputed _ _ _ _ _ _)
  | scalar | pointer => exact .fail _ _

/-! ### Blocks -/

/-- **The copies of an unrolled loop** store their index at moved addresses. -/
theorem relocates_copies {x : CompileM Unit} (hx : Relocates d Eq x x) (var : String)
    (a b : UInt32) (count index : Nat) :
    Relocates d Eq (copies line var a x count index) (copies line var b x count index) := by
  induction count generalizing index with
  | zero => exact .pure rfl
  | succ count ih =>
    exact .bind_eq (.emit _ ⟨.setIndex var a b index, by rintro _ ⟨⟩; rfl⟩) fun _ =>
      .bind_eq (.setValue _ _ _) fun _ => .bind_eq hx fun _ => ih (index + 1)

theorem relocates_unroll {x : CompileM Unit} (hx : Relocates d Eq x x) (var iterable : String) :
    Relocates d Matches (unroll line var iterable x) (unroll line var iterable x) := by
  refine .lookup_bind iterable fun type _ _ _ _ _ => ?_
  cases type with
  | list element len =>
    exact .unrolled (.bind (.allocate _) fun _ _ haddress =>
      .bind_eq (.bindVariable _ _ haddress _ _) fun _ => relocates_copies hx var _ _ _ _)
  | scalar | pointer => exact .fail _ _

/-- A branch takes its labels from the counter, and puts the code of its blocks between
them. -/
theorem relocates_branch {x y : CompileM Unit} (hx : Relocates d Eq x x) (hy : Relocates d Eq y y)
    (cond : Condition) : Relocates d Matches (branch line cond x y) (branch line cond x y) :=
  .bind_eq .newLabel fun _ => .bind .env fun _ _ henv =>
    .bind (.liftM (henv.condition cond)) fun _ _ htest => .bind (.block _ hx) fun _ _ hfirst =>
    .bind (.block _ hy) fun _ _ hsecond =>
    .pure (.append_of_last?
      (.append (.append (.append (.cons rfl (.cons rfl htest)) hfirst.similar) (.refl _))
        hsecond.similar) (.refl _) rfl rfl)

theorem relocates_loop {x : CompileM Unit} (hx : Relocates d Eq x x) (cond : Condition) :
    Relocates d Matches (loop line cond x) (loop line cond x) :=
  .bind_eq .newLabel fun _ => .bind .env fun _ _ henv =>
    .bind (.liftM (henv.condition cond)) fun _ _ htest => .bind (.block _ hx) fun _ _ hcode =>
    .pure (.append_of_last? (.append (.cons rfl (.cons rfl htest)) hcode.similar)
      (.refl _) rfl rfl)

/-- **A function is declared moved.** Its cells are handed out in the child, and it
records the child's variables. -/
theorem relocates_function {x : CompileM Unit} (hx : Relocates d Eq x x) (name : String)
    (formals : List Formal) :
    Relocates d Matches (function line name formals x) (function line name formals x) := by
  refine .bind .get fun s t h => ?_
  rw [h.qualify]
  have hchild : Relocates d
      (fun p q : List Param × UInt32 => List.Forall₂ (Param.Moved d) p.1 q.1 ∧ Shifted d p.2 q.2)
      (do
        let params ← declareParams line formals
        declareFunction (.stub name (t.qualify name) params)
        x
        let slot ← allocate 4 line
        return (params, slot))
      (do
        let params ← declareParams line formals
        declareFunction (.stub name (t.qualify name) params)
        x
        let slot ← allocate 4 line
        return (params, slot)) :=
    .bind (relocates_declareParams formals) fun _ _ hparams =>
      .bind_eq (.declareFunction ⟨rfl, rfl, hparams, .empty⟩) fun _ => .bind_eq hx fun _ =>
      .bind (.allocate 4) fun _ _ hslot => .pure ⟨hparams, hslot⟩
  refine .bind_eq (.claimLabel _) fun _ => .bind (.inChild .copy (fun _ _ h => h) hchild)
    fun ⟨⟨params, slot⟩, child⟩ ⟨⟨params', slot'⟩, child'⟩ ⟨⟨hparams, _⟩, hchildren⟩ =>
    .bind (.sync hchildren) fun inner inner' hinner => .bind .get fun u v huv => ?_
  refine .bind_eq (.declareFunction ⟨rfl, rfl, hparams, hchildren.symbols.vars⟩) fun _ => .pure ?_
  exact .append_of_last? (.append (.append (.cons rfl (.cons rfl (.cons rfl (.storeTo _ _ _))))
    hinner.similar) (.loadFrom _ _ _)) (.refl _) rfl rfl

/-- A namespace is bound to what its block has declared, and that is moved. -/
theorem relocates_space {x : CompileM Unit} (hx : Relocates d Eq x x) (name : String) :
    Relocates d Matches (space name x) (space name x) := by
  refine .bind (.inChild .passThrough (fun _ _ h => h.enter name) hx) fun p q hpq =>
    .bind (.sync hpq.2) fun code code' hcode =>
      .bind_eq (.declareNamespace ?_) fun _ => .pure hcode
  exact ⟨rfl, hpq.2.exportedSymbols.vars, hpq.2.exportedSymbols.functions⟩

theorem relocates_unit {x : CompileM Unit} (hx : Relocates d Eq x x) (path : String) :
    Relocates d Matches (unit path x) (unit path x) :=
  .bind (.block _ hx) fun _ _ hcode => .pure (.comment_cons _ _ hcode)

end CompileM

/-- **The statements that may stand anywhere**: all but directives, which are bound to an
address, and embedded lines, which may spell one. -/
def Stmt.Relocatable : Stmt → Prop
  | directive .. | embed .. => False
  | _ => True

/-- A list of statements relocates if its statements do. -/
theorem relocates_of_forall {stmts : List Stmt}
    (hstmts : ∀ stmt ∈ stmts, CompileM.Relocates d Fragment.Matches stmt.compile stmt.compile) :
    CompileM.Relocates d Eq (compileAll stmts) (compileAll stmts) := by
  induction stmts with
  | nil => exact .pure rfl
  | cons stmt rest ih =>
    rw [List.forall_mem_cons] at hstmts
    exact .bind hstmts.1 fun _ _ hcode => .bind_eq (.emit _ hcode) fun _ => ih hstmts.2

theorem relocates_of_partsAll {body : List Stmt}
    (ih : ∀ stmt ∈ body, (∀ part ∈ stmt.parts, part.Relocatable) →
      CompileM.Relocates d Fragment.Matches stmt.compile stmt.compile)
    (h : ∀ part ∈ partsAll body, part.Relocatable) :
    CompileM.Relocates d Eq (compileAll body) (compileAll body) :=
  relocates_of_forall fun stmt hstmt => ih stmt hstmt fun part hpart =>
    h part (mem_partsAll hpart hstmt)

/-- **Statements relocate**, with what is inside them. -/
theorem Stmt.relocates_compile (d : Int) (stmt : Stmt)
    (h : ∀ part ∈ stmt.parts, part.Relocatable) :
    CompileM.Relocates d Fragment.Matches stmt.compile stmt.compile := by
  induction stmt using Stmt.blockInduction with
  | simple stmt hsimple =>
    cases stmt with
    | declare line type name value => exact CompileM.relocates_declareVariable type name value
    | declareList line name element len value =>
      exact CompileM.relocates_declareList name element len value
    | assign line name value => exact CompileM.relocates_assign name value
    | assignAt line name index value => exact CompileM.relocates_assignAt name index value
    | call line space name args =>
      exact .bind .get fun s t hst => .liftM (hst.call line space name args)
    | poke line address type value =>
      exact .bind .env fun _ _ henv => .liftM (henv.poke address type value)
    | embed line code => exact (h _ List.mem_cons_self).elim
    | directive line region address => exact (h _ List.mem_cons_self).elim
    | branch | loop | unroll | function | space | unit => exact nomatch hsimple
  | branch line cond thenBody elseBody ih₁ ih₂ =>
    rw [Stmt.parts, List.forall_mem_cons, List.forall_mem_append] at h
    exact CompileM.relocates_branch (relocates_of_partsAll ih₁ h.2.1)
      (relocates_of_partsAll ih₂ h.2.2) cond
  | loop line cond body ih =>
    rw [Stmt.parts, List.forall_mem_cons] at h
    exact CompileM.relocates_loop (relocates_of_partsAll ih h.2) cond
  | unroll line var iterable body ih =>
    rw [Stmt.parts, List.forall_mem_cons] at h
    exact CompileM.relocates_unroll (relocates_of_partsAll ih h.2) var iterable
  | function line name formals body ih =>
    rw [Stmt.parts, List.forall_mem_cons] at h
    exact CompileM.relocates_function (relocates_of_partsAll ih h.2) name formals
  | space line name body ih =>
    rw [Stmt.parts, List.forall_mem_cons] at h
    exact CompileM.relocates_space (relocates_of_partsAll ih h.2) name
  | unit line path body ih =>
    rw [Stmt.parts, List.forall_mem_cons] at h
    exact CompileM.relocates_unit (relocates_of_partsAll ih h.2) path

/-- **Programs relocate.** -/
theorem relocates_compileAll (d : Int) {stmts : List Stmt}
    (h : ∀ part ∈ partsAll stmts, part.Relocatable) :
    CompileM.Relocates d Eq (compileAll stmts) (compileAll stmts) :=
  relocates_of_partsAll (fun stmt _ => stmt.relocates_compile d) h

end RegMachine
