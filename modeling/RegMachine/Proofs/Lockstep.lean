import RegMachine.Proofs.Outcome
import RegMachine.Proofs.Unread

/-!
# Two runs in lockstep

Some of what a scope holds is never read while statements are compiled: what is
recorded of the values of variables, the texts that functions keep, and whether
comments are written at all. A *blur* says which of it is looked away from, and
two scopes are *alike* (`Scope.Alike`) if nothing else tells them apart, except
that one may have more in front of its streams.

An action runs *in lockstep* with another if from alike scopes both succeed, with
alike answers, or both fail, with the same error, and the scopes they leave are
alike again (`CompileM.Lockstep`). A chain of actions in lockstep is in lockstep
(`CompileM.Lockstep.bind`), so this module goes through the actions that
statements are made of.

That one scope may have more in front of its streams costs nothing, because no
action reads them. It makes a run comparable with the one that starts from empty
streams, and so shows what the run itself has appended.
-/

namespace RegMachine

variable {α β γ δ : Type}

/-! ## What is looked away from -/

/-- **What two scopes may differ in.** -/
structure Blur where
  /-- What is recorded of the values of variables. -/
  values : Bool
  /-- Whether comments are written, and with it the texts that functions keep. -/
  comments : Bool

variable {b : Blur}

/-- A variable without what is looked away from. -/
def Variable.blur (v : Variable) (b : Blur) : Variable :=
  { v with value := if b.values then .zeroed else v.value }

/-- Symbols whose variables are blurred. -/
def Symbols.blurVars {Fn Ns : Type} (s : Symbols Fn Ns) (b : Blur) : Symbols Fn Ns :=
  { s with vars := s.vars.map (·.blur b) }

/-- A function without what is looked away from, also in the variables that it
records. -/
def Function.blur (f : Function) (b : Blur) : Function :=
  { f with
    symbols := f.symbols.blurVars b
    text := if b.comments then "" else f.text }

/-- A namespace whose variables and functions are blurred. -/
def Namespace.blur (n : Namespace) (b : Blur) : Namespace :=
  { n with symbols := { n.symbols.blurVars b with
      functions := n.symbols.functions.map (·.blur b) } }

/-- **Symbols without what is looked away from**, at every depth. -/
def Symbols.blur (s : Symbols Function Namespace) (b : Blur) : Symbols Function Namespace :=
  { s.blurVars b with
    functions := s.functions.map (·.blur b)
    namespaces := s.namespaces.map (·.blur b) }

/-- Settings without what is looked away from. -/
def Config.blur (c : Config) (b : Blur) : Config :=
  { c with comments := b.comments || c.comments }

namespace Symbols

/-- A variable is bound without what is looked away from. -/
@[simp]
theorem blur_insertVariable (s : Symbols Function Namespace) (name : String) (v : Variable) :
    (s.insertVariable name v).blur b = (s.blur b).insertVariable name (v.blur b) := by
  simp [blur, blurVars, insertVariable]

@[simp]
theorem blur_insertFunction (s : Symbols Function Namespace) (name : String) (f : Function) :
    (s.insertFunction name f).blur b = (s.blur b).insertFunction name (f.blur b) := by
  simp [blur, blurVars, insertFunction]

@[simp]
theorem blur_insertNamespace (s : Symbols Function Namespace) (name : String) (n : Namespace) :
    (s.insertNamespace name n).blur b = (s.blur b).insertNamespace name (n.blur b) := by
  simp [blur, blurVars, insertNamespace]

/-- What a function records is blurred with the symbols that it is recorded
from. -/
theorem blurVars_record (s : Symbols Function Namespace) :
    s.record.blurVars b = (s.blur b).record := by
  simp [blur, blurVars, record, Function.blur]

/-- A namespace keeps its variables and functions, and of both the same is looked
away from. -/
theorem blur_forgetNamespaces (name : String) (s : Symbols Function Namespace) :
    Namespace.blur ⟨name, s.forgetNamespaces⟩ b = ⟨name, (s.blur b).forgetNamespaces⟩ := by
  simp [blur, blurVars, forgetNamespaces, Namespace.blur]

end Symbols

/-- Tables with the same image bind the same names, to values with the same
image. -/
theorem Table.rel_of_map_eq {f : α → β} {t u : Table α} (h : t.map f = u.map f) (key : String) :
    Option.Rel (fun a c => f a = f c) (t.get? key) (u.get? key) := by
  have hkey : (t.get? key).map f = (u.get? key).map f := by
    rw [← Table.get?_map, h, Table.get?_map]
  cases ht : t.get? key <;> cases hu : u.get? key <;> rw [ht, hu] at hkey
  next => exact .none
  next => exact nomatch hkey
  next => exact nomatch hkey
  next => exact .some (Option.some.inj hkey)

/-! ## Alike scopes -/

/-- **Two scopes are alike**: they agree on everything that is not looked away
from, and the first has more in front of its streams. -/
structure Scope.Alike (b : Blur) (body definitions : Fragment) (s t : Scope) : Prop where
  symbols : s.symbols.blur b = t.symbols.blur b
  labels : s.labels = t.labels
  functionLabels : s.functionLabels = t.functionLabels
  warnings : s.warnings = t.warnings
  mode : s.mode = t.mode
  link : s.link = t.link
  path : s.path = t.path
  config : s.config.blur b = t.config.blur b
  exports : s.exports = t.exports
  body : s.body = body ++ t.body
  definitions : s.definitions = definitions ++ t.definitions

namespace Scope.Alike

variable {body definitions : Fragment} {s t s' t' : Scope}

theorem nextAddress (h : s.Alike b body definitions t) :
    s.symbols.nextAddress = t.symbols.nextAddress :=
  congrArg (·.nextAddress) h.symbols

theorem nextDataAddress (h : s.Alike b body definitions t) :
    s.symbols.nextDataAddress = t.symbols.nextDataAddress :=
  congrArg (·.nextDataAddress) h.symbols

/-- **Alike scopes bind the same variables**, up to what is looked away from. -/
theorem vars (h : s.Alike b body definitions t) :
    s.symbols.vars.map (·.blur b) = t.symbols.vars.map (·.blur b) :=
  congrArg (·.vars) h.symbols

theorem functions (h : s.Alike b body definitions t) :
    s.symbols.functions.map (·.blur b) = t.symbols.functions.map (·.blur b) :=
  congrArg (·.functions) h.symbols

theorem namespaces (h : s.Alike b body definitions t) :
    s.symbols.namespaces.map (·.blur b) = t.symbols.namespaces.map (·.blur b) :=
  congrArg (·.namespaces) h.symbols

/-- Alike scopes have the same names bound. -/
theorem keys (h : s.Alike b body definitions t) : s.symbols.vars.keys = t.symbols.vars.keys := by
  rw [← Table.keys_map (·.blur b) s.symbols.vars, h.vars, Table.keys_map]

theorem contains (h : s.Alike b body definitions t) (name : String) :
    s.symbols.vars.contains name = t.symbols.vars.contains name := by
  rw [← Table.contains_map (·.blur b) s.symbols.vars, h.vars, Table.contains_map]

/-- Expressions see the same in alike scopes. -/
theorem env (h : s.Alike b body definitions t) (line : Nat) :
    (s.env line).bare = (t.env line).bare := by
  have hvars := congrArg (Table.map Variable.bare) h.vars
  rw [Table.map_map, Table.map_map] at hvars
  exact congrArg (Env.mk · line) hvars

/-- Names are qualified by the path, which nothing looks away from. -/
theorem qualify (h : s.Alike b body definitions t) (name : String) :
    s.qualify name = t.qualify name := by
  unfold Scope.qualify
  rw [h.path]

/-- Where comments are not looked away from, both scopes write them or none
does. -/
theorem text (h : s.Alike b body definitions t) (code : Fragment) :
    (if b.comments then "" else code.render s.config.comments)
      = if b.comments then "" else code.render t.config.comments := by
  have hcomments : (b.comments || s.config.comments) = (b.comments || t.config.comments) :=
    congrArg (·.comments) h.config
  cases hb : b.comments with
  | true => rfl
  | false =>
    rw [hb] at hcomments
    exact congrArg (code.render ·) hcomments

/-! ### What keeps scopes alike -/

/-- The cursors of both scopes may be moved to the same address. -/
theorem withNextAddress (h : s.Alike b body definitions t) (address : UInt32) :
    Alike b body definitions { s with symbols := { s.symbols with nextAddress := address } }
      { t with symbols := { t.symbols with nextAddress := address } } :=
  { h with symbols := congrArg (fun u => { u with nextAddress := address }) h.symbols }

theorem withNextDataAddress (h : s.Alike b body definitions t) (address : UInt32) :
    Alike b body definitions { s with symbols := { s.symbols with nextDataAddress := address } }
      { t with symbols := { t.symbols with nextDataAddress := address } } :=
  { h with symbols := congrArg (fun u => { u with nextDataAddress := address }) h.symbols }

/-- Scopes stay alike when a name is bound to variables that differ only in what is
looked away from. -/
theorem insertVariable (h : s.Alike b body definitions t) (name : String) {v w : Variable}
    (hvw : v.blur b = w.blur b) :
    Alike b body definitions { s with symbols := s.symbols.insertVariable name v }
      { t with symbols := t.symbols.insertVariable name w } := by
  refine { h with symbols := ?_ }
  rw [Symbols.blur_insertVariable, Symbols.blur_insertVariable, h.symbols, hvw]

/-- **Scopes stay alike when functions are declared** that differ only in what is
looked away from. -/
theorem declareFunction (h : s.Alike b body definitions t) {f g : Function}
    (hfg : f.blur b = g.blur b) :
    Alike b body definitions
      { s with
        symbols := s.symbols.insertFunction f.name f
        exports := s.exports ++ [.function f.name] }
      { t with
        symbols := t.symbols.insertFunction g.name g
        exports := t.exports ++ [.function g.name] } := by
  have hname : f.name = g.name := congrArg (·.name) hfg
  refine { h with symbols := ?_, exports := ?_ }
  · rw [Symbols.blur_insertFunction, Symbols.blur_insertFunction, h.symbols, hfg, hname]
  · rw [h.exports, hname]

theorem declareNamespace (h : s.Alike b body definitions t) {m n : Namespace}
    (hmn : m.blur b = n.blur b) :
    Alike b body definitions
      { s with
        symbols := s.symbols.insertNamespace m.name m
        exports := s.exports ++ [.space m.name] }
      { t with
        symbols := t.symbols.insertNamespace n.name n
        exports := t.exports ++ [.space n.name] } := by
  have hname : m.name = n.name := congrArg (·.name) hmn
  refine { h with symbols := ?_, exports := ?_ }
  · rw [Symbols.blur_insertNamespace, Symbols.blur_insertNamespace, h.symbols, hmn, hname]
  · rw [h.exports, hname]

/-- The same code is appended to the streams, whatever stands in front. -/
theorem emit (h : s.Alike b body definitions t) (stream : Stream) (code : Fragment) :
    (s.emit stream code).Alike b body definitions (t.emit stream code) := by
  cases stream with
  | body =>
    refine { h with body := ?_ }
    show s.body ++ code = body ++ (t.body ++ code)
    rw [h.body, List.append_assoc]
  | definitions =>
    refine { h with definitions := ?_ }
    show s.definitions ++ code = definitions ++ (t.definitions ++ code)
    rw [h.definitions, List.append_assoc]
  | silent => exact h

/-- **Children are alike**, and their streams start empty in both. -/
theorem fork (h : s.Alike b body definitions t) (link : Link) :
    (s.fork link).Alike b [] [] (t.fork link) := by
  refine { h with
    symbols := ?_, mode := ?_, link := rfl, exports := rfl, body := rfl, definitions := rfl }
  · cases link with
    | isolated =>
      unfold Scope.fork
      rw [h.nextAddress, h.nextDataAddress]
    | copy | shared | passThrough => exact h.symbols
  · unfold Scope.fork
    rw [h.mode]

/-- The children of an unrolled loop start with empty streams, so they have nothing
in front. -/
theorem forkUnrolled (h : s.Alike b body definitions t) :
    s.forkUnrolled.Alike b [] [] t.forkUnrolled := by
  have hfork := h.fork .shared
  refine { hfork with mode := ?_ }
  unfold Scope.forkUnrolled
  rw [hfork.mode]

theorem enter (h : s.Alike b body definitions t) (name : String) :
    (s.enter name).Alike b body definitions (t.enter name) :=
  { h with path := congrArg (· ++ [name]) h.path }

/-- Exports are copied to alike values. -/
theorem copyExport (h : s.Alike b body definitions t) {u v : Symbols Function Namespace}
    (huv : u.blur b = v.blur b) (entry : Export) :
    (s.copyExport u entry).blur b = (t.copyExport v entry).blur b := by
  cases entry with
  | function name =>
    have hrel := Table.rel_of_map_eq h.functions name
    unfold Scope.copyExport
    dsimp only
    cases hs : s.symbols.functions.get? name <;> cases ht : t.symbols.functions.get? name <;>
      rw [hs, ht] at hrel <;> cases hrel
    next => exact huv
    next f g hfg =>
      rw [Symbols.blur_insertFunction, Symbols.blur_insertFunction, huv, hfg]
  | space name =>
    have hrel := Table.rel_of_map_eq h.namespaces name
    unfold Scope.copyExport
    dsimp only
    cases hs : s.symbols.namespaces.get? name <;> cases ht : t.symbols.namespaces.get? name <;>
      rw [hs, ht] at hrel <;> cases hrel
    next => exact huv
    next m n hmn =>
      rw [Symbols.blur_insertNamespace, Symbols.blur_insertNamespace, huv, hmn]

theorem foldl_copyExport (h : s.Alike b body definitions t) {u v : Symbols Function Namespace}
    (huv : u.blur b = v.blur b) (entries : List Export) :
    (entries.foldl s.copyExport u).blur b = (entries.foldl t.copyExport v).blur b := by
  induction entries generalizing u v with
  | nil => exact huv
  | cons entry rest ih => exact ih (h.copyExport huv entry)

/-- **What alike scopes export is alike**: exports are names, and they are looked up
in alike tables. -/
theorem exportedSymbols (h : s.Alike b body definitions t) :
    s.exportedSymbols.blur b = t.exportedSymbols.blur b := by
  unfold Scope.exportedSymbols
  rw [h.exports]
  refine h.foldl_copyExport ?_ _
  rw [h.nextAddress, h.nextDataAddress]

/-- **Folding alike children back** keeps scopes alike. -/
theorem sync (h : s.Alike b body definitions t) {child child' : Scope}
    (hchild : child.Alike b [] [] child') :
    (s.sync child).Alike b body definitions (t.sync child') := by
  have hadopt : (s.symbols.adoptCursors child.symbols).blur b
      = (t.symbols.adoptCursors child'.symbols).blur b := by
    show (s.symbols.blur b).adoptCursors child.symbols
      = (t.symbols.blur b).adoptCursors child'.symbols
    unfold Symbols.adoptCursors
    rw [h.symbols, hchild.nextAddress, hchild.nextDataAddress]
  refine { h with symbols := ?_, labels := hchild.labels, functionLabels := hchild.functionLabels,
                  warnings := hchild.warnings, exports := ?_, definitions := ?_ }
  · show (s.syncSymbols child).blur b = (t.syncSymbols child').blur b
    unfold Scope.syncSymbols
    rw [hchild.link, hchild.exports]
    split
    · exact hadopt
    · exact hchild.symbols
    all_goals exact hchild.foldl_copyExport hadopt _
  · show s.syncExports child = t.syncExports child'
    unfold Scope.syncExports
    rw [hchild.link, hchild.exports, h.exports]
  · show s.definitions ++ child.definitions = definitions ++ (t.definitions ++ child'.definitions)
    rw [h.definitions, hchild.definitions, List.append_assoc]
    rfl

end Scope.Alike

/-! ## Lockstep -/

/-- **Two outcomes agree**: both are answers that are related, or both are the
same error, and the scopes that are left are related. -/
inductive CompileM.Agree (R : Scope → Scope → Prop) (Q : α → β → Prop) :
    EStateM.Result CompileError Scope α → EStateM.Result CompileError Scope β → Prop
  | ok {a : α} {c : β} {s t : Scope} (hanswer : Q a c) (hscope : R s t) :
      Agree R Q (.ok a s) (.ok c t)
  | error {e : CompileError} {s t : Scope} (hscope : R s t) : Agree R Q (.error e s) (.error e t)

/-- **Two actions run in lockstep**: from alike scopes they lead to outcomes that
agree, and the scopes that they leave differ in front of their streams just as
before. -/
def CompileM.Lockstep (b : Blur) (Q : α → β → Prop) (x : CompileM α) (y : CompileM β) : Prop :=
  ∀ ⦃body definitions s t⦄, s.Alike b body definitions t →
    Agree (Scope.Alike b body definitions) Q (x s) (y t)

namespace CompileM.Lockstep

variable {Q : α → β → Prop} {P : γ → δ → Prop} {line : Nat}

/-- **A chain of actions runs in lockstep** if each of them does. If the first ones
fail, they do so with the same error, and nothing follows. -/
protected theorem bind {x : CompileM α} {y : CompileM β} {f : α → CompileM γ} {g : β → CompileM δ}
    (hxy : Lockstep b Q x y) (hfg : ∀ a c, Q a c → Lockstep b P (f a) (g c)) :
    Lockstep b P (x >>= f) (y >>= g) := by
  intro body definitions s t h
  show Agree _ P (EStateM.bind x f s) (EStateM.bind y g t)
  unfold EStateM.bind
  have hagree := hxy h
  cases hx : x s <;> cases hy : y t <;> rw [hx, hy] at hagree <;> cases hagree
  next a s' c t' hanswer hscope => exact hfg a c hanswer hscope
  next hscope => exact .error hscope

/-- A chain that goes on with the same answer. -/
theorem bind_eq {x : CompileM α} {f : α → CompileM γ} {g : α → CompileM δ}
    (hx : Lockstep b Eq x x) (hfg : ∀ a, Lockstep b P (f a) (g a)) :
    Lockstep b P (x >>= f) (x >>= g) :=
  hx.bind fun a _ heq => heq ▸ hfg a

protected theorem pure {a : α} {c : β} (h : Q a c) : Lockstep b Q (pure a) (pure c) :=
  fun _ _ _ _ hscope => .ok h hscope

/-- An outcome that was computed beside the scopes is the same for both. -/
protected theorem liftM (x : Except CompileError α) : Lockstep b Eq (liftM x) (liftM x) := by
  intro body definitions s t h
  cases x with
  | ok a => exact .ok rfl h
  | error e => exact .error h

/-- A fault is raised in both. -/
protected theorem fail (line : Nat) (fault : CompileFault) :
    Lockstep b Q (fail line fault) (fail line fault) :=
  fun _ _ _ _ h => .error h

/-- An action that reads the scope goes on in alike ones. -/
protected theorem get :
    Lockstep b (fun s t => ∃ body definitions, s.Alike b body definitions t) get get :=
  fun body definitions _ _ h => .ok ⟨body, definitions, h⟩ h

/-- What goes on with an environment goes on alike, if it does not read what is
recorded. -/
theorem env_bind {f : Env → CompileM α} (hbare : ∀ env, f env.bare = f env)
    (hf : ∀ env, Lockstep b Eq (f env) (f env)) :
    Lockstep b Eq (CompileM.env line >>= f) (CompileM.env line >>= f) := by
  refine .bind (Q := fun env env' => env.bare = env'.bare)
    (fun _ _ _ _ h => .ok (h.env line) h) fun env env' h => ?_
  rw [← hbare env, h, hbare env']
  exact hf env'

/-- What goes on with a variable goes on alike, if it reads the address and type
only. -/
theorem lookup_bind {name : String} {f : Variable → CompileM α}
    (hbare : ∀ v : Variable, f v.bare = f v) (hf : ∀ v, Lockstep b Eq (f v) (f v)) :
    Lockstep b Eq (CompileM.lookup name line >>= f) (CompileM.lookup name line >>= f) := by
  refine .bind (Q := fun v w => v.bare = w.bare) (fun body definitions s t h => ?_)
    fun v w h => ?_
  · have hrel := Table.rel_of_map_eq h.vars name
    unfold CompileM.lookup Env.lookup Scope.env
    dsimp only
    cases hs : s.symbols.vars.get? name <;> cases ht : t.symbols.vars.get? name <;>
      rw [hs, ht] at hrel <;> cases hrel
    next =>
      rw [h.keys]
      exact .error h
    next v w hvw =>
      have hbare : (v.blur b).bare = (w.blur b).bare := congrArg Variable.bare hvw
      exact .ok hbare h
  · rw [← hbare v, h, hbare w]
    exact hf w

/-! ### Allocation and counters -/

protected theorem nextAddress : Lockstep b Eq nextAddress nextAddress :=
  fun _ _ _ _ h => .ok h.nextAddress h

/-- **Alike scopes hand out the same addresses.** -/
protected theorem allocate (size : Nat) :
    Lockstep b Eq (allocate size line) (allocate size line) := by
  intro body definitions s t h
  unfold allocate Symbols.allocate?
  rw [h.nextAddress]
  by_cases hroom : t.symbols.nextAddress.toNat + size < UInt32.size
  · rw [if_pos hroom, if_pos hroom]
    exact .ok rfl (h.withNextAddress _)
  · rw [if_neg hroom, if_neg hroom]
    exact .error h

protected theorem moveCursor (region : Region) (address : UInt32) :
    Lockstep b Eq (moveCursor region address line) (moveCursor region address line) := by
  intro body definitions s t h
  unfold moveCursor
  cases region with
  | cells =>
    dsimp only
    rw [h.nextAddress]
    split
    · exact .error h
    · exact .ok rfl (h.withNextAddress address)
  | data =>
    dsimp only
    rw [h.nextDataAddress]
    split
    · exact .error h
    · exact .ok rfl (h.withNextDataAddress address)

/-- Labels are counted alike. -/
protected theorem newLabel : Lockstep b Eq newLabel newLabel :=
  fun _ _ _ _ h => .ok h.labels { h with labels := congrArg (· + 1) h.labels }

protected theorem warn : Lockstep b Eq warn warn :=
  fun _ _ _ _ h => .ok rfl { h with warnings := congrArg (· + 1) h.warnings }

/-! ### Variables -/

/-- A name is bound in both scopes or in neither. -/
protected theorem ensureUndeclared (name : String) :
    Lockstep b Eq (ensureUndeclared name line) (ensureUndeclared name line) := by
  intro body definitions s t h
  unfold ensureUndeclared
  rw [h.contains, h.mode]
  split
  · exact .error h
  · exact .ok rfl h

protected theorem bindVariable (name : String) (v : Variable) :
    Lockstep b Eq (bindVariable name v) (bindVariable name v) :=
  fun _ _ _ _ h => .ok rfl (h.insertVariable name rfl)

protected theorem declare (name : String) (v : Variable) :
    Lockstep b Eq (declare name v line) (declare name v line) :=
  .bind_eq (.ensureUndeclared name) fun _ => .bindVariable name v

/-- **A value is recorded in both**, or the name is unknown in both and the faults
list the same names. -/
protected theorem setValue (name : String) (value : Stored) :
    Lockstep b Eq (setValue name value line) (setValue name value line) := by
  intro body definitions s t h
  have hrel := Table.rel_of_map_eq h.vars name
  unfold setValue Symbols.setValue?
  cases hs : s.symbols.vars.get? name <;> cases ht : t.symbols.vars.get? name <;>
    rw [hs, ht] at hrel <;> cases hrel
  next =>
    dsimp only [Option.map_none]
    rw [h.keys]
    exact .error h
  next v w hvw =>
    refine .ok rfl (h.insertVariable name ?_)
    -- the address and type are the same, and the value is the one that is recorded
    have haddress : v.address = w.address := congrArg (·.address) hvw
    have htype : v.type = w.type := congrArg (·.type) hvw
    unfold Variable.blur
    rw [haddress, htype]

/-! ### Functions and namespaces -/

/-- A label is refused in both scopes or in neither. -/
protected theorem claimLabel (label : String) :
    Lockstep b Eq (claimLabel label line) (claimLabel label line) := by
  intro body definitions s t h
  unfold claimLabel
  rw [h.functionLabels]
  split
  · exact .error h
  · exact .ok rfl { h with functionLabels := rfl }

protected theorem declareFunction {f g : Function} (hfg : f.blur b = g.blur b) :
    Lockstep b Eq (declareFunction f) (declareFunction g) :=
  fun _ _ _ _ h => .ok rfl (h.declareFunction hfg)

protected theorem declareNamespace {m n : Namespace} (hmn : m.blur b = n.blur b) :
    Lockstep b Eq (declareNamespace m) (declareNamespace n) :=
  fun _ _ _ _ h => .ok rfl (h.declareNamespace hmn)

/-! ### Streams and children -/

protected theorem emit (stream : Stream) (code : Fragment) :
    Lockstep b Eq (emit stream code) (emit stream code) :=
  fun _ _ _ _ h => .ok rfl (h.emit stream code)

/-- **Children run in lockstep**, from empty streams. -/
protected theorem inChild {x : CompileM α} {enter : Scope → Scope} (link : Link)
    (henter : ∀ s t, s.Alike b [] [] t → (enter s).Alike b [] [] (enter t))
    (hx : Lockstep b Eq x x) :
    Lockstep b (fun p q => p.1 = q.1 ∧ p.2.Alike b [] [] q.2) (inChild link enter x)
      (inChild link enter x) := by
  intro body definitions s t h
  have hagree := hx (henter _ _ (h.fork link))
  unfold inChild
  cases hs : x (enter (s.fork link)) <;> cases ht : x (enter (t.fork link)) <;>
    rw [hs, ht] at hagree <;> cases hagree
  next hanswer hscope => exact .ok ⟨hanswer, hscope⟩ h
  next => exact .error h

/-- A child hands on its body, and alike children have the same. -/
protected theorem sync {child child' : Scope} (hchild : child.Alike b [] [] child') :
    Lockstep b Eq (sync child) (sync child') :=
  fun _ _ _ _ h => .ok hchild.body (h.sync hchild)

/-- A block runs in lockstep if what compiles it does. -/
protected theorem block {x : CompileM Unit} (link : Link) (hx : Lockstep b Eq x x) :
    Lockstep b Eq (block link x) (block link x) :=
  .bind (.inChild link (fun _ _ h => h) hx) fun _ _ h => .sync h.2

/-- An unrolled block is folded back also if it fails. -/
protected theorem unrolled {x : CompileM Unit} (hx : Lockstep b Eq x x) :
    Lockstep b Eq (unrolled x) (unrolled x) := by
  intro body definitions s t h
  have hagree := hx h.forkUnrolled
  unfold unrolled
  dsimp only
  rw [← Scope.forkUnrolled, ← Scope.forkUnrolled]
  cases hs : x s.forkUnrolled <;> cases ht : x t.forkUnrolled <;>
    rw [hs, ht] at hagree <;> cases hagree
  next hanswer hscope => exact .ok hscope.body (h.sync hscope)
  next hscope => exact .error (h.sync hscope)

end CompileM.Lockstep

end RegMachine
