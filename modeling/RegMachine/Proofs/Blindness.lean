import RegMachine.Proofs.Edits
import RegMachine.Proofs.Events
import RegMachine.Proofs.Lockstep

/-!
# What statements are blind to

An action is *blind* to what is looked away from if it runs in lockstep with
itself (`CompileM.Blind`). All statements are (`blind_compileAll`), by going
through them once for every blur.

Two things follow. What a run appends to its streams is the same whatever they
hold already (`appends_of_compileAll`). And what is recorded of the values of
variables is bookkeeping only: scopes that differ in nothing else are compiled in
to the same code, or fail with the same error
(`compileAll_of_forgetValues_eq`).
-/

namespace RegMachine

variable {α : Type} {b : Blur}

/-! ## Statements -/

/-- **An action is blind** to what is looked away from: it runs in lockstep with
itself. -/
abbrev CompileM.Blind (b : Blur) (x : CompileM α) : Prop := Lockstep b Eq x x

namespace CompileM

variable {line : Nat}

theorem blind_reserveElements (list : String) (element : Scalar) (count index : Nat) :
    Blind b (reserveElements line list element count index) := by
  induction count generalizing index with
  | zero => exact .pure rfl
  | succ count ih =>
    exact .bind_eq (.allocate _) fun _ => .bind_eq (.bindVariable _ _) fun _ => ih (index + 1)

/-- The elements of a list get their cells and their loads one by one. -/
theorem blind_fillElements (list : String) (element : Scalar) (count index : Nat)
    (loads : List Loaded) : Blind b (fillElements line list element count index loads) := by
  induction count generalizing index loads with
  | zero => exact .pure rfl
  | succ count ih =>
    cases loads with
    | nil =>
      exact .bind_eq (.allocate _) fun _ => .bind_eq (.bindVariable _ _) fun _ =>
        .bind_eq (ih (index + 1) []) fun _ => .pure rfl
    | cons loaded rest =>
      exact .bind_eq (.allocate _) fun _ => .bind_eq (.bindVariable _ _) fun _ =>
        .bind_eq (ih (index + 1) rest) fun _ => .pure rfl

/-- The type of the first item is asked for only if none is given. -/
theorem blind_elementType (element : Option Scalar) (items : List Expr) :
    Blind b (elementType line element items) := by
  unfold elementType
  split
  · exact .pure rfl
  · refine .env_bind (fun env => ?_) fun env => ?_
    · rw [Env.bare_operandType]
    · exact .bind_eq (.liftM _) fun _ => .bind_eq .warn fun _ => .pure rfl
  · exact .pure rfl

theorem blind_declareCopy (name : String) (element : Option Scalar) (len : Option Nat)
    (source : String) : Blind b (declareCopy line name element len source) := by
  refine .lookup_bind (fun v => rfl) fun v => ?_
  split
  · dsimp only
    split
    · refine .bind_eq .nextAddress fun base => .bind_eq (blind_reserveElements _ _ _ _) fun _ =>
        .env_bind (fun env => ?_) fun env => ?_
      · rw [Env.bare_copyList]
      · exact .bind_eq (.liftM _) fun _ => .bind_eq (.declare _ _) fun _ => .pure rfl
    · exact .fail _ _
  · exact .fail _ _

/-- **A list is declared blindly**: its items are counted, checked and loaded against
the bare environment. -/
theorem blind_declareItems (name : String) (element : Option Scalar) (len : Option Nat)
    (value : Option Expr) : Blind b (declareItems line name element len value) := by
  refine .env_bind (fun env => ?_) fun env => ?_
  · simp only [Env.bare_initialItems, Env.bare_checkItems, Env.bare_listLength,
      Env.bare_loadItems]
  · exact .bind_eq (.liftM _) fun _ => .bind_eq (blind_elementType _ _) fun _ =>
      .bind_eq (.liftM _) fun _ => .bind_eq (.liftM _) fun _ => .bind_eq (.liftM _) fun _ =>
      .bind_eq .nextAddress fun _ => .bind_eq (blind_fillElements _ _ _ _ _) fun _ =>
      .bind_eq (.declare _ _) fun _ => .pure rfl

theorem blind_declareList (name : String) (element : Option Scalar) (len : Option Nat)
    (value : Option Expr) : Blind b (declareList line name element len value) := by
  refine .bind_eq (.ensureUndeclared name) fun _ => ?_
  split
  · exact blind_declareCopy name element len _
  · exact blind_declareItems name element len _

theorem blind_declareCell (type : ValueType) (name : String) (value : Expr) :
    Blind b (declareCell line type name value) := by
  refine .bind_eq (.ensureUndeclared name) fun _ => .env_bind (fun env => ?_) fun env => ?_
  · rw [Env.bare_load]
  · exact .bind_eq (.liftM _) fun _ => .bind_eq (.allocate _) fun _ =>
      .bind_eq (.declare _ _) fun _ => .pure rfl

theorem blind_declareVariable (type : ValueType) (name : String) (value : Expr) :
    Blind b (declareVariable line type name value) := by
  unfold declareVariable
  split
  · exact blind_declareList name _ _ _
  · split
    · exact blind_declareList name _ _ _
    · exact blind_declareCell _ name _
  · exact blind_declareCell _ name _

theorem blind_reserveParam (name : String) (type : ValueType) :
    Blind b (reserveParam line name type) := by
  cases type with
  | list element len => exact blind_reserveElements _ _ _ _
  | scalar | pointer => exact .bind_eq (.allocate _) fun _ => .pure rfl

theorem blind_declareParams (formals : List Formal) : Blind b (declareParams line formals) := by
  induction formals with
  | nil => exact .pure rfl
  | cons p rest ih =>
    exact .bind_eq .nextAddress fun _ => .bind_eq (blind_reserveParam _ _) fun _ =>
      .bind_eq (.bindVariable _ _) fun _ => .bind_eq ih fun _ => .pure rfl

/-- A value is stored by the type of its variable, and then recorded. -/
theorem blind_assign (name : String) (value : Expr) : Blind b (assign line name value) := by
  refine .lookup_bind (fun v => rfl) fun v => .env_bind (fun env => ?_) fun env => ?_
  · simp only [Env.bare_copyList, Env.bare_assign]
  · split
    · exact .bind_eq (.liftM _) fun _ => .pure rfl
    · exact .bind_eq (.liftM _) fun _ => .bind_eq (.setValue _ _) fun _ => .pure rfl

theorem blind_assignAt (name : String) (index value : Expr) :
    Blind b (assignAt line name index value) := by
  refine .lookup_bind (fun v => rfl) fun v => .env_bind (fun env => ?_) fun env => ?_
  · simp only [Env.bare_assign, Env.bare_assignComputed]
    rfl
  · split
    · split
      · exact .bind_eq (.liftM _) fun _ => .bind_eq (.liftM _) fun _ =>
          .bind_eq (.setValue _ _) fun _ => .pure rfl
      · exact .liftM _
    · exact .fail _ _

theorem blind_directive (region : Region) (address : UInt32) :
    Blind b (directive line region address) := by
  refine .bind .get fun s t ⟨_, _, h⟩ => ?_
  rw [h.mode]
  split
  · exact .moveCursor region address
  · exact .fail _ _

end CompileM

/-! ### Calls -/

namespace Scope.Alike

variable {body definitions : Fragment} {s t : Scope}

/-- A table of functions with the same image answers functions with the same image,
or the same fault. -/
theorem map_function {u v : Table Function} (h : u.map (·.blur b) = v.map (·.blur b))
    (name : String) (e : CompileError) :
    Except.map (·.blur b) (match u.get? name with | some f => .ok f | none => .error e)
      = Except.map (·.blur b) (match v.get? name with | some f => .ok f | none => .error e) := by
  have hrel := Table.rel_of_map_eq h name
  cases hu : u.get? name <;> cases hv : v.get? name <;> rw [hu, hv] at hrel <;> cases hrel
  next f g hfg => exact congrArg Except.ok hfg

/-- **A call means alike functions** in alike scopes. -/
theorem resolveFunction (h : s.Alike b body definitions t) (line : Nat) (space : Option String)
    (name : String) :
    (s.resolveFunction line space name).map (·.blur b)
      = (t.resolveFunction line space name).map (·.blur b) := by
  cases space with
  | none => exact map_function h.functions name _
  | some space =>
    have hrel := Table.rel_of_map_eq h.namespaces space
    have hkeys : s.symbols.namespaces.keys = t.symbols.namespaces.keys := by
      rw [← Table.keys_map (·.blur b) s.symbols.namespaces, h.namespaces, Table.keys_map]
    unfold Scope.resolveFunction Scope.lookupNamespace
    dsimp only
    cases hs : s.symbols.namespaces.get? space <;> cases ht : t.symbols.namespaces.get? space <;>
      rw [hs, ht] at hrel <;> cases hrel
    next => rw [hkeys]
    next m n hmn => exact map_function (congrArg (·.symbols.functions) hmn) name _

/-- **The code of a call** is the same in alike scopes. -/
theorem call (h : s.Alike b body definitions t) (line : Nat) (space : Option String)
    (name : String)
    (args : List Expr) : s.call line space name args = t.call line space name args := by
  have hputchar : s.meansPutchar space name = t.meansPutchar space name := by
    unfold Scope.meansPutchar
    rw [← Table.contains_map (·.blur b) s.symbols.functions, h.functions, Table.contains_map]
  have hport : s.config.outputPort = t.config.outputPort := congrArg (·.outputPort) h.config
  have hresolve := h.resolveFunction line space name
  unfold Scope.call
  rw [hputchar, hport, ← Env.bare_putchar, h.env, Env.bare_putchar]
  split
  · rfl
  · cases hs : s.resolveFunction line space name <;>
      cases ht : t.resolveFunction line space name <;> rw [hs, ht] at hresolve
    next e e' => exact congrArg Except.error (Except.error.inj hresolve)
    next => exact nomatch hresolve
    next => exact nomatch hresolve
    next f g =>
      -- a call reads the parameters and the label of a function, and these are not blurred
      have hfg :
          (t.env line).callFunction (f.blur b) args = (t.env line).callFunction (g.blur b) args :=
        congrArg ((t.env line).callFunction · args) (Except.ok.inj hresolve)
      show (s.env line).callFunction f args = (t.env line).callFunction g args
      rw [← Env.bare_callFunction, h.env, Env.bare_callFunction]
      exact hfg

end Scope.Alike

/-! ### Blocks -/

namespace CompileM

variable {line : Nat}

/-- Copies run one after the other, and none reads the index that was recorded for
it. -/
theorem blind_copies {x : CompileM Unit} (hx : Blind b x) (var : String) (address : UInt32)
    (count index : Nat) : Blind b (copies line var address x count index) := by
  induction count generalizing index with
  | zero => exact .pure rfl
  | succ count ih =>
    exact .bind_eq (.emit _ _) fun _ => .bind_eq (.setValue _ _) fun _ => .bind_eq hx fun _ =>
      ih (index + 1)

/-- An unrolled loop reads the length of its list off the type. -/
theorem blind_unroll {x : CompileM Unit} (hx : Blind b x) (var iterable : String) :
    Blind b (unroll line var iterable x) := by
  refine .lookup_bind (fun v => rfl) fun v => ?_
  split
  · exact .unrolled (.bind_eq (.allocate _) fun _ => .bind_eq (.bindVariable _ _) fun _ =>
      blind_copies hx var _ _ _)
  · exact .fail _ _

theorem blind_branch {x y : CompileM Unit} (hx : Blind b x) (hy : Blind b y) (cond : Condition) :
    Blind b (branch line cond x y) := by
  refine .bind_eq .newLabel fun _ => .env_bind (fun env => ?_) fun env => ?_
  · rw [Env.bare_condition]
  · exact .bind_eq (.liftM _) fun _ => .bind_eq (.block _ hx) fun _ =>
      .bind_eq (.block _ hy) fun _ => .pure rfl

theorem blind_loop {x : CompileM Unit} (hx : Blind b x) (cond : Condition) :
    Blind b (loop line cond x) := by
  refine .bind_eq .newLabel fun _ => .env_bind (fun env => ?_) fun env => ?_
  · rw [Env.bare_condition]
  · exact .bind_eq (.liftM _) fun _ => .bind_eq (.block _ hx) fun _ => .pure rfl

/-- **A function is declared alike.** It records the symbols of its child and keeps
a text, and these are where what is looked away from comes back into scopes. -/
theorem blind_function {x : CompileM Unit} (hx : Blind b x) (name : String)
    (formals : List Formal) : Blind b (function line name formals x) := by
  refine .bind .get fun s t ⟨_, _, h⟩ => ?_
  rw [h.qualify]
  have hchild : Blind b (do
      let params ← declareParams line formals
      declareFunction (.stub name (t.qualify name) params)
      x
      let slot ← allocate 4 line
      return (params, slot)) :=
    .bind_eq (blind_declareParams formals) fun _ => .bind_eq (.declareFunction rfl) fun _ =>
      .bind_eq hx fun _ => .bind_eq (.allocate 4) fun _ => .pure rfl
  refine .bind_eq (.claimLabel _) fun _ =>
    .bind (.inChild .copy (fun _ _ h => h) hchild) fun p q hpq => ?_
  obtain ⟨⟨params, slot⟩, child⟩ := p
  obtain ⟨_, child'⟩ := q
  obtain ⟨rfl, hchildren⟩ := hpq
  refine .bind (.sync hchildren) fun inner _ heq => .bind .get fun u v ⟨_, _, huv⟩ =>
    .bind (Q := Eq) ?_ fun _ _ _ => ?_
  · subst heq
    refine .declareFunction ?_
    unfold Function.blur
    rw [Symbols.blurVars_record, Symbols.blurVars_record, hchildren.symbols, huv.text]
  · exact .pure (heq ▸ rfl)

theorem blind_space {x : CompileM Unit} (hx : Blind b x) (name : String) :
    Blind b (space name x) := by
  refine .bind (.inChild .passThrough (fun _ _ h => h.enter name) hx) fun p q hpq =>
    .bind (.sync hpq.2) fun code _ heq => .bind (.declareNamespace ?_) fun _ _ _ => .pure heq
  rw [Symbols.blur_forgetNamespaces, Symbols.blur_forgetNamespaces, hpq.2.exportedSymbols]

theorem blind_unit {x : CompileM Unit} (hx : Blind b x) (path : String) : Blind b (unit path x) :=
  .bind_eq (.block _ hx) fun _ => .pure rfl

end CompileM

/-- A list of statements is blind if its statements are. -/
theorem blind_compileAll_of_forall {stmts : List Stmt}
    (hstmts : ∀ stmt ∈ stmts, CompileM.Blind b stmt.compile) :
    CompileM.Blind b (compileAll stmts) := by
  induction stmts with
  | nil => exact .pure rfl
  | cons stmt rest ih =>
    rw [List.forall_mem_cons] at hstmts
    exact .bind_eq hstmts.1 fun _ => .bind_eq (.emit _ _) fun _ => ih hstmts.2

/-- **Statements are blind** to what is looked away from. -/
theorem Stmt.blind_compile (b : Blur) (stmt : Stmt) : CompileM.Blind b stmt.compile := by
  induction stmt using Stmt.blockInduction with
  | simple stmt hsimple =>
    cases stmt with
    | declare line type name value => exact CompileM.blind_declareVariable type name value
    | declareList line name element len value =>
      exact CompileM.blind_declareList name element len value
    | assign line name value => exact CompileM.blind_assign name value
    | assignAt line name index value => exact CompileM.blind_assignAt name index value
    | call line space name args =>
      refine .bind .get fun s t ⟨_, _, h⟩ => ?_
      rw [h.call]
      exact .liftM _
    | embed line code => exact .env_bind (fun env => by rw [Env.bare_embed]) fun env => .liftM _
    | poke line address type value =>
      exact .env_bind (fun env => by rw [Env.bare_poke]) fun env => .liftM _
    | directive line region address =>
      exact .bind_eq (CompileM.blind_directive region address) fun _ => .pure rfl
    | branch | loop | unroll | function | space | unit => exact nomatch hsimple
  | branch line cond thenBody elseBody ih₁ ih₂ =>
    exact CompileM.blind_branch (blind_compileAll_of_forall ih₁)
      (blind_compileAll_of_forall ih₂) cond
  | loop line cond body ih => exact CompileM.blind_loop (blind_compileAll_of_forall ih) cond
  | unroll line var iterable body ih =>
    exact CompileM.blind_unroll (blind_compileAll_of_forall ih) var iterable
  | function line name formals body ih =>
    exact CompileM.blind_function (blind_compileAll_of_forall ih) name formals
  | space line name body ih => exact CompileM.blind_space (blind_compileAll_of_forall ih) name
  | unit line path body ih => exact CompileM.blind_unit (blind_compileAll_of_forall ih) path

/-- **Lists of statements are blind** to what is looked away from: from alike scopes
they lead to the same outcome and to alike scopes. -/
theorem blind_compileAll (b : Blur) (stmts : List Stmt) : CompileM.Blind b (compileAll stmts) :=
  blind_compileAll_of_forall fun stmt _ => stmt.blind_compile b

/-! ## What a run appends -/

namespace Scope

/-- **A later scope has appended** fragments to the streams of an earlier one. -/
structure Appends (s : Scope) (body definitions : Fragment) (s' : Scope) : Prop where
  body : s'.body = s.body ++ body
  definitions : s'.definitions = s.definitions ++ definitions

/-- A scope is alike to itself with empty streams, whatever is looked away from. -/
theorem alike_clear (b : Blur) (s : Scope) :
    s.Alike b s.body s.definitions { s with body := [], definitions := [] } where
  symbols := rfl
  labels := rfl
  functionLabels := rfl
  warnings := rfl
  mode := rfl
  link := rfl
  path := rfl
  config := rfl
  exports := rfl
  body := (List.append_nil _).symm
  definitions := (List.append_nil _).symm

end Scope

/-- Runs whose outcomes agree leave related scopes. -/
theorem CompileM.Agree.scopeAfter {R : Scope → Scope → Prop} {Q : α → α → Prop} {x y : CompileM α}
    {s t : Scope} (h : Agree R Q (x s) (y t)) :
    R (CompileM.scopeAfter x s) (CompileM.scopeAfter y t) := by
  unfold CompileM.scopeAfter
  cases hx : x s <;> cases hy : y t <;> rw [hx, hy] at h <;> cases h <;> assumption

/-- **A run only appends to its streams**, also if it fails: what it appends is what
it ends with when it starts from empty streams. -/
theorem appends_of_compileAll (stmts : List Stmt) (s : Scope) :
    ∃ body definitions, s.Appends body definitions (CompileM.scopeAfter (compileAll stmts) s) :=
  have h := (blind_compileAll ⟨false, false⟩ stmts (s.alike_clear _)).scopeAfter
  ⟨_, _, h.body, h.definitions⟩

/-! ## Recorded values are bookkeeping -/

/-- Looking away from what is recorded of the values of variables, and nothing
else. -/
def Blur.ofValues : Blur where
  values := true
  comments := false

/-- **The scope with no values recorded**, neither for its own variables nor for
those that its functions and namespaces keep. -/
def Scope.forgetValues (s : Scope) : Scope := { s with symbols := s.symbols.blur .ofValues }

/-- Scopes differ in recorded values only if they are alike to someone who looks away
from these. -/
theorem Scope.forgetValues_eq_iff {s t : Scope} :
    s.forgetValues = t.forgetValues ↔ s.Alike .ofValues [] [] t := by
  constructor
  · intro h
    exact {
      symbols := congrArg (·.symbols) h
      labels := congrArg (·.labels) h
      functionLabels := congrArg (·.functionLabels) h
      warnings := congrArg (·.warnings) h
      mode := congrArg (·.mode) h
      link := congrArg (·.link) h
      path := congrArg (·.path) h
      config := congrArg (·.config.blur .ofValues) h
      exports := congrArg (·.exports) h
      body := congrArg (·.body) h
      definitions := congrArg (·.definitions) h }
  · intro h
    have hconfig : s.config = t.config := h.config
    have hbody : s.body = t.body := h.body
    have hdefinitions : s.definitions = t.definitions := h.definitions
    unfold Scope.forgetValues
    rw [h.symbols, h.labels, h.functionLabels, h.warnings, h.mode, h.link, h.path, hconfig,
      h.exports, hbody, hdefinitions]

/-- **Recorded values are bookkeeping only.** In scopes that differ in recorded values
only, the same statements all compile or stop at the same error. Either way they
append the same code to the streams of both, and leave scopes that again differ in
recorded values only. -/
theorem compileAll_of_forgetValues_eq {s t : Scope} (h : s.forgetValues = t.forgetValues)
    (stmts : List Stmt) :
    ∃ body definitions,
      CompileM.Agree
        (fun s' t' => s'.forgetValues = t'.forgetValues ∧
          s.Appends body definitions s' ∧ t.Appends body definitions t')
        Eq (compileAll stmts s) (compileAll stmts t) := by
  obtain ⟨body, definitions, happ⟩ := appends_of_compileAll stmts s
  have halike := Scope.forgetValues_eq_iff.mp h
  have hagree := blind_compileAll .ofValues stmts halike
  -- the streams are not blurred, so what holds of one run's streams holds of the other's
  have hstreams : ∀ s' t' : Scope, s'.Alike .ofValues [] [] t' → s.Appends body definitions s' →
      s'.forgetValues = t'.forgetValues ∧
        s.Appends body definitions s' ∧ t.Appends body definitions t' := by
    intro s' t' h' hs
    refine ⟨Scope.forgetValues_eq_iff.mpr h', hs, ?_, ?_⟩
    · rw [show t'.body = s'.body from h'.body.symm, hs.body,
        show s.body = t.body from halike.body]
    · rw [show t'.definitions = s'.definitions from h'.definitions.symm, hs.definitions,
        show s.definitions = t.definitions from halike.definitions]
  refine ⟨body, definitions, ?_⟩
  unfold CompileM.scopeAfter at happ
  cases hs : compileAll stmts s <;> cases ht : compileAll stmts t <;>
    rw [hs, ht] at hagree <;> rw [hs] at happ <;> cases hagree
  next hanswer hscope => exact .ok hanswer (hstreams _ _ hscope happ)
  next hscope => exact .error (hstreams _ _ hscope happ)

/-- A scope with a variable `x`, which a function `f` keeps as well, and a value that is
recorded for it in both places. -/
def scopeRecording (value : Stored) : Scope :=
  let vars : Table Variable := (∅ : Table Variable).insert "x" ⟨0x10000000, .scalar .int, value⟩
  let f : Function := { Function.stub "f" "f" [] with
    symbols := { vars := vars, nextAddress := 0x10000004, nextDataAddress := 0x10200001 } }
  { Scope.root {} with
    symbols := {
      vars := vars
      functions := (∅ : Table Function).insert "f" f
      nextAddress := 0x10000008
      nextDataAddress := 0x10200001 }
    functionLabels := ["f"] }

/-- A branch that leaves the value of `x` stale, a function that copies it, and a call. -/
def staleReads : List Stmt :=
  [.branch 1 ⟨.equal, .ident "x", .int 1⟩ [.assign 2 "x" (.int 2)] [],
    .function 3 "g" [] [.declare 4 (.scalar .int) "y" (.ident "x")],
    .assign 5 "x" (.binary .add (.ident "x") (.int 1)),
    .call 6 none "f" []]

theorem compileAll_of_forgetValues_eq_staleReads :
    CompileM.succeeds (compileAll staleReads) (scopeRecording .zeroed) = true
      ∧ (scopeRecording .zeroed).forgetValues = (scopeRecording (.literal 7)).forgetValues
      ∧ ∃ body definitions,
        CompileM.Agree
          (fun s' t' => s'.forgetValues = t'.forgetValues ∧
            (scopeRecording .zeroed).Appends body definitions s' ∧
            (scopeRecording (.literal 7)).Appends body definitions t')
          Eq (compileAll staleReads (scopeRecording .zeroed))
          (compileAll staleReads (scopeRecording (.literal 7))) := by
  have heq :
      (scopeRecording .zeroed).forgetValues = (scopeRecording (.literal 7)).forgetValues := by
    decide +kernel
  exact ⟨by decide +kernel, heq, compileAll_of_forgetValues_eq heq staleReads⟩

end RegMachine
