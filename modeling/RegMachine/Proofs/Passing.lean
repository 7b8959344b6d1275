import RegMachine.Proofs.Assignment
import RegMachine.Proofs.Closure

/-!
# Arguments are passed one after the other

The parameters of a function have fixed cells, and a call stores its arguments there, each
as soon as it is evaluated. So the arguments of a call are not evaluated in one memory: the
second one meets the first parameter's new value. `Env.pass` says which memory comes of
that, and the code of a call leads there (`Env.runs_passArguments`).

The cells of the parameters lie apart, wherever the function is called from
(`Scope.Reachable.sees`), so what was stored for one parameter is not overwritten for
another. What is stored may still be the wrong value. It is the one that the argument had
before the call if the argument does not read the cell of any parameter before its own
(`Scope.passed_of_call`). A function that calls itself with its parameters in another order
breaks that condition, and `Scope.swapped_not_passed` shows that one of them is lost.
-/

namespace RegMachine

/-! ## Functions in sight -/

/-- **Symbols see functions with a property only**: the functions in sight, also those of
namespaces, all have it. -/
structure Symbols.Sees (P : Function → Prop) (s : Symbols Function Namespace) : Prop where
  functions : ∀ name f, s.functions.get? name = some f → P f
  namespaces : ∀ space n, s.namespaces.get? space = some n →
    ∀ name f, n.symbols.functions.get? name = some f → P f

namespace Symbols.Sees

variable {P : Function → Prop} {s t : Symbols Function Namespace}

theorem startingAt (nextAddress nextDataAddress : UInt32) :
    (Symbols.startingAt nextAddress nextDataAddress).Sees P :=
  ⟨nofun, nofun⟩

theorem insertFunction (h : s.Sees P) (name : String) {f : Function} (hf : P f) :
    (s.insertFunction name f).Sees P := by
  refine ⟨fun other g hg => ?_, h.namespaces⟩
  unfold Symbols.insertFunction at hg
  by_cases heq : other = name
  · subst heq
    rw [Table.get?_insert_self, Option.some.injEq] at hg
    exact hg ▸ hf
  · rw [Table.get?_insert_of_ne _ heq] at hg
    exact h.functions other g hg

theorem insertNamespace (h : s.Sees P) (space : String) {n : Namespace}
    (hn : ∀ name f, n.symbols.functions.get? name = some f → P f) :
    (s.insertNamespace space n).Sees P := by
  refine ⟨h.functions, fun other m hm => ?_⟩
  unfold Symbols.insertNamespace at hm
  by_cases heq : other = space
  · subst heq
    rw [Table.get?_insert_self, Option.some.injEq] at hm
    exact hm ▸ hn
  · rw [Table.get?_insert_of_ne _ heq] at hm
    exact h.namespaces other m hm

/-- Simple statements change no functions. -/
theorem of_steps {names : String → Prop} (h : Relation.ReflTransGen (Symbols.Step names) s t)
    (hs : s.Sees P) : t.Sees P := by
  induction h with
  | refl => exact hs
  | tail _ hstep ih => cases hstep <;> exact ⟨ih.functions, ih.namespaces⟩

theorem of_imports {source target result : Symbols Function Namespace}
    (h : Symbols.Imports source target result) (hsource : source.Sees P)
    (htarget : target.Sees P) :
    result.Sees P where
  functions name f hf := (h.functions name f hf).elim (htarget.functions name f)
    (hsource.functions name f)
  namespaces space n hn := (h.namespaces space n hn).elim (htarget.namespaces space n)
    (hsource.namespaces space n)

end Symbols.Sees

section Scope

variable {P : Function → Prop} {s child : Scope}

theorem Scope.sees_fork (hs : s.symbols.Sees P) (link : Link) : (s.fork link).symbols.Sees P := by
  cases link with
  | isolated => exact .startingAt _ _
  | copy | shared | passThrough => exact hs

theorem Scope.sees_emit (hs : s.symbols.Sees P) (stream : Stream) (code : Fragment) :
    (s.emit stream code).symbols.Sees P := by
  cases stream <;> exact hs

theorem Scope.sees_sync (hs : s.symbols.Sees P) (hchild : child.symbols.Sees P) :
    (s.sync child).symbols.Sees P := by
  show (s.syncSymbols child).Sees P
  by_cases hshared : child.link = .shared
  · unfold Scope.syncSymbols
    rw [hshared]
    exact hchild
  · have hadopt : (s.symbols.adoptCursors child.symbols).Sees P := ⟨hs.functions, hs.namespaces⟩
    exact .of_imports (Scope.imports_syncSymbols hshared) hchild hadopt

theorem Scope.sees_of_resolveFunction {line : Nat} {space : Option String} {name : String}
    {f : Function} (hs : s.symbols.Sees P) (h : s.resolveFunction line space name = .ok f) :
    P f := by
  rcases bound_of_resolveFunction h with hf | ⟨space, n, hn, hf⟩
  · exact hs.functions name f hf
  · exact hs.namespaces space n hn name f hf

end Scope

/-- **The parameters of a function are spaced**: their cells lie apart, and none goes over
the end of memory. -/
structure Function.Spaced (f : Function) : Prop where
  apart : f.params.Pairwise fun p q => p.span.Apart q.span
  ends : ∀ p ∈ f.params, p.span.start.toNat + p.span.size ≤ UInt32.size

theorem Function.spaced_of_declareParams {line : Nat} {formals : List Formal} {s s' : Scope}
    {f : Function} (h : CompileM.declareParams line formals s = .ok f.params s') : f.Spaced := by
  obtain ⟨-, hapart, hwithin⟩ := CompileM.spans_of_declareParams h
  refine ⟨hapart, fun p hp => ?_⟩
  exact Nat.le_of_lt (Nat.lt_of_le_of_lt (hwithin p hp).2 s'.symbols.nextAddress.toNat_lt)

/-- A statement keeps what its scope sees spaced. -/
def Stmt.KeepsSpaced (stmt : Stmt) : Prop :=
  ∀ (s : Scope) (code : Fragment) (s' : Scope), s.symbols.Sees Function.Spaced →
    stmt.compile s = .ok code s' → s'.symbols.Sees Function.Spaced

theorem sees_of_compileAll {stmts : List Stmt} (hstmts : ∀ stmt ∈ stmts, stmt.KeepsSpaced)
    {s s' : Scope} (hs : s.symbols.Sees Function.Spaced) (h : compileAll stmts s = .ok () s') :
    s'.symbols.Sees Function.Spaced :=
  invariant_of_compileAll (I := fun s _ => s.symbols.Sees Function.Spaced) hstmts
    (fun _ stream code _ hs => Scope.sees_emit hs stream code) hs h

theorem sees_of_setValue {s s' : Scope} {name : String} {value : Stored} {line : Nat}
    (hs : s.symbols.Sees Function.Spaced) (h : CompileM.setValue name value line s = .ok () s') :
    s'.symbols.Sees Function.Spaced := by
  have hedits : s.Edits (fun _ => False) s' := CompileM.edits_setValue name value h
  exact .of_steps hedits.steps hs

theorem sees_of_copies {body : List Stmt} (hbody : ∀ stmt ∈ body, stmt.KeepsSpaced)
    {line : Nat} {var : String} {address : UInt32} {count index : Nat} {s s' : Scope}
    (hs : s.symbols.Sees Function.Spaced)
    (h : CompileM.copies line var address (compileAll body) count index s = .ok () s') :
    s'.symbols.Sees Function.Spaced :=
  CompileM.invariant_of_copies (I := fun s _ => s.symbols.Sees Function.Spaced)
    (fun _ _ hs h => sees_of_compileAll hbody hs h) (fun _ _ hs => Scope.sees_emit hs _ _)
    (fun _ _ _ hs h => sees_of_setValue hs h) hs h

/-- The body of a function sees the function itself. -/
theorem sees_of_declareParams {line : Nat} {name label : String} {formals : List Formal}
    {params : List Param} {s start : Scope} (hs : s.symbols.Sees Function.Spaced)
    (h : CompileM.declareParams line formals s = .ok params start) :
    (start.symbols.insertFunction name (.stub name label params)).Sees Function.Spaced := by
  have hedits : s.Edits (fun _ => True) start :=
    CompileM.edits_declareParams (fun _ _ _ _ => trivial) h
  have hstub : (Function.stub name label params).Spaced := Function.spaced_of_declareParams h
  exact Symbols.Sees.insertFunction (.of_steps hedits.steps hs) name hstub

theorem Stmt.keepsSpaced (stmt : Stmt) : stmt.KeepsSpaced := by
  induction stmt using Stmt.blockInduction with
  | simple stmt hsimple =>
    intro s code s' hs h
    exact .of_steps (stmt.edits_of_isSimple hsimple h).steps hs
  | branch line cond thenBody elseBody ih₁ ih₂ =>
    intro s code s' hs h
    obtain ⟨test, first, second, -, hfirst, hsecond, -, rfl⟩ := CompileM.branch_eq_ok_iff.mp h
    have hstart : s.nextLabel.symbols.Sees Function.Spaced := hs
    have hmid := Scope.sees_sync hstart (sees_of_compileAll ih₁ (Scope.sees_fork hstart _) hfirst)
    exact Scope.sees_sync hmid (sees_of_compileAll ih₂ (Scope.sees_fork hmid _) hsecond)
  | loop line cond body ih =>
    intro s code s' hs h
    obtain ⟨test, child, -, hchild, -, rfl⟩ := CompileM.loop_eq_ok_iff.mp h
    have hstart : s.nextLabel.symbols.Sees Function.Spaced := hs
    exact Scope.sees_sync hstart (sees_of_compileAll ih (Scope.sees_fork hstart _) hchild)
  | unroll line var iterable body ih =>
    intro s code s' hs h
    obtain ⟨v, element, len, child, -, -, -, hcopies, -, rfl⟩ := CompileM.unroll_eq_ok_iff.mp h
    have hfork : (s.forkIndexed var).symbols.Sees Function.Spaced := ⟨hs.functions, hs.namespaces⟩
    exact Scope.sees_sync hs (sees_of_copies ih hfork hcopies)
  | function line name formals body ih =>
    intro s code s' hs h
    obtain ⟨params, slot, start, inner, child, -, hparams, hbody, hslot, -, hdeclare⟩ :=
      CompileM.function_eq_ok_iff.mp h
    have hclaimed : Symbols.Sees Function.Spaced
        { s with functionLabels := s.functionLabels ++ [s.qualify name] }.symbols := hs
    have hinner := sees_of_compileAll ih
      (sees_of_declareParams (Scope.sees_fork hclaimed .copy) hparams) hbody
    have hallocate : inner.Edits (fun _ => True) child := CompileM.edits_allocate 4 hslot
    have hsync := Scope.sees_sync hclaimed (.of_steps hallocate.steps hinner)
    obtain rfl := CompileM.declareFunction_eq_ok_iff.mp hdeclare
    exact hsync.insertFunction name (Function.spaced_of_declareParams hparams)
  | space line name body ih =>
    intro s code s' hs h
    obtain ⟨child, hchild, -, hdeclare⟩ := CompileM.space_eq_ok_iff.mp h
    have hfork : Symbols.Sees Function.Spaced ((s.fork .passThrough).enter name).symbols :=
      Scope.sees_fork hs .passThrough
    have hchild := sees_of_compileAll ih hfork hchild
    have hmembers : child.exportedSymbols.Sees Function.Spaced :=
      .of_imports child.imports_exportedSymbols hchild (.startingAt _ _)
    obtain rfl := CompileM.declareNamespace_eq_ok_iff.mp hdeclare
    exact (Scope.sees_sync hs hchild).insertNamespace name hmembers.functions
  | unit line path body ih =>
    intro s code s' hs h
    obtain ⟨child, hchild, -, rfl⟩ := CompileM.unit_eq_ok_iff.mp h
    exact Scope.sees_sync hs (sees_of_compileAll ih (Scope.sees_fork hs .isolated) hchild)

/-! ## Scopes of a program -/

/-- **The scopes that compiling a program can reach**: that of the program, the one behind a
statement that was compiled, and those that the blocks of a statement start from. What only
makes them harder to reach is left out: that a condition compiles, that a label is free, or
that a list has so many elements. -/
inductive Scope.Reachable (config : Config) : Scope → Prop
  | root : Reachable config (.root config)
  | behind {s s' : Scope} {stmt : Stmt} {code : Fragment} (hs : Reachable config s)
      (h : stmt.compile s = .ok code s') : Reachable config (s'.emit stmt.kind.stream code)
  /-- The block of a loop, and the first one of a branch. -/
  | block {s : Scope} (hs : Reachable config s) : Reachable config (s.nextLabel.fork .copy)
  /-- The second block of a branch, behind the first. -/
  | second {s first : Scope} {body : List Stmt} (hs : Reachable config s)
      (h : compileAll body (s.nextLabel.fork .copy) = .ok () first) :
      Reachable config ((s.nextLabel.sync first).fork .copy)
  /-- One copy of the block of an unrolled loop, behind those before it. -/
  | copy {s t u : Scope} {line index : Nat} {var : String} {body : List Stmt}
      (hs : Reachable config s)
      (h : CompileM.copies line var s.symbols.nextAddress (compileAll body) index 0
        (s.forkIndexed var) = .ok () t)
      (hindex : CompileM.setValue var (.literal (Int64.ofNat index)) line
        (t.emit .body (Fragment.setIndex var s.symbols.nextAddress index)) = .ok () u) :
      Reachable config u
  /-- The body of a function, which sees the parameters and the function itself. -/
  | body {s start : Scope} {line : Nat} {name : String} {formals : List Formal}
      {params : List Param} (hs : Reachable config s)
      (h : CompileM.declareParams line formals
        ({ s with functionLabels := s.functionLabels ++ [s.qualify name] }.fork .copy)
          = .ok params start) :
      Reachable config { start with
        symbols := start.symbols.insertFunction name (.stub name (s.qualify name) params)
        exports := start.exports ++ [.function name] }
  | space {s : Scope} (name : String) (hs : Reachable config s) :
      Reachable config ((s.fork .passThrough).enter name)
  | unit {s : Scope} (hs : Reachable config s) : Reachable config (s.fork .isolated)

/-- **Wherever a program is, the functions that it can call have their parameters
spaced.** -/
theorem Scope.Reachable.sees {config : Config} {s : Scope} (h : Reachable config s) :
    s.symbols.Sees Function.Spaced := by
  induction h with
  | root => exact .startingAt _ _
  | behind hs h ih => exact Scope.sees_emit (Stmt.keepsSpaced _ _ _ _ ih h) _ _
  | @block s hs ih => exact Scope.sees_fork (s := s.nextLabel) ih .copy
  | @second s first body hs h ih =>
    have hfork := Scope.sees_fork (s := s.nextLabel) ih .copy
    have hfirst := sees_of_compileAll (fun stmt _ => stmt.keepsSpaced) hfork h
    exact Scope.sees_fork (Scope.sees_sync (s := s.nextLabel) ih hfirst) .copy
  | @copy s t u line index var body hs h hindex ih =>
    have hfork : (s.forkIndexed var).symbols.Sees Function.Spaced := ⟨ih.functions, ih.namespaces⟩
    have ht := sees_of_copies (fun stmt _ => stmt.keepsSpaced) hfork h
    exact sees_of_setValue (Scope.sees_emit ht _ _) hindex
  | @body s start line name formals params hs h ih =>
    have hclaimed : Symbols.Sees Function.Spaced
        { s with functionLabels := s.functionLabels ++ [s.qualify name] }.symbols := ih
    exact sees_of_declareParams (Scope.sees_fork hclaimed .copy) h
  | space name hs ih => exact Scope.sees_fork ih .passThrough
  | unit hs ih => exact Scope.sees_fork ih .isolated

/-! ## Bytes -/

/-- A span covers a byte. Spans that are found out while a program runs may go over the end
of memory, so the byte is looked for from the start on. -/
def Span.Covers (a : Span) (address : UInt32) : Prop := (address - a.start).toNat < a.size

/-- **Two spans have no byte in common.** -/
def Span.Misses (a b : Span) : Prop := ∀ address, a.Covers address → ¬ b.Covers address

theorem Span.Covers.bounds {a : Span} {address : UInt32} (h : a.Covers address)
    (hend : a.start.toNat + a.size ≤ UInt32.size) :
    a.start.toNat ≤ address.toNat ∧ address.toNat < a.start.toNat + a.size := by
  have hoffset : (address - a.start).toNat < a.size := h
  have hsize : UInt32.size = 2 ^ 32 := rfl
  have haddress := address.toNat_lt
  rw [UInt32.toNat_sub] at hoffset
  omega

/-- Spans that lie apart have no byte in common, if neither goes over the end of memory. -/
theorem Span.Apart.misses {a b : Span} (h : a.Apart b)
    (ha : a.start.toNat + a.size ≤ UInt32.size) (hb : b.start.toNat + b.size ≤ UInt32.size) :
    a.Misses b := by
  intro address hcovers hcovers'
  have hbounds := hcovers.bounds ha
  have hbounds' := hcovers'.bounds hb
  rcases h with h | h <;> omega

theorem ValueType.size_le_extent (ty : ValueType) : ty.size ≤ ty.extent := by
  cases ty with
  | list element len => exact Nat.zero_le _
  | scalar | pointer => exact Nat.le_refl _

/-- The bytes that a value of a parameter's type takes are among those of the parameter. -/
theorem Span.Covers.span {p : Param} {address : UInt32}
    (h : (Span.mk p.address p.type.size).Covers address) : p.span.Covers address :=
  Nat.lt_of_lt_of_le h p.type.size_le_extent

/-- **A place is read from its own bytes only.** -/
theorem Machine.read_congr (m : Machine) {memory memory' : Memory} {place : Span}
    (hsize : place.size ≤ UInt32.size)
    (h : ∀ address, place.Covers address → memory' address = memory address) :
    m.read memory' place.start place.size = m.read memory place.start place.size := by
  unfold read
  refine congrArg UInt32.ofNat (ofBytes_congr fun index hindex => h _ ?_)
  have hposition := m.position_lt hindex
  unfold Span.Covers
  rw [UInt32.add_comm, UInt32.add_sub_cancel,
    UInt32.toNat_ofNat_of_lt' (Nat.lt_of_lt_of_le hposition hsize)]
  exact hposition

namespace Env

variable {m : Machine} {env : Env}

/-- **The places that evaluating an expression reads**, in order: for an element its index
first, and for a pointer's target the pointer. -/
def reads (m : Machine) (env : Env) (memory : Memory) : Expr → List Span
  | .ident name =>
    match env.vars.get? name with
    | some v => [⟨v.address, v.type.size⟩]
    | none => []
  | .index list index =>
    env.reads m memory index ++
      match env.vars.get? list, env.eval m memory index with
      | some ⟨address, .list element _, _⟩, some i =>
        [⟨address + i * UInt32.ofNat element.size, element.size⟩]
      | _, _ => []
  | .deref name =>
    match env.vars.get? name with
    | some ⟨address, .pointer target, _⟩ => [⟨address, 4⟩, ⟨m.read memory address 4, target.size⟩]
    | _ => []
  | .binary _ lhs rhs => env.reads m memory lhs ++ env.reads m memory rhs
  | _ => []

/-- **The value of an expression depends on the places that it reads**, and on nothing
else in memory. -/
theorem eval_congr {memory memory' : Memory} {e : Expr}
    (h : ∀ place ∈ env.reads m memory e, ∀ address, place.Covers address →
      memory' address = memory address) : env.eval m memory' e = env.eval m memory e := by
  fun_induction reads m env memory e with
  | case1 name v hv =>
    have hread := m.read_congr (Nat.le_trans v.type.size_le (by decide))
      (h _ (List.mem_singleton_self _))
    simp only [eval, hv, Option.bind_eq_bind, Option.bind_some, hread]
  | case2 name hv => simp only [eval, hv, Option.bind_eq_bind, Option.bind_none]
  | case3 list index ih =>
    rw [List.forall_mem_append] at h
    obtain ⟨hindex, helement⟩ := h
    simp only [eval, ih hindex]
    cases hv : env.vars.get? list with
    | none => rfl
    | some v =>
      obtain ⟨address, type, stored⟩ := v
      cases type with
      | scalar | pointer => rfl
      | list element len =>
        cases hi : env.eval m memory index with
        | none => rfl
        | some i =>
          rw [hv, hi] at helement
          have hread := m.read_congr (Nat.le_trans element.size_le (by decide))
            (helement _ (List.mem_singleton_self _))
          simp only [Option.bind_eq_bind, Option.bind_some, hread]
  | case4 name address target stored hv =>
    rw [List.forall_mem_cons, List.forall_mem_singleton] at h
    obtain ⟨hpointer, htarget⟩ := h
    -- the pointer is the same in both memories, so both read the same target
    have hpointer := m.read_congr (Nat.le_of_lt (by decide : 4 < UInt32.size)) hpointer
    have htarget := m.read_congr (Nat.le_trans target.size_le (by decide)) htarget
    simp only [eval, hv, Option.bind_eq_bind, Option.bind_some, hpointer, htarget]
  | case5 name hv =>
    simp only [eval]
    cases hv' : env.vars.get? name with
    | none => rfl
    | some v =>
      obtain ⟨address, type, stored⟩ := v
      cases type with
      | scalar | list => rfl
      | pointer target => exact (hv _ _ _ hv').elim
  | case6 op lhs rhs ihl ihr =>
    rw [List.forall_mem_append] at h
    simp only [eval, ihl h.1, ihr h.2]
  | case7 e hident hindex hderef hbinary =>
    cases e with
    | ident name => exact (hident name rfl).elim
    | index list index => exact (hindex list index rfl).elim
    | deref name => exact (hderef name rfl).elim
    | binary op lhs rhs => exact (hbinary op lhs rhs rfl).elim
    | int | hex | char | str | list | addressOf => rfl

/-! ## Passing arguments -/

/-- **Memory when arguments have been passed**: each is evaluated in the memory that those
before it have left, and is written to the cell of its parameter. -/
def pass (m : Machine) (env : Env) : List Param → List Expr → Memory → Option Memory
  | p :: params, arg :: args, memory => do
    let value ← env.eval m memory arg
    env.pass m params args (m.write memory p.address p.type.size value)
  | _, _, memory => some memory

variable {params : List Param} {args : List Expr} {memory memory' : Memory}

theorem pass_cons_eq_some_iff {p : Param} {arg : Expr} :
    env.pass m (p :: params) (arg :: args) memory = some memory' ↔
      ∃ value, env.eval m memory arg = some value
        ∧ env.pass m params args (m.write memory p.address p.type.size value) = some memory' :=
  Option.bind_eq_some_iff

/-- Code that stores an argument, and then the others. -/
theorem runs_pass_cons {p : Param} {arg : Expr} {first more : Fragment}
    (hfirst : first.Assigns m (fun _ => some ⟨p.address, p.type.size⟩) (env.eval m · arg))
    (hmore : m.Runs more fun s s' => env.pass m params args s.mem = some s'.mem) :
    m.Runs (first ++ more) fun s s' =>
      env.pass m (p :: params) (arg :: args) s.mem = some s'.mem := by
  obtain ⟨span, word, hspan, hword, -, hrun⟩ := hfirst
  refine hrun.append hmore fun s t u hstore hrest => ?_
  rw [← Option.some.inj (hspan s.mem)] at hstore
  rw [hstore] at hrest
  exact pass_cons_eq_some_iff.mpr ⟨word s.mem, hword s.mem, hrest⟩

/-- **The code that passes arguments** leads to the memory that says so. -/
theorem runs_passArguments {code : Fragment} (hlists : ∀ p ∈ params, p.type.isList = false)
    (h : env.passArguments params args = .ok code) :
    m.Runs code fun s s' => env.pass m params args s.mem = some s'.mem := by
  induction params generalizing args code with
  | nil =>
    cases h
    exact fun offset s => ⟨s, rfl, fun rest => rfl⟩
  | cons p params ih =>
    cases args with
    | nil =>
      cases h
      exact fun offset s => ⟨s, rfl, fun rest => rfl⟩
    | cons arg args =>
      rw [List.forall_mem_cons] at hlists
      obtain ⟨first, hfirst, h⟩ := bind_eq_ok_iff.mp h
      obtain ⟨more, hmore, h⟩ := bind_eq_ok_iff.mp h
      cases h
      have hassign : ∃ result, env.assign p.name p.type arg p.address = .ok result
          ∧ result.1 = first := by
        unfold passArgument at hfirst
        split at hfirst
        next element len htype =>
          rw [htype] at hlists
          exact nomatch hlists.1
        next => exact map_eq_ok_iff.mp hfirst
      obtain ⟨result, hresult, rfl⟩ := hassign
      exact runs_pass_cons (assigns_assign hlists.1 hresult fun _ => rfl) (ih hlists.2 hmore)

/-- **Passing arguments changes the cells of the parameters only.** -/
theorem pass_of_misses {address : UInt32} (h : env.pass m params args memory = some memory')
    (hmisses : ∀ p ∈ params, ¬ p.span.Covers address) : memory' address = memory address := by
  induction params generalizing args memory with
  | nil =>
    cases h
    rfl
  | cons p params ih =>
    cases args with
    | nil =>
      cases h
      rfl
    | cons arg args =>
      rw [List.forall_mem_cons] at hmisses
      obtain ⟨value, -, h⟩ := pass_cons_eq_some_iff.mp h
      rw [ih h hmisses.2]
      refine m.write_of_le memory (Nat.not_lt.mp fun hcell => hmisses.1 ?_) value
      exact Span.Covers.span hcell

/-- **What is passed stays**: in the end the cell of a parameter holds the value that the
argument had when its turn came. -/
theorem exists_of_pass {k : Nat} {p : Param} {arg : Expr}
    (hapart : params.Pairwise fun p q => p.span.Misses q.span)
    (h : env.pass m params args memory = some memory')
    (hp : params[k]? = some p) (harg : args[k]? = some arg) :
    ∃ between value, env.pass m (params.take k) (args.take k) memory = some between
      ∧ env.eval m between arg = some value
      ∧ m.read memory' p.address p.type.size
        = UInt32.ofNat (value.toNat % 256 ^ p.type.size) := by
  induction params generalizing args memory k with
  | nil => exact nomatch hp
  | cons q params ih =>
    cases args with
    | nil => exact nomatch harg
    | cons first args =>
      rw [List.pairwise_cons] at hapart
      obtain ⟨value, hvalue, hrest⟩ := pass_cons_eq_some_iff.mp h
      cases k with
      | zero =>
        obtain rfl : q = p := Option.some.inj hp
        obtain rfl : first = arg := Option.some.inj harg
        refine ⟨memory, value, rfl, hvalue, ?_⟩
        -- the parameters behind this one leave its cell alone
        have hkept := m.read_congr (Nat.le_trans q.type.size_le (by decide)) fun address hcell =>
          pass_of_misses hrest fun r hr => hapart.1 r hr address (Span.Covers.span hcell)
        exact hkept.trans
          (m.read_write_self memory q.address (Nat.le_trans q.type.size_le (by decide)) value)
      | succ k =>
        obtain ⟨between, word, hbetween, hword, hread⟩ := ih hapart.2 hrest hp harg
        exact ⟨between, word, pass_cons_eq_some_iff.mpr ⟨value, hvalue, hbetween⟩, hword, hread⟩

/-- **An argument that reads none of the parameters** in whose cells something has been
written has the value that it had before. -/
theorem eval_of_pass {arg : Expr} (h : env.pass m params args memory = some memory')
    (hreads : ∀ p ∈ params, ∀ place ∈ env.reads m memory arg, place.Misses p.span) :
    env.eval m memory' arg = env.eval m memory arg :=
  eval_congr fun place hplace address hcovers =>
    pass_of_misses h fun p hp => hreads p hp place hplace address hcovers

end Env

/-- The parameters of a function that is spaced have no byte in common. -/
theorem Function.Spaced.misses {f : Function} (h : f.Spaced) :
    f.params.Pairwise fun p q => p.span.Misses q.span :=
  h.apart.imp_of_mem fun hp hq hapart => hapart.misses (h.ends _ hp) (h.ends _ hq)

/-! ## Calls -/

/-- **The code of a call to a function**: the arguments are passed, and then it jumps. -/
theorem Scope.stores_of_call {s s' : Scope} {line : Nat} {space : Option String} {name : String}
    {args : List Expr} {f : Function} {code : Fragment}
    (hf : s.resolveFunction line space name = .ok f)
    (h : (Stmt.call line space name args).compile s = .ok code s') :
    f.params.length = args.length
      ∧ ∃ stores, (s.env line).passArguments f.params args = .ok stores
      ∧ code = .comment ("call " ++ f.label) :: stores ++ Call.code (.function f.label) := by
  obtain ⟨t, _, hget, h⟩ := CompileM.bind_eq_ok_iff.mp h
  obtain ⟨rfl, rfl⟩ := CompileM.get_eq_ok_iff.mp hget
  have hcall : s.call line space name args = .ok code := (CompileM.liftM_eq_ok_iff.mp h).1
  unfold call at hcall
  rw [meansPutchar_eq_false hf, if_neg Bool.false_ne_true, hf] at hcall
  replace hcall : (s.env line).callFunction f args = .ok code := hcall
  unfold Env.callFunction at hcall
  split at hcall
  next hlength =>
    obtain ⟨stores, hstores, hcall⟩ := bind_eq_ok_iff.mp hcall
    cases hcall
    exact ⟨hlength, stores, hstores, rfl⟩
  next => exact nomatch hcall

/-- **What a call passes.** In a scope that a program can reach, a call that compiles to a
function without list parameters has an argument for every parameter. Its code stores them,
from whatever state it is run, and then jumps. When it has stored them, the cell of every
parameter holds the value that its argument had when its turn came, in the memory that
passing the arguments before it had left. That is the value that the argument had before the
call, if the argument does not read there a byte of a parameter before its own. -/
theorem Scope.passed_of_call (m : Machine) {config : Config} {s s' : Scope} {line : Nat}
    {space : Option String} {name : String} {args : List Expr} {f : Function} {code : Fragment}
    (hs : Reachable config s) (hf : s.resolveFunction line space name = .ok f)
    (hlists : ∀ p ∈ f.params, p.type.isList = false)
    (h : (Stmt.call line space name args).compile s = .ok code s') :
    f.params.length = args.length
      ∧ ∃ stores, code = .comment ("call " ++ f.label) :: stores ++ Call.code (.function f.label)
        ∧ ∀ offset (start : Machine.State), ∃ after, m.exec offset stores start = some after
          ∧ ∀ k p arg, f.params[k]? = some p → args[k]? = some arg →
            ∃ between value,
              (s.env line).pass m (f.params.take k) (args.take k) start.mem = some between
              ∧ (s.env line).eval m between arg = some value
              ∧ m.read after.mem p.address p.type.size
                = UInt32.ofNat (value.toNat % 256 ^ p.type.size)
              ∧ ((∀ q ∈ f.params.take k, ∀ place ∈ (s.env line).reads m start.mem arg,
                  place.Misses q.span) → (s.env line).eval m start.mem arg = some value) := by
  have hspaced : f.Spaced := sees_of_resolveFunction hs.sees hf
  obtain ⟨hlength, stores, hstores, rfl⟩ := stores_of_call hf h
  refine ⟨hlength, stores, rfl, fun offset start => ?_⟩
  have hrun := Env.runs_passArguments (m := m) hlists hstores
  obtain ⟨after, hexec, hpass⟩ := hrun.exec_eq offset start
  refine ⟨after, hexec, fun k p arg hp harg => ?_⟩
  obtain ⟨between, value, hbetween, hvalue, hread⟩ :=
    Env.exists_of_pass hspaced.misses hpass hp harg
  refine ⟨between, value, hbetween, hvalue, hread, fun hreads => ?_⟩
  rw [← Env.eval_of_pass hbetween hreads, hvalue]

/-! ### A function that calls itself -/

namespace Scope

/-- The function that the body of `f(int a, int b)` sees under its own name. -/
def selfCallee : Function :=
  .stub "f" "f" [⟨"a", 0x10000000, .scalar .int⟩, ⟨"b", 0x10000004, .scalar .int⟩]

/-- The scope in which the body of that function starts. -/
def selfCaller : Scope :=
  (Scope.root {}).forkFunction 1 "f" [⟨"a", .scalar .int⟩, ⟨"b", .scalar .int⟩]

/-- Memory in which the parameters are 1 and 2. -/
def selfMemory : Memory := fun address =>
  ([0, 0, 0, 1, 0, 0, 0, 2] : List UInt8).getD (address - 0x10000000).toNat 0

theorem reachable_selfCaller : Reachable {} selfCaller := by
  have hrun : CompileM.succeeds
      (CompileM.declareParams 1 [⟨"a", .scalar .int⟩, ⟨"b", .scalar .int⟩])
      ({ Scope.root {} with
        functionLabels := (Scope.root {}).functionLabels ++ [(Scope.root {}).qualify "f"]
        }.fork .copy) = true := by decide +kernel
  obtain ⟨params, hparams⟩ := CompileM.exists_of_succeeds hrun
  unfold selfCaller
  rw [forkFunction_eq hparams]
  exact .body .root hparams

theorem resolveFunction_selfCaller : selfCaller.resolveFunction 2 none "f" = .ok selfCallee := by
  decide +kernel

/-- Counting down, a function passes itself what it was asked to: the second argument does not
read the first parameter. -/
theorem passed_of_call_countdown :
    ∃ code s', (Stmt.call 2 none "f" [.binary .sub (.ident "a") (.int 1), .ident "b"]).compile
        selfCaller = .ok code s'
      ∧ ∃ stores, code = .comment "call f" :: stores ++ Call.code (.function "f")
        ∧ ∀ start : Machine.State, ∃ after value,
          Machine.bigEndianSample.exec 0 stores start = some after
          ∧ (selfCaller.env 2).eval .bigEndianSample start.mem (.ident "b") = some value
          ∧ Machine.bigEndianSample.read after.mem 0x10000004 4
            = UInt32.ofNat (value.toNat % 256 ^ 4) := by
  have hrun : CompileM.succeeds
      (Stmt.call 2 none "f" [.binary .sub (.ident "a") (.int 1), .ident "b"]).compile
      selfCaller = true := by decide +kernel
  have hb : (selfCaller.env 2).vars.get? "b" = some ⟨0x10000004, .scalar .int, .zeroed⟩ := by
    decide +kernel
  obtain ⟨code, hcode⟩ := CompileM.exists_of_succeeds hrun
  obtain ⟨-, stores, rfl, hpassed⟩ := passed_of_call .bigEndianSample reachable_selfCaller
    resolveFunction_selfCaller (by decide) hcode
  refine ⟨_, _, hcode, stores, rfl, fun start => ?_⟩
  obtain ⟨after, hafter, hcells⟩ := hpassed 0 start
  obtain ⟨between, value, -, -, hread, heval⟩ := hcells 1 _ _ rfl rfl
  refine ⟨after, value, hafter, heval fun q hq place hplace => ?_, hread⟩
  obtain rfl : q = ⟨"a", 0x10000000, .scalar .int⟩ := List.mem_singleton.mp hq
  rw [Env.reads, hb] at hplace
  obtain rfl := List.mem_singleton.mp hplace
  exact Span.Apart.misses (.inr (by decide)) (by decide) (by decide)

/-- **An argument is lost**: where a function of two parameters, which are 1 and 2, calls
itself with the two in the other order, the second argument is 1 before the call, and 2 is
passed for it. -/
theorem swapped_not_passed :
    Reachable {} selfCaller ∧ selfCaller.resolveFunction 2 none "f" = .ok selfCallee
      ∧ ∃ code s' stores after,
        (Stmt.call 2 none "f" [.ident "b", .ident "a"]).compile selfCaller = .ok code s'
        ∧ code = .comment "call f" :: stores ++ Call.code (.function "f")
        ∧ Machine.bigEndianSample.exec 0 stores ⟨fun _ => 0, selfMemory⟩ = some after
        ∧ (selfCaller.env 2).eval .bigEndianSample selfMemory (.ident "a") = some 1
        ∧ Machine.bigEndianSample.read after.mem 0x10000004 4 = 2 := by
  have hrun : CompileM.succeeds (Stmt.call 2 none "f" [.ident "b", .ident "a"]).compile
      selfCaller = true := by decide +kernel
  obtain ⟨code, hcode⟩ := CompileM.exists_of_succeeds hrun
  obtain ⟨-, stores, hstores, rfl⟩ := stores_of_call resolveFunction_selfCaller hcode
  have hpassed : ((selfCaller.env 2).passArguments selfCallee.params [.ident "b", .ident "a"]
      ).toOption.bind (fun stores =>
        (Machine.bigEndianSample.exec 0 stores ⟨fun _ => 0, selfMemory⟩).map fun after =>
          Machine.bigEndianSample.read after.mem 0x10000004 4) = some 2 := by decide +kernel
  rw [hstores] at hpassed
  obtain ⟨after, hafter, hread⟩ := Option.map_eq_some_iff.mp hpassed
  exact ⟨reachable_selfCaller, resolveFunction_selfCaller, _, _, stores, after, hcode, rfl,
    hafter, by decide +kernel, hread⟩

end Scope

end RegMachine
