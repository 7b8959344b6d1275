import RegMachine.Proofs.Events

/-!
# What a block does to its surroundings

The functions and namespaces that a block defines are the definitions that its
events tell of, where the blocks of branches, loops and functions are passed
over (`definitionsAll`). A definition in a block of these is seen in that block
alone.

Between the two ends of a run the names of these definitions are rebound, each
to its last one, every other name keeps what it was bound to, and the exports
grow by just these definitions (`Scope.Defines`). This holds along every list of
statements (`defines_of_compileAll`), and it is what makes a sync of a namespace
or a unit exact: the exports are names only, and they are looked up when the
block has ended, so the child has to end with each of them bound to its last
definition.

The main statement takes the blocks one by one (`Stmt.effect_of_compile`).
-/

namespace RegMachine

variable {α : Type}

/-! ## Tables that are rebound -/

namespace Table

/-- **A table is rebound**: a listed name has the last value that is listed for
it, and every other name keeps what it was bound to. -/
def Rebinds (bindings : List (String × α)) (t t' : Table α) : Prop :=
  ∀ name, t'.get? name = (bindings.reverse.lookup name).or (t.get? name)

/-- Bind a name to what it is bound to in another table, if it is. -/
def copyEntry (source t : Table α) (name : String) : Table α :=
  match source.get? name with
  | some value => t.insert name value
  | none => t

theorem get?_copyEntry_self (source t : Table α) (name : String) :
    (source.copyEntry t name).get? name = (source.get? name).or (t.get? name) := by
  unfold copyEntry
  split
  next value hvalue => rw [get?_insert_self, hvalue, Option.some_or]
  next hnone => rw [hnone, Option.none_or]

theorem get?_copyEntry_of_ne (source t : Table α) {name other : String} (h : other ≠ name) :
    (source.copyEntry t name).get? other = t.get? other := by
  unfold copyEntry
  split
  · exact get?_insert_of_ne t h _
  · rfl

theorem get?_foldl_copyEntry_of_not_mem (source : Table α) {names : List String} {name : String}
    (h : name ∉ names) (t : Table α) :
    (names.foldl source.copyEntry t).get? name = t.get? name := by
  induction names generalizing t with
  | nil => rfl
  | cons first rest ih =>
    rw [List.mem_cons, not_or] at h
    rw [List.foldl_cons, ih h.2, get?_copyEntry_of_ne source t h.1]

theorem get?_foldl_copyEntry_of_mem (source : Table α) {names : List String} {name : String}
    (h : name ∈ names) (t : Table α) :
    (names.foldl source.copyEntry t).get? name = (source.get? name).or (t.get? name) := by
  induction names generalizing t with
  | nil => exact nomatch h
  | cons first rest ih =>
    rw [List.foldl_cons]
    by_cases hrest : name ∈ rest
    · rw [ih hrest]
      by_cases hfirst : name = first
      · subst hfirst
        rw [get?_copyEntry_self, ← Option.or_assoc, Option.or_self]
      · rw [get?_copyEntry_of_ne source t hfirst]
    · obtain rfl : name = first := (List.mem_cons.mp h).resolve_right hrest
      rw [get?_foldl_copyEntry_of_not_mem source hrest, get?_copyEntry_self]

namespace Rebinds

variable {bindings more : List (String × α)} {t u v : Table α} {name : String}

protected theorem refl (t : Table α) : Rebinds [] t t := fun _ => rfl

protected theorem trans (htu : Rebinds bindings t u) (huv : Rebinds more u v) :
    Rebinds (bindings ++ more) t v := by
  intro name
  rw [huv name, htu name, List.reverse_append, List.lookup_append, Option.or_assoc]

protected theorem insert (t : Table α) (name : String) (value : α) :
    Rebinds [(name, value)] t (t.insert name value) := by
  intro other
  by_cases hname : other = name
  · subst hname
    rw [get?_insert_self, List.reverse_singleton, List.lookup_cons_self, Option.some_or]
  · rw [get?_insert_of_ne t hname, List.reverse_singleton, lookup_cons_of_ne hname,
      List.lookup_nil, Option.none_or]

theorem lookup_isSome_iff :
    (bindings.reverse.lookup name).isSome = true ↔ name ∈ bindings.map Prod.fst := by
  rw [List.lookup_isSome_iff, List.mem_map]
  constructor
  · rintro ⟨entry, hmem, hname⟩
    exact ⟨entry, List.mem_reverse.mp hmem, (beq_iff_eq.mp hname).symm⟩
  · rintro ⟨entry, hmem, rfl⟩
    exact ⟨entry, List.mem_reverse.mpr hmem, beq_self_eq_true _⟩

/-- **Copying the names that were rebound** rebinds them in the same way, wherever
they are copied to. -/
theorem copied (h : Rebinds bindings t u) (target : Table α) :
    Rebinds bindings target ((bindings.map Prod.fst).foldl u.copyEntry target) := by
  intro name
  by_cases hname : name ∈ bindings.map Prod.fst
  · obtain ⟨value, hvalue⟩ := Option.isSome_iff_exists.mp (lookup_isSome_iff.mpr hname)
    rw [get?_foldl_copyEntry_of_mem u hname, h name, hvalue, Option.some_or, Option.some_or]
  · have hnone : bindings.reverse.lookup name = none :=
      Option.not_isSome_iff_eq_none.mp fun hsome => hname (lookup_isSome_iff.mp hsome)
    rw [get?_foldl_copyEntry_of_not_mem u hname, hnone, Option.none_or]

end Rebinds

end Table

/-! ## Definitions -/

/-- What a name may be defined as. -/
inductive DefKind where
  | function
  | space

namespace DefKind

/-- What a name is bound to that is defined as such. -/
abbrev Value : DefKind → Type
  | function => Function
  | space => Namespace

/-- The export of a name that is defined as such. -/
def toExport : DefKind → String → Export
  | function => .function
  | space => .space

end DefKind

/-- The table of the functions or of the namespaces. -/
def Symbols.table (s : Symbols Function Namespace) : (kind : DefKind) → Table kind.Value
  | .function => s.functions
  | .space => s.namespaces

/-- The name of an export of a kind. -/
def Export.name? : DefKind → Export → Option String
  | .function, function name => some name
  | .space, space name => some name
  | _, _ => none

theorem Export.mem_filterMap_name? {kind : DefKind} {exports : List Export} {name : String} :
    name ∈ exports.filterMap (name? kind) ↔ kind.toExport name ∈ exports := by
  rw [List.mem_filterMap]
  constructor
  · rintro ⟨entry, hmem, hname⟩
    cases kind <;> cases entry <;> cases hname <;> exact hmem
  · intro hmem
    refine ⟨_, hmem, ?_⟩
    cases kind <;> rfl

/-- **A definition**: a name, and the function or the namespace that it was bound
to. -/
structure Definition where
  kind : DefKind
  name : String
  value : kind.Value

namespace Definition

/-- The export of a definition. -/
def toExport (d : Definition) : Export := d.kind.toExport d.name

/-- What a definition of a kind binds. -/
def binding? : (kind : DefKind) → Definition → Option (String × kind.Value)
  | .function, ⟨.function, name, f⟩ => some (name, f)
  | .space, ⟨.space, name, n⟩ => some (name, n)
  | _, _ => none

/-- What the definitions of a kind bind, in their order. -/
def bindings (kind : DefKind) (ds : List Definition) : List (String × kind.Value) :=
  ds.filterMap (binding? kind)

theorem bindings_append (kind : DefKind) (ds es : List Definition) :
    bindings kind (ds ++ es) = bindings kind ds ++ bindings kind es := List.filterMap_append

/-- The names that definitions of a kind bind are those that they export. -/
theorem names_bindings (kind : DefKind) (ds : List Definition) :
    (bindings kind ds).map Prod.fst = (ds.map toExport).filterMap (Export.name? kind) := by
  rw [bindings, List.map_filterMap, List.filterMap_map]
  refine congrArg (fun f => List.filterMap f ds) (funext fun d => ?_)
  obtain ⟨_ | _, name, value⟩ := d <;> cases kind <;> rfl

/-- A name has a last definition of a kind if and only if it is exported as
such. -/
theorem lookup_bindings_isSome_iff {kind : DefKind} {ds : List Definition} {name : String} :
    ((bindings kind ds).reverse.lookup name).isSome = true
      ↔ kind.toExport name ∈ ds.map toExport := by
  rw [Table.Rebinds.lookup_isSome_iff, names_bindings, Export.mem_filterMap_name?]

end Definition

/-- Whether what the blocks of a statement define is seen behind it. -/
def Stmt.isOpen : Stmt → Bool
  | unroll .. | space .. | unit .. => true
  | _ => false

/-- What a statement itself has defined when it is left. -/
def Event.definition? : Event → Option Definition
  | leave (.function _ name _ _) _ _ behind =>
    (behind.symbols.functions.get? name).map (⟨.function, name, ·⟩)
  | leave (.space _ name _) _ _ behind =>
    (behind.symbols.namespaces.get? name).map (⟨.space, name, ·⟩)
  | _ => none

/-- The definitions that events tell of, in their order. -/
def definitionsOf (events : List Event) : List Definition := events.filterMap Event.definition?

/-- **What statements define** when they are compiled from a scope on: the
functions and namespaces, in the order in which their definitions end, without
those inside a branch, a loop or a function. -/
def definitionsAll (stmts : List Stmt) (s : Scope) : List Definition :=
  definitionsOf (eventsAll Stmt.isOpen stmts s)

theorem definitionsOf_append (events more : List Event) :
    definitionsOf (events ++ more) = definitionsOf events ++ definitionsOf more :=
  List.filterMap_append

/-- A statement defines what its blocks define, where that is seen behind it, and
then itself. -/
theorem Stmt.definitionsOf_events (stmt : Stmt) (s : Scope) (code : Fragment) (s' : Scope) :
    definitionsOf (stmt.events isOpen s code s')
      = (if stmt.isOpen then definitionsOf (stmt.blockEvents isOpen s) else [])
        ++ definitionsOf [.leave stmt s code s'] := by
  have henter : definitionsOf [.enter stmt s] = [] := rfl
  rw [Stmt.events, ← List.singleton_append, definitionsOf_append, definitionsOf_append, henter,
    List.nil_append, apply_ite definitionsOf]
  rfl

/-! ## Scopes in which something is defined -/

/-- **Definitions are made between two scopes**: their names are rebound, each to
its last definition, other names keep what they are bound to, and the exports
grow by the definitions. -/
structure Scope.Defines (ds : List Definition) (s s' : Scope) : Prop where
  tables : ∀ kind, Table.Rebinds (Definition.bindings kind ds) (s.symbols.table kind)
    (s'.symbols.table kind)
  exports : s'.exports = s.exports ++ ds.map Definition.toExport

/-- **A scope keeps its tables**, with all that is stored in them, and its exports:
its symbols are the same but for the cursors. -/
structure Scope.Keeps (s s' : Scope) : Prop where
  symbols : s'.symbols = s.symbols.adoptCursors s'.symbols
  exports : s'.exports = s.exports

theorem Scope.Keeps.vars {s s' : Scope} (h : s.Keeps s') : s'.symbols.vars = s.symbols.vars := by
  rw [h.symbols]
  rfl

/-- Simple changes of symbols touch neither functions nor namespaces. -/
theorem Symbols.Step.table_eq {names : String → Prop} {a b : Symbols Function Namespace}
    (h : Relation.ReflTransGen (Symbols.Step names) a b) (kind : DefKind) :
    b.table kind = a.table kind := by
  induction h with
  | refl => rfl
  | tail _ hstep ih =>
    rw [← ih]
    cases kind <;> cases hstep <;> rfl

namespace Scope

variable {ds es : List Definition} {s t u start child : Scope}

namespace Defines

theorem of_eq (htables : ∀ kind, t.symbols.table kind = s.symbols.table kind)
    (hexports : t.exports = s.exports) : s.Defines [] t := by
  refine ⟨fun kind => ?_, ?_⟩
  · rw [htables]
    exact .refl _
  · rw [hexports, List.map_nil, List.append_nil]

protected theorem refl (s : Scope) : s.Defines [] s := of_eq (fun _ => rfl) rfl

theorem of_keeps (h : s.Keeps t) : s.Defines [] t := by
  refine of_eq (fun kind => ?_) h.exports
  rw [h.symbols]
  cases kind <;> rfl

protected theorem trans (hst : s.Defines ds t) (htu : t.Defines es u) :
    s.Defines (ds ++ es) u := by
  refine ⟨fun kind => ?_, ?_⟩
  · rw [Definition.bindings_append]
    exact (hst.tables kind).trans (htu.tables kind)
  · rw [htu.exports, hst.exports, List.append_assoc, List.map_append]

theorem of_edits {names : String → Prop} (h : s.Edits names t) : s.Defines [] t := by
  refine of_eq (Symbols.Step.table_eq h.steps) ?_
  rw [h.rest]

theorem emit (h : s.Defines ds t) (stream : Stream) (code : Fragment) :
    s.Defines ds (t.emit stream code) := by
  cases stream <;> exact ⟨h.tables, h.exports⟩

theorem declareFunction {f : Function} (h : CompileM.declareFunction f s = .ok () t) :
    s.Defines [⟨.function, f.name, f⟩] t := by
  obtain rfl := CompileM.declareFunction_eq_ok_iff.mp h
  refine ⟨fun kind => ?_, rfl⟩
  cases kind with
  | function => exact .insert _ _ _
  | space => exact .refl _

theorem declareNamespace {n : Namespace} (h : CompileM.declareNamespace n s = .ok () t) :
    s.Defines [⟨.space, n.name, n⟩] t := by
  obtain rfl := CompileM.declareNamespace_eq_ok_iff.mp h
  refine ⟨fun kind => ?_, rfl⟩
  cases kind with
  | function => exact .refl _
  | space => exact .insert _ _ _

end Defines

/-! ## Folding a child back -/

theorem table_copyExport (s : Scope) (target : Symbols Function Namespace) (kind : DefKind)
    (entry : Export) :
    (s.copyExport target entry).table kind
      = (entry.name? kind).toList.foldl (s.symbols.table kind).copyEntry (target.table kind) := by
  cases entry with
  | function name =>
    dsimp only [copyExport]
    cases kind with
    | function =>
      show _ = (s.symbols.functions.copyEntry target.functions name)
      unfold Table.copyEntry
      cases s.symbols.functions.get? name <;> rfl
    | space => cases s.symbols.functions.get? name <;> rfl
  | space name =>
    dsimp only [copyExport]
    cases kind with
    | function => cases s.symbols.namespaces.get? name <;> rfl
    | space =>
      show _ = (s.symbols.namespaces.copyEntry target.namespaces name)
      unfold Table.copyEntry
      cases s.symbols.namespaces.get? name <;> rfl

/-- Copying exports copies the names of a kind among them, and no others. -/
theorem table_foldl_copyExport (s : Scope) (exports : List Export)
    (target : Symbols Function Namespace) (kind : DefKind) :
    (exports.foldl s.copyExport target).table kind
      = (exports.filterMap (Export.name? kind)).foldl (s.symbols.table kind).copyEntry
        (target.table kind) := by
  induction exports generalizing target with
  | nil => rfl
  | cons entry rest ih =>
    rw [List.foldl_cons, ih, table_copyExport, ← List.foldl_append]
    cases kind <;> cases entry <;> rfl

/-- **Copying what was defined in a scope** rebinds the same names in the same way,
wherever they are copied to. -/
theorem Defines.copied (h : start.Defines ds s) (hstart : start.exports = [])
    (target : Symbols Function Namespace) (kind : DefKind) :
    Table.Rebinds (Definition.bindings kind ds) (target.table kind)
      ((s.exports.foldl s.copyExport target).table kind) := by
  have hexports : s.exports = ds.map Definition.toExport := by
    rw [h.exports, hstart, List.nil_append]
  rw [table_foldl_copyExport, hexports, ← Definition.names_bindings]
  -- a name is looked up where the scope ends, and there it has its last definition
  exact (h.tables kind).copied _

/-- **A child whose definitions are brought back by name** is folded back by making
just these definitions, whatever it started from. -/
theorem Defines.sync (h : start.Defines ds child) (hstart : start.exports = [])
    (hlink : child.link.mergesBack = true) (s : Scope) : s.Defines ds (s.sync child) := by
  have hsymbols : (s.sync child).symbols
      = child.exports.foldl child.copyExport (s.symbols.adoptCursors child.symbols) := by
    show s.syncSymbols child = _
    unfold syncSymbols
    cases hchild : child.link with
    | passThrough | isolated => rfl
    | copy | shared => rw [hchild] at hlink; exact nomatch hlink
  have hexports : (s.sync child).exports = s.exports ++ child.exports := by
    show s.syncExports child = _
    unfold syncExports
    cases hchild : child.link with
    | copy => rw [hchild] at hlink; exact nomatch hlink
    | shared | passThrough | isolated => rfl
  refine ⟨fun kind => ?_, ?_⟩
  · rw [hsymbols]
    cases kind with
    | function => exact h.copied hstart _ .function
    | space => exact h.copied hstart _ .space
  · rw [hexports, h.exports, hstart, List.nil_append]

/-- A child that shares the tables is folded back as it is. -/
theorem Defines.sync_shared (var : String) (h : (s.forkIndexed var).Defines ds child)
    (hlink : child.link = .shared) : s.Defines ds (s.sync child) := by
  have hsymbols : (s.sync child).symbols = child.symbols := by
    show s.syncSymbols child = _
    unfold syncSymbols
    rw [hlink]
  have hexports : (s.sync child).exports = s.exports ++ child.exports := by
    show s.syncExports child = _
    unfold syncExports
    rw [hlink]
  refine ⟨fun kind => ?_, ?_⟩
  · rw [hsymbols]
    cases kind with
    | function => exact h.tables .function
    | space => exact h.tables .space
  · rw [hexports, h.exports]
    rfl

/-- The block of a branch, a loop or a function leaves nothing behind. -/
theorem keeps_sync (s : Scope) (hlink : child.link = .copy) : s.Keeps (s.sync child) := by
  have hsymbols : (s.sync child).symbols = s.symbols.adoptCursors child.symbols := by
    show s.syncSymbols child = _
    unfold syncSymbols
    rw [hlink]
  refine ⟨?_, ?_⟩
  · rw [hsymbols]
    rfl
  · show s.syncExports child = _
    unfold syncExports
    rw [hlink]

end Scope

/-! ## Statements -/

/-- A statement makes the definitions that its events tell of. -/
def Stmt.Defines (stmt : Stmt) : Prop :=
  ∀ s code s', stmt.compile s = .ok code s' →
    s.Defines (definitionsOf (stmt.events Stmt.isOpen s code s')) s'

theorem defines_of_block {stmts : List Stmt} (hstmts : ∀ stmt ∈ stmts, stmt.Defines)
    {s s' : Scope}
    (h : compileAll stmts s = .ok () s') : s.Defines (definitionsAll stmts s) s' := by
  refine invariant_of_eventsAll Stmt.isOpen
    (I := fun events t _ => s.Defines (definitionsOf events) t)
    ?_ ?_ [] (.refl _) h
  · intro stmt hstmt events t code t' ht hcode
    rw [definitionsOf_append]
    exact ht.trans (hstmts stmt hstmt t code t' hcode)
  · intro events t stream code _ ht
    exact ht.emit stream code

section Blocks

variable {line : Nat} {name : String} {s s' : Scope} {code : Fragment}

/-- A branch leaves nothing behind. -/
theorem Scope.keeps_branch {cond : Condition} {thenBody elseBody : List Stmt}
    (h : (Stmt.branch line cond thenBody elseBody).compile s = .ok code s') : s.Keeps s' := by
  obtain ⟨_, first, second, -, hfirst, hsecond, -, rfl⟩ := CompileM.branch_eq_ok_iff.mp h
  have hkeeps : s.nextLabel.Keeps (s.nextLabel.sync first) :=
    keeps_sync _ (compileAll_stays thenBody hfirst).link
  have hkeeps' : (s.nextLabel.sync first).Keeps _ :=
    keeps_sync _ (compileAll_stays elseBody hsecond).link
  refine ⟨?_, hkeeps'.exports.trans hkeeps.exports⟩
  rw [hkeeps'.symbols, hkeeps.symbols]
  rfl

theorem Scope.keeps_loop {cond : Condition} {body : List Stmt}
    (h : (Stmt.loop line cond body).compile s = .ok code s') : s.Keeps s' := by
  obtain ⟨_, child, -, hchild, -, rfl⟩ := CompileM.loop_eq_ok_iff.mp h
  have hkeeps := keeps_sync s.nextLabel (compileAll_stays body hchild).link
  exact ⟨hkeeps.symbols, hkeeps.exports⟩

/-- **A function binds its own name**, to a function of its label, and nothing
else. -/
theorem Scope.exists_of_function {formals : List Formal} {body : List Stmt}
    (h : (Stmt.function line name formals body).compile s = .ok code s') :
    ∃ f : Function, f.name = name ∧ f.label = s.qualify name
      ∧ s'.symbols.vars = s.symbols.vars ∧ s'.symbols.functions.get? name = some f
      ∧ s.Defines [⟨.function, name, f⟩] s' := by
  obtain ⟨params, slot, start, inner, child, -, hparams, hbody, hslot, -, hdeclare⟩ :=
    CompileM.function_eq_ok_iff.mp h
  have hedits : Scope.Edits (fun _ => True) _ start :=
    CompileM.edits_declareParams (fun _ _ _ _ => trivial) hparams
  have hallocate : inner.Edits (fun _ => True) child := CompileM.edits_allocate 4 hslot
  have hlink : child.link = .copy := (Stays.of_edits hallocate).link.trans
    ((compileAll_stays body hbody).link.trans (Stays.of_edits hedits).link)
  have hkeeps :=
    keeps_sync { s with functionLabels := s.functionLabels ++ [s.qualify name] } hlink
  have hdefines := (Defines.of_keeps hkeeps).trans (.declareFunction hdeclare)
  refine ⟨_, rfl, rfl, ?_, ?_, hdefines.tables, hdefines.exports⟩
  · obtain rfl := CompileM.declareFunction_eq_ok_iff.mp hdeclare
    exact hkeeps.vars
  · obtain rfl := CompileM.declareFunction_eq_ok_iff.mp hdeclare
    exact Table.get?_insert_self _ _ _

/-- **An unrolled loop** makes the definitions of its copies. -/
theorem Scope.defines_unroll {var iterable : String} {body : List Stmt}
    (hbody : ∀ stmt ∈ body, stmt.Defines)
    (h : (Stmt.unroll line var iterable body).compile s = .ok code s') :
    s.Defines
      (definitionsOf ((Stmt.unroll line var iterable body).blockEvents Stmt.isOpen s)) s' := by
  obtain ⟨v, element, len, child, hv, htype, -, hcopies, -, rfl⟩ := CompileM.unroll_eq_ok_iff.mp h
  have hlink : child.link = .shared :=
    (CompileM.follows_copies (compileAll_stays body) (fun _ => CompileM.stays_emit _ _)
      (fun _ => CompileM.stays_setValue _ _ _) len 0 hcopies).link
  rw [Stmt.blockEvents_unroll hv htype]
  -- all copies work on one child, so what one of them defines is rebound by the next
  refine Defines.sync_shared var ?_ hlink
  refine invariant_of_eventsOfCopies (eventsAll Stmt.isOpen body)
    (I := fun events t _ => (s.forkIndexed var).Defines (definitionsOf events) t) ?_ ?_ ?_ []
    (.refl _) hcopies
  · intro events t t' ht h
    rw [definitionsOf_append]
    exact ht.trans (defines_of_block hbody h)
  · intro events t index ht
    exact ht.emit .body _
  · intro events t value t' ht h
    have hedits : t.Edits (fun _ => False) t' := CompileM.edits_setValue var value h
    rw [← List.append_nil (definitionsOf events)]
    exact ht.trans (.of_edits hedits)

/-- **An included unit** leaves the variables alone and makes the definitions of
its block. -/
theorem Scope.defines_unit {path : String} {body : List Stmt}
    (hbody : ∀ stmt ∈ body, stmt.Defines)
    (h : (Stmt.unit line path body).compile s = .ok code s') :
    s'.symbols.vars = s.symbols.vars
      ∧ s.Defines (definitionsAll body (s.fork .isolated)) s' := by
  obtain ⟨child, hchild, -, rfl⟩ := CompileM.unit_eq_ok_iff.mp h
  have hlink : child.link = .isolated := (compileAll_stays body hchild).link
  have hshared : child.link ≠ .shared := by
    rw [hlink]
    exact nofun
  refine ⟨(imports_syncSymbols hshared).vars, (defines_of_block hbody hchild).sync rfl ?_ s⟩
  rw [hlink]
  rfl

end Blocks

/-- **A namespace holds definitions**: its functions are those that are defined,
each as it was defined last, its namespaces are those that are defined, and it
has no variables. -/
structure Namespace.Holds (ds : List Definition) (n : Namespace) : Prop where
  vars : n.symbols.vars = ∅
  functions : Table.Rebinds (Definition.bindings .function ds) ∅ n.symbols.functions
  namespaces : ∀ name,
    n.symbols.namespaces.contains name = true ↔ .space name ∈ ds.map Definition.toExport

theorem Scope.Defines.holds {ds : List Definition} {start child : Scope}
    (h : start.Defines ds child) (hstart : start.exports = []) (name : String) :
    Namespace.Holds ds ⟨name, child.exportedSymbols.forgetNamespaces⟩ := by
  refine ⟨child.imports_exportedSymbols.vars, h.copied hstart _ .function, fun other => ?_⟩
  have hbound : child.exportedSymbols.namespaces.get? other
      = ((Definition.bindings .space ds).reverse.lookup other).or none :=
    h.copied hstart _ .space other
  show ((child.exportedSymbols.namespaces.map fun _ => ()).get? other).isSome = true ↔ _
  rw [Table.get?_map, Option.isSome_map, hbound, Option.or_none]
  exact Definition.lookup_bindings_isSome_iff

/-- A qualified call is resolved just where the namespace holds a function of the
name. -/
theorem Namespace.Holds.exists_resolve_iff {ds : List Definition} {n : Namespace} (h : n.Holds ds)
    {s : Scope} {space : String} (hspace : s.symbols.namespaces.get? space = some n) (line : Nat)
    (name : String) :
    (∃ f, s.resolveFunction line (some space) name = .ok f)
      ↔ .function name ∈ ds.map Definition.toExport := by
  have hlookup : s.lookupNamespace space line = .ok n := by
    unfold Scope.lookupNamespace
    rw [hspace]
  have hget :
      n.symbols.functions.get? name = (Definition.bindings .function ds).reverse.lookup name := by
    rw [h.functions name, Table.get?_empty, Option.or_none]
  have hexported : ((Definition.bindings .function ds).reverse.lookup name).isSome = true
      ↔ .function name ∈ ds.map Definition.toExport := Definition.lookup_bindings_isSome_iff
  rw [← hexported, ← hget]
  dsimp only [Scope.resolveFunction]
  rw [hlookup]
  cases hf : n.symbols.functions.get? name with
  | some f => simp [bind, Except.bind, hf]
  | none => simp [bind, Except.bind, hf]

/-- **A namespace makes the definitions of its block and then its own**, and it
holds what its block defined. -/
theorem Scope.exists_of_space {line : Nat} {name : String} {body : List Stmt} {s s' : Scope}
    {code : Fragment} (hbody : ∀ stmt ∈ body, stmt.Defines)
    (h : (Stmt.space line name body).compile s = .ok code s') :
    ∃ n : Namespace, n.name = name ∧ s'.symbols.vars = s.symbols.vars
      ∧ s'.symbols.namespaces.get? name = some n
      ∧ n.Holds (definitionsAll body ((s.fork .passThrough).enter name))
      ∧ s.Defines
          (definitionsAll body ((s.fork .passThrough).enter name) ++ [⟨.space, name, n⟩]) s' := by
  obtain ⟨child, hchild, -, hdeclare⟩ := CompileM.space_eq_ok_iff.mp h
  have hlink : child.link = .passThrough := (compileAll_stays body hchild).link
  have hinside := defines_of_block hbody hchild
  have hmerges : child.link.mergesBack = true := by
    rw [hlink]
    rfl
  have hshared : child.link ≠ .shared := by
    rw [hlink]
    exact nofun
  refine ⟨_, rfl, ?_, ?_, hinside.holds rfl name,
    (hinside.sync rfl hmerges s).trans (.declareNamespace hdeclare)⟩
  · obtain rfl := CompileM.declareNamespace_eq_ok_iff.mp hdeclare
    exact (imports_syncSymbols hshared).vars
  · obtain rfl := CompileM.declareNamespace_eq_ok_iff.mp hdeclare
    exact Table.get?_insert_self _ _ _

/-- **Every statement makes the definitions that its events tell of.** -/
theorem Stmt.defines (stmt : Stmt) : stmt.Defines := by
  induction stmt using Stmt.blockInduction with
  | simple stmt hsimple =>
    intro s code s' h
    rw [Stmt.definitionsOf_events, Stmt.blockEvents_of_isSimple hsimple]
    cases stmt with
    | branch | loop | unroll | function | space | unit => exact nomatch hsimple
    | _ => exact .of_edits (Stmt.edits_of_isSimple hsimple h)
  | branch line cond thenBody elseBody =>
    intro s code s' h
    exact .of_keeps (Scope.keeps_branch h)
  | loop line cond body =>
    intro s code s' h
    exact .of_keeps (Scope.keeps_loop h)
  | unroll line var iterable body ih =>
    intro s code s' h
    have hleave : definitionsOf [.leave (.unroll line var iterable body) s code s'] = [] := rfl
    rw [Stmt.definitionsOf_events, hleave, List.append_nil]
    exact Scope.defines_unroll ih h
  | function line name formals body =>
    intro s code s' h
    obtain ⟨f, -, -, -, hf, hdefines⟩ := Scope.exists_of_function h
    have hleave : definitionsOf [.leave (.function line name formals body) s code s']
        = [⟨.function, name, f⟩] := by
      rw [definitionsOf, List.filterMap_cons, Event.definition?, hf]
      rfl
    rw [Stmt.definitionsOf_events, hleave]
    exact hdefines
  | space line name body ih =>
    intro s code s' h
    obtain ⟨n, -, -, hn, -, hdefines⟩ := Scope.exists_of_space ih h
    have hleave :
        definitionsOf [.leave (.space line name body) s code s'] = [⟨.space, name, n⟩] := by
      rw [definitionsOf, List.filterMap_cons, Event.definition?, hn]
      rfl
    rw [Stmt.definitionsOf_events, hleave]
    exact hdefines
  | unit line path body ih =>
    intro s code s' h
    have hleave : definitionsOf [.leave (.unit line path body) s code s'] = [] := rfl
    rw [Stmt.definitionsOf_events, hleave, List.append_nil]
    exact (Scope.defines_unit ih h).2

/-- **Along every list of statements**, the names of what they define are rebound,
each to its last definition, and exported in order. -/
theorem defines_of_compileAll {stmts : List Stmt} {s s' : Scope}
    (h : compileAll stmts s = .ok () s') : s.Defines (definitionsAll stmts s) s' :=
  defines_of_block (fun stmt _ => stmt.defines) h

/-! ## What a block does to its surroundings -/

/-- **What a statement does to the tables and the exports around it.** -/
def Stmt.Effect (s s' : Scope) : Stmt → Prop
  | branch .. | loop .. => s.Keeps s'
  | function _ name _ _ =>
    s'.symbols.vars = s.symbols.vars
      ∧ ∃ f : Function, f.name = name ∧ f.label = s.qualify name
        ∧ s.Defines [⟨.function, name, f⟩] s'
  | unit _ _ body =>
    s'.symbols.vars = s.symbols.vars ∧ s.Defines (definitionsAll body (s.fork .isolated)) s'
  | space _ name body =>
    let inside := definitionsAll body ((s.fork .passThrough).enter name)
    s'.symbols.vars = s.symbols.vars
      ∧ (∃ n : Namespace, n.name = name ∧ n.Holds inside
        ∧ s.Defines (inside ++ [⟨.space, name, n⟩]) s')
      ∧ ∀ line f, (∃ g, s'.resolveFunction line (some name) f = .ok g)
        ↔ .function f ∈ inside.map Definition.toExport
  | stmt => s.Defines (definitionsOf (stmt.blockEvents isOpen s)) s'

/-- **What a block does to its surroundings.** A branch or a loop leaves the tables
and the exports as they are. A function rebinds its own name and is exported.
A unit rebinds what its block defines, each name to its last definition, and
exports it once. A namespace does so too, and is then bound to a namespace that
holds what its block defines, so that a qualified call of a function is resolved
if and only if the block defines it. -/
theorem Stmt.effect_of_compile {stmt : Stmt} {s s' : Scope} {code : Fragment}
    (h : stmt.compile s = .ok code s') : stmt.Effect s s' := by
  cases stmt with
  | branch => exact Scope.keeps_branch h
  | loop => exact Scope.keeps_loop h
  | function line name formals body =>
    obtain ⟨f, hname, hlabel, hvars, -, hf⟩ := Scope.exists_of_function h
    exact ⟨hvars, f, hname, hlabel, hf⟩
  | unit line path body => exact Scope.defines_unit (fun stmt _ => stmt.defines) h
  | space line name body =>
    obtain ⟨n, hname, hvars, hn, hholds, hinside⟩ :=
      Scope.exists_of_space (fun stmt _ => stmt.defines) h
    exact ⟨hvars, ⟨n, hname, hholds, hinside⟩, fun line f => hholds.exists_resolve_iff hn line f⟩
  | unroll => exact Scope.defines_unroll (fun stmt _ => stmt.defines) h
  | _ => exact .of_edits (Stmt.edits_of_isSimple rfl h)

/-- A namespace with a function, a unit that has a function of that name in a
namespace of its own, and a branch with a function. -/
def nestedSpaces : Stmt :=
  .space 1 "n" [.function 2 "f" [] [], .unit 3 "lib" [.space 4 "m" [.function 5 "f" [] []]],
    .branch 6 ⟨.equal, .int 1, .int 1⟩ [.function 7 "g" [] []] []]

theorem Stmt.effect_of_compile_nestedSpaces :
    ∃ code s', nestedSpaces.compile (Scope.root {}) = .ok code s'
      ∧ nestedSpaces.Effect (Scope.root {}) s'
      ∧ s'.exports = [.function "f", .function "f", .space "m", .space "n"]
      ∧ (∃ f, s'.resolveFunction 8 (some "n") "f" = .ok f)
      ∧ ¬ ∃ f, s'.resolveFunction 8 (some "n") "g" = .ok f := by
  have hrun : CompileM.succeeds nestedSpaces.compile (Scope.root {}) = true := by decide +kernel
  have hinside : (definitionsAll
      [.function 2 "f" [] [], .unit 3 "lib" [.space 4 "m" [.function 5 "f" [] []]],
        .branch 6 ⟨.equal, .int 1, .int 1⟩ [.function 7 "g" [] []] []]
      (((Scope.root {}).fork .passThrough).enter "n")).map Definition.toExport
      = [.function "f", .function "f", .space "m"] := by decide +kernel
  obtain ⟨code, h⟩ := CompileM.exists_of_succeeds hrun
  obtain ⟨-, ⟨n, -, -, hdefines⟩, hresolve⟩ := Stmt.effect_of_compile h
  refine ⟨code, _, h, Stmt.effect_of_compile h, ?_, (hresolve 8 "f").mpr ?_, fun hg => ?_⟩
  · rw [hdefines.exports, List.map_append, hinside]
    rfl
  · rw [hinside]
    decide
  · have hmem := (hresolve 8 "g").mp hg
    rw [hinside] at hmem
    exact absurd hmem (by decide)

end RegMachine
