import Mathlib.Logic.Relation
import RegMachine.Compile.Stmt
import RegMachine.Proofs.Outcome

/-!
# What statements do to a scope

A statement without a block changes a scope in few ways: it moves a cursor,
gives a name a fresh cell, binds a list to cells that are already there, or
records a value. `Symbols.Step` lists these changes, and `Scope.Edits` is a run
of them. Every simple statement is such a run (`Stmt.edits_of_isSimple`), and
what a run of them keeps is proved once, by looking at the five changes.

A statement with a block runs the block in a child scope. What it does to its
own scope is said by one equivalence for each of them, which leaves open what
the block does (`CompileM.branch_eq_ok_iff` and its likes).
-/

namespace RegMachine

variable {α : Type}

/-! ## Addresses -/

/-- The address so many bytes behind another. -/
def addressAfter (address : UInt32) (size : Nat) : UInt32 := UInt32.ofNat (address.toNat + size)

theorem toNat_addressAfter {address : UInt32} {size : Nat}
    (h : address.toNat + size < UInt32.size) :
    (addressAfter address size).toNat = address.toNat + size :=
  UInt32.toNat_ofNat_of_lt' h

theorem le_addressAfter {address : UInt32} {size : Nat}
    (h : address.toNat + size < UInt32.size) : address ≤ addressAfter address size := by
  rw [UInt32.le_iff_toNat_le, toNat_addressAfter h]
  exact Nat.le_add_right _ _

/-! ## Changes of symbols -/

/-- **One change that a simple statement makes to symbols**, where only some
names may be bound. -/
inductive Symbols.Step (names : String → Prop) :
    Symbols Function Namespace → Symbols Function Namespace → Prop
  | moveCursor {s : Symbols Function Namespace} {address : UInt32}
      (h : s.nextAddress ≤ address) : Step names s { s with nextAddress := address }
  | moveDataCursor {s : Symbols Function Namespace} {address : UInt32}
      (h : s.nextDataAddress ≤ address) : Step names s { s with nextDataAddress := address }
  /-- A name gets a cell of its own, where the cursor stands. -/
  | bindCell {s : Symbols Function Namespace} {name : String} (type : ValueType) (value : Stored)
      (hname : names name) (hroom : s.nextAddress.toNat + type.size < UInt32.size) :
      Step names s
        ({ s with nextAddress := addressAfter s.nextAddress type.size }.insertVariable
          name ⟨s.nextAddress, type, value⟩)
  /-- A name is bound to a list, which has no cell of its own. -/
  | bindList {s : Symbols Function Namespace} {name : String} (address : UInt32)
      (element : Scalar) (len : Nat) (value : Stored) (hname : names name) :
      Step names s (s.insertVariable name ⟨address, .list element len, value⟩)
  | setValue {s : Symbols Function Namespace} {name : String} {v : Variable} (value : Stored)
      (h : s.vars.get? name = some v) :
      Step names s (s.insertVariable name { v with value := value })

/-- **A scope is edited**: its symbols change step by step, warnings are
counted, and the rest of it stays. -/
structure Scope.Edits (names : String → Prop) (s s' : Scope) : Prop where
  steps : Relation.ReflTransGen (Symbols.Step names) s.symbols s'.symbols
  rest : s' = { s with symbols := s'.symbols, warnings := s'.warnings }

namespace Scope.Edits

variable {names : String → Prop} {s t u : Scope}

protected theorem refl (s : Scope) : Edits names s s := ⟨.refl, rfl⟩

protected theorem trans (hst : Edits names s t) (htu : Edits names t u) : Edits names s u := by
  refine ⟨hst.steps.trans htu.steps, ?_⟩
  rw [htu.rest, hst.rest]

instance : Std.Refl (Scope.Edits names) := ⟨.refl⟩

instance : Trans (Scope.Edits names) (Scope.Edits names) (Scope.Edits names) := ⟨.trans⟩

theorem of_step {symbols : Symbols Function Namespace}
    (h : Symbols.Step names s.symbols symbols) : Edits names s { s with symbols := symbols } :=
  ⟨.single h, rfl⟩

end Scope.Edits

namespace CompileM

open Scope (Edits)

variable {names : String → Prop} {line : Nat}

theorem edits_allocate (size : Nat) : Follows (Edits names) (allocate size line) := by
  intro s a s' h
  obtain ⟨hroom, -, rfl⟩ := allocate_eq_ok_iff.mp h
  exact .of_step (.moveCursor (le_addressAfter hroom))

theorem edits_warn : Follows (Edits names) warn := by
  intro s a s' h
  obtain rfl := warn_eq_ok_iff.mp h
  exact ⟨.refl, rfl⟩

theorem edits_setValue (name : String) (value : Stored) :
    Follows (Edits names) (setValue name value line) := by
  intro s a s' h
  obtain ⟨v, hv, rfl⟩ := setValue_eq_ok_iff.mp h
  exact .of_step (.setValue value hv)

theorem edits_moveCursor (region : Region) (address : UInt32) :
    Follows (Edits names) (moveCursor region address line) := by
  intro s a s' h
  rw [moveCursor_eq_ok_iff] at h
  cases region with
  | cells =>
    obtain ⟨hle, rfl⟩ := h
    exact .of_step (.moveCursor hle)
  | data =>
    obtain ⟨hle, rfl⟩ := h
    exact .of_step (.moveDataCursor hle)

/-- Handing out the bytes of a type and binding a name to them gives the name a
fresh cell. -/
theorem edits_bindCell {name : String} (hname : names name) (type : ValueType)
    (value : Stored) {x : UInt32 → CompileM α}
    (hx : ∀ address, Follows (Edits names) (x address)) :
    Follows (Edits names) (do
      let address ← allocate type.size line
      bindVariable name ⟨address, type, value⟩
      x address) := by
  intro s a s' h
  obtain ⟨address, t, hallocate, h⟩ := bind_eq_ok_iff.mp h
  obtain ⟨_, u, hbind, h⟩ := bind_eq_ok_iff.mp h
  obtain ⟨hroom, rfl, rfl⟩ := allocate_eq_ok_iff.mp hallocate
  obtain rfl := bindVariable_eq_ok_iff.mp hbind
  exact .trans (.of_step (.bindCell type value hname hroom)) (hx _ h)

theorem edits_declareListHeader {name : String} (hname : names name) (base : UInt32)
    (element : Scalar) (len : Nat) (value : Stored) :
    Follows (Edits names) (declare name ⟨base, .list element len, value⟩ line) := by
  intro s a s' h
  obtain ⟨-, rfl⟩ := declare_eq_ok_iff.mp h
  exact .of_step (.bindList base element len value hname)

/-! ## Simple statements -/

theorem edits_reserveElements {list : String} (hnames : ∀ index, names (elementName list index))
    (element : Scalar) (count index : Nat) :
    Follows (Edits names) (reserveElements line list element count index) := by
  induction count generalizing index with
  | zero => exact .pure ()
  | succ count ih =>
    exact edits_bindCell (hnames index) (.scalar element) .zeroed fun _ => ih (index + 1)

theorem edits_fillElements {list : String} (hnames : ∀ index, names (elementName list index))
    (element : Scalar) (count index : Nat) (loads : List Loaded) :
    Follows (Edits names) (fillElements line list element count index loads) := by
  induction count generalizing index loads with
  | zero => exact .pure []
  | succ count ih =>
    cases loads with
    | nil =>
      exact edits_bindCell (hnames index) (.scalar element) .zeroed fun _ =>
        .bind (ih (index + 1) []) fun _ => .pure _
    | cons loaded rest =>
      exact edits_bindCell (hnames index) (.scalar element) loaded.value fun _ =>
        .bind (ih (index + 1) rest) fun _ => .pure _

theorem edits_elementType (element : Option Scalar) (items : List Expr) :
    Follows (Edits names) (elementType line element items) := by
  unfold elementType
  split
  · exact .pure _
  · exact .bind (.env line) fun _ => .bind (.liftM _) fun _ => .bind edits_warn fun _ => .pure _
  · exact .pure _

/-- The names that a declaration of a name may bind: the name itself, and those
of its elements. -/
def BoundBy (name other : String) : Prop :=
  other = name ∨ ∃ index, other = elementName name index

theorem edits_declareCopy (name : String) (element : Option Scalar) (len : Option Nat)
    (source : String) :
    Follows (Edits (BoundBy name)) (declareCopy line name element len source) := by
  refine .bind (.lookup source line) fun v => ?_
  split
  · dsimp only
    split
    · exact .bind .nextAddress fun base =>
        .bind (edits_reserveElements (fun index => .inr ⟨index, rfl⟩) _ _ _) fun _ =>
        .bind (.env line) fun _ => .bind (.liftM _) fun _ =>
        .bind (edits_declareListHeader (.inl rfl) base _ _ _) fun _ => .pure _
    · exact .fail _ _
  · exact .fail _ _

theorem edits_declareItems (name : String) (element : Option Scalar) (len : Option Nat)
    (value : Option Expr) :
    Follows (Edits (BoundBy name)) (declareItems line name element len value) :=
  .bind (.env line) fun _ => .bind (.liftM _) fun _ => .bind (edits_elementType _ _) fun _ =>
    .bind (.liftM _) fun _ => .bind (.liftM _) fun _ => .bind (.liftM _) fun _ =>
    .bind .nextAddress fun base =>
    .bind (edits_fillElements (fun index => .inr ⟨index, rfl⟩) _ _ _ _) fun _ =>
    .bind (edits_declareListHeader (.inl rfl) base _ _ _) fun _ => .pure _

theorem edits_declareList (name : String) (element : Option Scalar) (len : Option Nat)
    (value : Option Expr) :
    Follows (Edits (BoundBy name)) (declareList line name element len value) := by
  refine .bind (.ensureUndeclared name line) fun _ => ?_
  split
  · exact edits_declareCopy name element len _
  · exact edits_declareItems name element len _

theorem edits_declareCell (type : ValueType) (name : String) (value : Expr) :
    Follows (Edits (BoundBy name)) (declareCell line type name value) := by
  refine .bind (.ensureUndeclared name line) fun _ => .bind (.env line) fun _ =>
    .bind (.liftM _) fun loaded => ?_
  intro s code s' h
  obtain ⟨address, t, hallocate, h⟩ := bind_eq_ok_iff.mp h
  obtain ⟨_, u, hdeclare, h⟩ := bind_eq_ok_iff.mp h
  obtain ⟨hroom, rfl, rfl⟩ := allocate_eq_ok_iff.mp hallocate
  obtain ⟨-, rfl⟩ := declare_eq_ok_iff.mp hdeclare
  obtain ⟨-, rfl⟩ := pure_eq_ok_iff.mp h
  exact .of_step (.bindCell type loaded.value (.inl rfl) hroom)

theorem edits_declareVariable (type : ValueType) (name : String) (value : Expr) :
    Follows (Edits (BoundBy name)) (declareVariable line type name value) := by
  unfold declareVariable
  split
  · exact edits_declareList name _ _ _
  · split
    · exact edits_declareList name _ _ _
    · exact edits_declareCell _ name _
  · exact edits_declareCell _ name _

theorem edits_assign (name : String) (value : Expr) :
    Follows (Edits names) (assign line name value) := by
  refine .bind (.lookup name line) fun v => .bind (.env line) fun env => ?_
  split
  · exact .bind (.liftM _) fun _ => .pure _
  · exact .bind (.liftM _) fun _ => .bind (edits_setValue name _) fun _ => .pure _

theorem edits_assignAt (name : String) (index value : Expr) :
    Follows (Edits names) (assignAt line name index value) := by
  refine .bind (.lookup name line) fun v => .bind (.env line) fun env => ?_
  split
  · split
    · exact .bind (.liftM _) fun _ => .bind (.liftM _) fun _ =>
        .bind (edits_setValue _ _) fun _ => .pure _
    · exact .liftM _
  · exact .fail _ _

theorem edits_directive (region : Region) (address : UInt32) :
    Follows (Edits names) (directive line region address) := by
  refine .bind .get fun s => ?_
  split
  · exact edits_moveCursor region address
  · exact .fail _ _

/-- Handing out the cells of a parameter and binding its name to them. -/
theorem edits_reserveParam {name : String} {type : ValueType} {s t : Scope} {u : Unit}
    (hnames : ∀ other, BoundBy name other → names other)
    (h : reserveParam line name type s = .ok u t) :
    Edits names s { t with
      symbols := t.symbols.insertVariable name ⟨s.symbols.nextAddress, type, .zeroed⟩ } := by
  cases type with
  | list element len =>
    have helements := edits_reserveElements (fun index => hnames _ (.inr ⟨index, rfl⟩)) _ _ _ h
    exact .trans helements (.of_step (.bindList _ element len .zeroed (hnames _ (.inl rfl))))
  | scalar ty =>
    obtain ⟨address, hallocate, -⟩ := map_eq_ok_iff.mp h
    obtain ⟨hroom, -, rfl⟩ := allocate_eq_ok_iff.mp hallocate
    exact .of_step (.bindCell (.scalar ty) .zeroed (hnames _ (.inl rfl)) hroom)
  | pointer target =>
    obtain ⟨address, hallocate, -⟩ := map_eq_ok_iff.mp h
    obtain ⟨hroom, -, rfl⟩ := allocate_eq_ok_iff.mp hallocate
    exact .of_step (.bindCell (.pointer target) .zeroed (hnames _ (.inl rfl)) hroom)

/-- **Declaring parameters** takes them one by one: each starts where the cursor
stands, gets its cells, and is bound. -/
theorem declareParams_cons_eq_ok_iff {p : Formal} {rest : List Formal} {params : List Param}
    {s s' : Scope} :
    declareParams line (p :: rest) s = .ok params s' ↔
      ∃ t more, reserveParam line p.name p.type s = .ok () t ∧
        declareParams line rest { t with
          symbols := t.symbols.insertVariable p.name ⟨s.symbols.nextAddress, p.type, .zeroed⟩ }
            = .ok more s' ∧
        params = ⟨p.name, s.symbols.nextAddress, p.type⟩ :: more := by
  rw [declareParams]
  simp only [bind_eq_ok_iff, nextAddress_eq_ok_iff, bindVariable_eq_ok_iff, pure_eq_ok_iff]
  constructor
  · rintro ⟨_, _, ⟨rfl, rfl⟩, _, t, hreserve, _, _, rfl, more, _, hrest, rfl, rfl⟩
    exact ⟨t, more, hreserve, hrest, rfl⟩
  · rintro ⟨t, more, hreserve, hrest, rfl⟩
    exact ⟨_, s, ⟨rfl, rfl⟩, (), t, hreserve, (), _, rfl, more, s', hrest, rfl, rfl⟩

/-- Parameters have the names that they are declared with. -/
theorem names_of_declareParams {formals : List Formal} {params : List Param} {s s' : Scope}
    (h : declareParams line formals s = .ok params s') :
    params.map (·.name) = formals.map (·.name) := by
  induction formals generalizing s params with
  | nil =>
    obtain ⟨rfl, -⟩ := pure_eq_ok_iff.mp h
    rfl
  | cons p rest ih =>
    obtain ⟨t, more, -, hrest, rfl⟩ := declareParams_cons_eq_ok_iff.mp h
    exact congrArg (p.name :: ·) (ih hrest)

theorem edits_declareParams {formals : List Formal}
    (hnames : ∀ p ∈ formals, ∀ other, BoundBy p.name other → names other) :
    Follows (Edits names) (declareParams line formals) := by
  induction formals with
  | nil => exact .pure []
  | cons p rest ih =>
    rw [List.forall_mem_cons] at hnames
    intro s params s' h
    obtain ⟨t, more, hreserve, hrest, -⟩ := declareParams_cons_eq_ok_iff.mp h
    exact .trans (edits_reserveParam hnames.1 hreserve) (ih hnames.2 hrest)

end CompileM

/-- Whether a statement has no block. -/
def Stmt.isSimple : Stmt → Bool
  | branch .. | loop .. | unroll .. | function .. | space .. | unit .. => false
  | _ => true

/-- **Induction on statements**: one case for all simple statements, and one for
each kind of block. -/
@[elab_as_elim]
theorem Stmt.blockInduction {P : Stmt → Prop}
    (simple : ∀ stmt : Stmt, stmt.isSimple = true → P stmt)
    (branch : ∀ line cond thenBody elseBody, (∀ stmt ∈ thenBody, P stmt) →
      (∀ stmt ∈ elseBody, P stmt) → P (.branch line cond thenBody elseBody))
    (loop : ∀ line cond body, (∀ stmt ∈ body, P stmt) → P (.loop line cond body))
    (unroll : ∀ line var iterable body, (∀ stmt ∈ body, P stmt) →
      P (.unroll line var iterable body))
    (function : ∀ line name formals body, (∀ stmt ∈ body, P stmt) →
      P (.function line name formals body))
    (space : ∀ line name body, (∀ stmt ∈ body, P stmt) → P (.space line name body))
    (unit : ∀ line path body, (∀ stmt ∈ body, P stmt) → P (.unit line path body))
    (stmt : Stmt) : P stmt :=
  @Stmt.rec P (fun stmts => ∀ stmt ∈ stmts, P stmt)
    -- one case for every constructor, in the order of their declaration
    (fun _ _ _ _ => simple _ rfl) (fun _ _ _ _ _ => simple _ rfl)
    (fun _ _ _ => simple _ rfl) (fun _ _ _ _ => simple _ rfl)
    branch loop unroll function
    (fun _ _ _ _ => simple _ rfl) space (fun _ _ => simple _ rfl) unit
    (fun _ _ _ _ => simple _ rfl) (fun _ _ _ => simple _ rfl)
    nofun (fun _ _ hstmt hrest => List.forall_mem_cons.mpr ⟨hstmt, hrest⟩) stmt

/-- The names that a simple statement may bind. -/
def Stmt.Binds : Stmt → String → Prop
  | declare _ _ name _ | declareList _ name _ _ _ => CompileM.BoundBy name
  | _ => fun _ => False

/-- **A simple statement edits its scope**, and binds no names but its own. -/
theorem Stmt.edits_of_isSimple {stmt : Stmt} (h : stmt.isSimple = true) :
    CompileM.Follows (Scope.Edits stmt.Binds) stmt.compile := by
  cases stmt with
  | declare line type name value => exact CompileM.edits_declareVariable type name value
  | declareList line name element len value =>
    exact CompileM.edits_declareList name element len value
  | assign line name value => exact CompileM.edits_assign name value
  | assignAt line name index value => exact CompileM.edits_assignAt name index value
  | call line space name args => exact .bind .get fun _ => .liftM _
  | embed line code => exact .bind (.env line) fun _ => .liftM _
  | poke line address type value => exact .bind (.env line) fun _ => .liftM _
  | directive line region address =>
    exact .bind (CompileM.edits_directive region address) fun _ => .pure _
  | branch | loop | unroll | function | space | unit => exact nomatch h

/-! ## Folding a child back -/

/-- **Symbols import from others**: their variables and cursors stay, and the
functions and namespaces that are new are bound in the others by the same
name. -/
structure Symbols.Imports (source target result : Symbols Function Namespace) : Prop where
  vars : result.vars = target.vars
  nextAddress : result.nextAddress = target.nextAddress
  nextDataAddress : result.nextDataAddress = target.nextDataAddress
  functions : ∀ name f, result.functions.get? name = some f →
    target.functions.get? name = some f ∨ source.functions.get? name = some f
  namespaces : ∀ name n, result.namespaces.get? name = some n →
    target.namespaces.get? name = some n ∨ source.namespaces.get? name = some n

namespace Symbols.Imports

variable {source target result : Symbols Function Namespace}

protected theorem refl (source target : Symbols Function Namespace) :
    Imports source target target :=
  ⟨rfl, rfl, rfl, fun _ _ => .inl, fun _ _ => .inl⟩

theorem insertFunction (h : Imports source target result) {name : String} {f : Function}
    (hf : source.functions.get? name = some f) :
    Imports source target (result.insertFunction name f) := by
  refine ⟨h.vars, h.nextAddress, h.nextDataAddress, fun other g hg => ?_, h.namespaces⟩
  unfold Symbols.insertFunction at hg
  by_cases hname : other = name
  · subst hname
    rw [Table.get?_insert_self] at hg
    exact .inr (hf.trans hg)
  · rw [Table.get?_insert_of_ne _ hname] at hg
    exact h.functions other g hg

theorem insertNamespace (h : Imports source target result) {name : String} {n : Namespace}
    (hn : source.namespaces.get? name = some n) :
    Imports source target (result.insertNamespace name n) := by
  refine ⟨h.vars, h.nextAddress, h.nextDataAddress, h.functions, fun other m hm => ?_⟩
  unfold Symbols.insertNamespace at hm
  by_cases hname : other = name
  · subst hname
    rw [Table.get?_insert_self] at hm
    exact .inr (hn.trans hm)
  · rw [Table.get?_insert_of_ne _ hname] at hm
    exact h.namespaces other m hm

/-- Copying exports imports them. -/
theorem foldl_copyExport {child : Scope} (h : Imports child.symbols target result)
    (exports : List Export) :
    Imports child.symbols target (exports.foldl child.copyExport result) := by
  induction exports generalizing result with
  | nil => exact h
  | cons entry rest ih =>
    refine ih ?_
    unfold Scope.copyExport
    split
    · split
      next f hf => exact h.insertFunction hf
      next => exact h
    · split
      next n hn => exact h.insertNamespace hn
      next => exact h

end Symbols.Imports

/-- **A child that does not share the tables is folded back by importing** from
it, once the cursors are taken over. -/
theorem Scope.imports_syncSymbols {s child : Scope} (h : child.link ≠ .shared) :
    Symbols.Imports child.symbols (s.symbols.adoptCursors child.symbols)
      (s.syncSymbols child) := by
  unfold Scope.syncSymbols
  split
  · exact .refl _ _
  next hlink => exact absurd hlink h
  all_goals exact (Symbols.Imports.refl _ _).foldl_copyExport _

/-- The cursor always comes back from a child. -/
theorem Scope.nextAddress_sync (s child : Scope) :
    (s.sync child).symbols.nextAddress = child.symbols.nextAddress := by
  by_cases hlink : child.link = .shared
  · show (s.syncSymbols child).nextAddress = _
    unfold Scope.syncSymbols
    rw [hlink]
  · exact (Scope.imports_syncSymbols hlink).nextAddress

theorem Scope.imports_exportedSymbols (s : Scope) :
    Symbols.Imports s.symbols
      (.startingAt s.symbols.nextAddress s.symbols.nextDataAddress) s.exportedSymbols :=
  (Symbols.Imports.refl _ _).foldl_copyExport _

/-! ## Statements with blocks -/

/-- The scope when a label index has been taken. -/
def Scope.nextLabel (s : Scope) : Scope := { s with labels := s.labels + 1 }

/-- The scope that the copies of an unrolled loop start from: its variable has a
fresh cell. -/
def Scope.forkIndexed (s : Scope) (var : String) : Scope :=
  { s.forkUnrolled with
    symbols := { s.symbols with
      nextAddress := addressAfter s.symbols.nextAddress Scalar.int.size }.insertVariable
        var ⟨s.symbols.nextAddress, .scalar .int, .zeroed⟩ }

namespace CompileM

variable {line : Nat} {s s' : Scope} {code : Fragment}

/-- **A branch** takes a label index, compiles its condition, and then one block
after the other. -/
theorem branch_eq_ok_iff {cond : Condition} {x y : CompileM Unit} :
    branch line cond x y s = .ok code s' ↔
      ∃ test first second, (s.env line).condition cond = .ok test
        ∧ x (s.nextLabel.fork .copy) = .ok () first
        ∧ y ((s.nextLabel.sync first).fork .copy) = .ok () second
        ∧ code = .comment cond.comment
            :: .ldr .branch (.label (BranchLabels.ofIndex s.labels).ifEnd) :: test
            ++ first.body
            ++ [.ldr .skip (.label (BranchLabels.ofIndex s.labels).elseEnd), .jpr .skip,
              .label (BranchLabels.ofIndex s.labels).ifEnd]
            ++ second.body
            ++ [.label (BranchLabels.ofIndex s.labels).elseEnd]
        ∧ s' = (s.nextLabel.sync first).sync second := by
  unfold branch
  simp only [bind_eq_ok_iff, newLabel_eq_ok_iff, env_eq_ok_iff, liftM_eq_ok_iff, block_eq_ok_iff,
    pure_eq_ok_iff]
  constructor
  · rintro ⟨_, _, ⟨rfl, rfl⟩, _, _, ⟨rfl, rfl⟩, test, _, ⟨htest, rfl⟩, _, _,
      ⟨first, hfirst, rfl, rfl⟩, _, _, ⟨second, hsecond, rfl, rfl⟩, rfl, rfl⟩
    exact ⟨test, first, second, htest, hfirst, hsecond, rfl, rfl⟩
  · rintro ⟨test, first, second, htest, hfirst, hsecond, rfl, rfl⟩
    exact ⟨_, _, ⟨rfl, rfl⟩, _, _, ⟨rfl, rfl⟩, test, _, ⟨htest, rfl⟩, _, _,
      ⟨first, hfirst, rfl, rfl⟩, _, _, ⟨second, hsecond, rfl, rfl⟩, rfl, rfl⟩

/-- **A loop** takes a label index, compiles its condition, and then its
block. -/
theorem loop_eq_ok_iff {cond : Condition} {x : CompileM Unit} :
    loop line cond x s = .ok code s' ↔
      ∃ test child, (s.env line).condition cond = .ok test
        ∧ x (s.nextLabel.fork .copy) = .ok () child
        ∧ code = .label (LoopLabels.ofIndex s.labels).start
            :: .ldr .branch (.label (LoopLabels.ofIndex s.labels).stop) :: test
            ++ child.body
            ++ [.ldr .skip (.label (LoopLabels.ofIndex s.labels).start), .jpr .skip,
              .label (LoopLabels.ofIndex s.labels).stop]
        ∧ s' = s.nextLabel.sync child := by
  unfold loop
  simp only [bind_eq_ok_iff, newLabel_eq_ok_iff, env_eq_ok_iff, liftM_eq_ok_iff, block_eq_ok_iff,
    pure_eq_ok_iff]
  constructor
  · rintro ⟨_, _, ⟨rfl, rfl⟩, _, _, ⟨rfl, rfl⟩, test, _, ⟨htest, rfl⟩, _, _,
      ⟨child, hchild, rfl, rfl⟩, rfl, rfl⟩
    exact ⟨test, child, htest, hchild, rfl, rfl⟩
  · rintro ⟨test, child, htest, hchild, rfl, rfl⟩
    exact ⟨_, _, ⟨rfl, rfl⟩, _, _, ⟨rfl, rfl⟩, test, _, ⟨htest, rfl⟩, _, _,
      ⟨child, hchild, rfl, rfl⟩, rfl, rfl⟩

/-- **An unrolled loop** gives its variable a cell and compiles its copies, in
one child for all of them. -/
theorem unroll_eq_ok_iff {var iterable : String} {x : CompileM Unit} :
    unroll line var iterable x s = .ok code s' ↔
      ∃ v element len child, s.symbols.vars.get? iterable = some v ∧ v.type = .list element len
        ∧ s.symbols.nextAddress.toNat + Scalar.int.size < UInt32.size
        ∧ copies line var s.symbols.nextAddress x len 0 (s.forkIndexed var) = .ok () child
        ∧ code = child.body ∧ s' = s.sync child := by
  -- the cell of the variable is handed out in the child, from where the cursor stands outside
  have hcopies : ∀ len child,
      (do
        let address ← allocate Scalar.int.size line
        bindVariable var ⟨address, .scalar .int, .zeroed⟩
        copies line var address x len 0 : CompileM Unit) s.forkUnrolled = .ok () child ↔
      s.symbols.nextAddress.toNat + Scalar.int.size < UInt32.size
        ∧ copies line var s.symbols.nextAddress x len 0 (s.forkIndexed var) = .ok () child := by
    intro len child
    simp only [bind_eq_ok_iff, allocate_eq_ok_iff, bindVariable_eq_ok_iff]
    constructor
    · rintro ⟨_, _, ⟨hroom, rfl, rfl⟩, _, _, rfl, h⟩
      exact ⟨hroom, h⟩
    · rintro ⟨hroom, h⟩
      exact ⟨_, _, ⟨hroom, rfl, rfl⟩, (), _, rfl, h⟩
  unfold unroll
  rw [bind_eq_ok_iff]
  constructor
  · rintro ⟨v, _, hlookup, h⟩
    obtain ⟨hv, rfl⟩ := lookup_eq_ok_iff.mp hlookup
    cases htype : v.type with
    | list element len =>
      rw [htype] at h
      obtain ⟨child, hchild, rfl, rfl⟩ := unrolled_eq_ok_iff.mp h
      obtain ⟨hroom, hrun⟩ := (hcopies len child).mp hchild
      exact ⟨v, element, len, child, hv, htype, hroom, hrun, rfl, rfl⟩
    | scalar ty =>
      rw [htype] at h
      exact (fail_eq_ok_iff.mp h).elim
    | pointer target =>
      rw [htype] at h
      exact (fail_eq_ok_iff.mp h).elim
  · rintro ⟨v, element, len, child, hv, htype, hroom, hrun, rfl, rfl⟩
    refine ⟨v, s, lookup_eq_ok_iff.mpr ⟨hv, rfl⟩, ?_⟩
    rw [htype]
    exact unrolled_eq_ok_iff.mpr ⟨child, (hcopies len child).mpr ⟨hroom, hrun⟩, rfl, rfl⟩

/-- What follows a relation as a block does so in all its copies, if setting the
variable does. -/
theorem follows_copies {R : Scope → Scope → Prop} [Std.Refl R] [Trans R R R] {x : CompileM Unit}
    {var : String} {address : UInt32} (hx : Follows R x)
    (hemit : ∀ index, Follows R (emit .body (Fragment.setIndex var address index)))
    (hset : ∀ value, Follows R (setValue var value line)) (count index : Nat) :
    Follows R (copies line var address x count index) := by
  induction count generalizing index with
  | zero => exact .pure ()
  | succ count ih =>
    exact .bind (hemit index) fun _ => .bind (hset _) fun _ => .bind hx fun _ => ih (index + 1)

/-- The code of a function around that of its body. -/
def functionCode (label : String) (slot : UInt32) (inner : Fragment) : Fragment :=
  .label label :: .comment ("return slot " ++ Text.hexAddress slot)
    :: .mov .value .ret :: Fragment.storeTo slot .word
    ++ inner
    ++ Fragment.loadFrom slot .word ++ [.jpr .value]

/-- **A function** claims its label. Its child gets the parameters, then the
function itself without its cell, then the body, and at last the cell of the
return address. -/
theorem function_eq_ok_iff {name : String} {formals : List Formal} {x : CompileM Unit} :
    function line name formals x s = .ok code s' ↔
      ∃ params slot start inner child,
        s.qualify name ∉ s.functionLabels
        ∧ declareParams line formals
            ({ s with functionLabels := s.functionLabels ++ [s.qualify name] }.fork .copy)
              = .ok params start
        ∧ x { start with
            symbols := start.symbols.insertFunction name (.stub name (s.qualify name) params)
            exports := start.exports ++ [.function name] } = .ok () inner
        ∧ allocate 4 line inner = .ok slot child
        ∧ code = functionCode (s.qualify name) slot child.body
        ∧ declareFunction
            { name := name
              label := s.qualify name
              params := params
              returnSlot := slot
              symbols := child.symbols.record
              text := Fragment.render code s.config.comments }
            ({ s with functionLabels := s.functionLabels ++ [s.qualify name] }.sync child)
              = .ok () s' := by
  unfold function
  simp only [bind_eq_ok_iff, get_eq_ok_iff, claimLabel_eq_ok_iff, sync_eq_ok_iff,
    pure_eq_ok_iff]
  constructor
  · rintro ⟨_, _, ⟨rfl, rfl⟩, _, _, ⟨hfresh, rfl⟩, ⟨⟨params, slot⟩, child⟩, _, hchild, _, _,
      ⟨rfl, rfl⟩, _, _, ⟨rfl, rfl⟩, _, _, hdeclare, rfl, rfl⟩
    obtain ⟨hrun, rfl⟩ := inChild_eq_ok_iff.mp hchild
    -- the child's run: parameters, the function without its cell, the body, the return cell
    simp only [bind_eq_ok_iff, declareFunction_eq_ok_iff, pure_eq_ok_iff] at hrun
    obtain ⟨_, start, hparams, _, _, rfl, _, inner, hx, _, _, hslot, ⟨⟩, rfl⟩ := hrun
    exact ⟨params, slot, start, inner, _, hfresh, hparams, hx, hslot, rfl, hdeclare⟩
  · rintro ⟨params, slot, start, inner, child, hfresh, hparams, hx, hslot, rfl, hdeclare⟩
    refine ⟨_, _, ⟨rfl, rfl⟩, (), _, ⟨hfresh, rfl⟩, ⟨⟨params, slot⟩, child⟩, _,
      inChild_eq_ok_iff.mpr ⟨?_, rfl⟩, _, _, ⟨rfl, rfl⟩, _, _, ⟨rfl, rfl⟩, _, _,
      hdeclare, rfl, rfl⟩
    exact bind_eq_ok_iff.mpr ⟨params, start, hparams, bind_eq_ok_iff.mpr ⟨(), _,
      declareFunction_eq_ok_iff.mpr rfl, bind_eq_ok_iff.mpr ⟨(), inner, hx,
        bind_eq_ok_iff.mpr ⟨slot, child, hslot, pure_eq_ok_iff.mpr ⟨rfl, rfl⟩⟩⟩⟩⟩

/-- **A namespace** compiles its block inside itself, and is then bound to what
the block declared. -/
theorem space_eq_ok_iff {name : String} {x : CompileM Unit} :
    space name x s = .ok code s' ↔
      ∃ child, x ((s.fork .passThrough).enter name) = .ok () child ∧ code = child.body
        ∧ declareNamespace ⟨name, child.exportedSymbols.forgetNamespaces⟩ (s.sync child)
          = .ok () s' := by
  unfold space
  simp only [bind_eq_ok_iff, sync_eq_ok_iff, pure_eq_ok_iff]
  constructor
  · rintro ⟨⟨_, child⟩, _, hchild, _, _, ⟨rfl, rfl⟩, _, _, hdeclare, rfl, rfl⟩
    obtain ⟨hrun, rfl⟩ := inChild_eq_ok_iff.mp hchild
    exact ⟨child, hrun, rfl, hdeclare⟩
  · rintro ⟨child, hchild, rfl, hdeclare⟩
    exact ⟨⟨(), child⟩, _, inChild_eq_ok_iff.mpr ⟨hchild, rfl⟩, _, _, ⟨rfl, rfl⟩, _, _, hdeclare,
      rfl, rfl⟩

/-- **An included unit** compiles its block apart from everything around it. -/
theorem unit_eq_ok_iff {path : String} {x : CompileM Unit} :
    unit path x s = .ok code s' ↔
      ∃ child, x (s.fork .isolated) = .ok () child
        ∧ code = .comment ("include " ++ path) :: child.body ∧ s' = s.sync child := by
  unfold unit
  simp only [bind_eq_ok_iff, block_eq_ok_iff, pure_eq_ok_iff]
  constructor
  · rintro ⟨_, _, ⟨child, hchild, rfl, rfl⟩, rfl, rfl⟩
    exact ⟨child, hchild, rfl, rfl⟩
  · rintro ⟨child, hchild, rfl, rfl⟩
    exact ⟨_, _, ⟨child, hchild, rfl, rfl⟩, rfl, rfl⟩

end CompileM

/-! ## Lists of statements -/

/-- **Statements are compiled one after the other**, each into the stream of its
kind. -/
theorem compileAll_cons_eq_ok_iff {stmt : Stmt} {rest : List Stmt} {s s' : Scope} {u : Unit} :
    compileAll (stmt :: rest) s = .ok u s' ↔
      ∃ code t, stmt.compile s = .ok code t
        ∧ compileAll rest (t.emit stmt.kind.stream code) = .ok u s' := by
  rw [compileAll]
  simp only [CompileM.bind_eq_ok_iff, CompileM.emit_eq_ok_iff]
  constructor
  · rintro ⟨code, t, hcode, _, _, rfl, hrest⟩
    exact ⟨code, t, hcode, hrest⟩
  · rintro ⟨code, t, hcode, hrest⟩
    exact ⟨code, t, hcode, (), _, rfl, hrest⟩

/-- A directive is the only statement whose code goes nowhere, and it has
none. -/
theorem Stmt.code_of_silent {stmt : Stmt} {s s' : Scope} {code : Fragment}
    (hsilent : stmt.kind.stream = .silent) (h : stmt.compile s = .ok code s') : code = [] := by
  cases stmt with
  | directive line region address =>
    obtain ⟨_, _, -, h⟩ := CompileM.bind_eq_ok_iff.mp h
    exact (CompileM.pure_eq_ok_iff.mp h).1.symm
  | _ => exact nomatch hsilent

/-- **A relation that statements follow is followed by lists of them**, if
emitting follows it. -/
theorem follows_compileAll {R : Scope → Scope → Prop} [Std.Refl R] [Trans R R R]
    (hemit : ∀ stream code, CompileM.Follows R (CompileM.emit stream code)) {stmts : List Stmt}
    (hstmts : ∀ stmt ∈ stmts, CompileM.Follows R stmt.compile) :
    CompileM.Follows R (compileAll stmts) := by
  induction stmts with
  | nil => exact .pure ()
  | cons stmt rest ih =>
    rw [List.forall_mem_cons] at hstmts
    exact .bind hstmts.1 fun code => .bind (hemit _ code) fun _ => ih hstmts.2

/-- **A scope stays in its place**: what it is, rather than what it holds, is
the same. -/
structure Scope.Stays (s s' : Scope) : Prop where
  mode : s'.mode = s.mode
  link : s'.link = s.link
  path : s'.path = s.path
  config : s'.config = s.config

namespace Scope.Stays

instance : Std.Refl Scope.Stays := ⟨fun _ => ⟨rfl, rfl, rfl, rfl⟩⟩

instance : Trans Scope.Stays Scope.Stays Scope.Stays :=
  ⟨fun hst htu => ⟨htu.mode.trans hst.mode, htu.link.trans hst.link, htu.path.trans hst.path,
    htu.config.trans hst.config⟩⟩

theorem of_edits {names : String → Prop} {s s' : Scope} (h : s.Edits names s') : s.Stays s' := by
  rw [h.rest]
  exact ⟨rfl, rfl, rfl, rfl⟩

end Scope.Stays

theorem CompileM.stays_emit (stream : Stream) (code : Fragment) :
    Follows Scope.Stays (emit stream code) := by
  intro s u s' h
  rw [← emit_eq_ok_iff.mp h]
  cases stream <;> exact ⟨rfl, rfl, rfl, rfl⟩

theorem CompileM.stays_setValue (name : String) (value : Stored) (line : Nat) :
    Follows Scope.Stays (setValue name value line) := by
  intro s u s' h
  obtain ⟨v, -, rfl⟩ := setValue_eq_ok_iff.mp h
  exact ⟨rfl, rfl, rfl, rfl⟩

/-- **Every statement leaves its scope in place.** Blocks are compiled in
children, and folding one back takes over only what it holds. -/
theorem Stmt.stays (stmt : Stmt) : CompileM.Follows Scope.Stays stmt.compile := by
  intro s code s' h
  cases stmt using Stmt.blockInduction with
  | simple stmt hsimple => exact .of_edits (stmt.edits_of_isSimple hsimple h)
  | branch line cond thenBody elseBody =>
    obtain ⟨_, _, _, _, _, _, _, rfl⟩ := CompileM.branch_eq_ok_iff.mp h
    exact ⟨rfl, rfl, rfl, rfl⟩
  | loop line cond body =>
    obtain ⟨_, _, _, _, _, rfl⟩ := CompileM.loop_eq_ok_iff.mp h
    exact ⟨rfl, rfl, rfl, rfl⟩
  | unroll line var iterable body =>
    obtain ⟨_, _, _, _, _, _, _, _, _, rfl⟩ := CompileM.unroll_eq_ok_iff.mp h
    exact ⟨rfl, rfl, rfl, rfl⟩
  | function line name formals body =>
    obtain ⟨_, _, _, _, _, _, _, _, _, _, h⟩ := CompileM.function_eq_ok_iff.mp h
    obtain rfl := CompileM.declareFunction_eq_ok_iff.mp h
    exact ⟨rfl, rfl, rfl, rfl⟩
  | space line name body =>
    obtain ⟨_, _, _, h⟩ := CompileM.space_eq_ok_iff.mp h
    obtain rfl := CompileM.declareNamespace_eq_ok_iff.mp h
    exact ⟨rfl, rfl, rfl, rfl⟩
  | unit line path body =>
    obtain ⟨_, _, _, rfl⟩ := CompileM.unit_eq_ok_iff.mp h
    exact ⟨rfl, rfl, rfl, rfl⟩

theorem compileAll_stays (stmts : List Stmt) :
    CompileM.Follows Scope.Stays (compileAll stmts) :=
  follows_compileAll CompileM.stays_emit fun stmt _ => stmt.stays

end RegMachine

