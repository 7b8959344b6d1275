import RegMachine.Proofs.Lists

/-!
# Lists are laid out as their headers say

Code is generated from the header of a list alone. The address of an element is
counted from that of the list, in 32 bits, and an element that is assigned to is
looked up by its name. `Program.lists_laid_out` says that this is right in every
program whose names have no brackets: wherever a statement is compiled, the lists in
sight are laid out (`Table.LaidOut`), so no element is counted past the end of the
address space, and each is found.

A block hands the tables on in one of four ways, and with them the functions that
calls can mean. A function counts as laid out by the table that it records and by
its parameters, which callers copy lists to. Inside its own body it has parameters
and no record yet: it is *pending* there (`Symbols.LaidOut`), and no function is
pending once its definition has been compiled.
-/

namespace RegMachine

variable {pending : Function → Prop}

/-! ## Blocks -/

/-- **The statements that declare names without a bracket**, as far as a statement goes
itself. -/
def Stmt.NamesUnbracketed : Stmt → Prop
  | declare _ _ name _ | declareList _ name _ _ _ => Unbracketed name
  | unroll _ var _ _ => Unbracketed var
  | function _ _ formals _ => ∀ p ∈ formals, Unbracketed p.name
  | _ => True

/-- **Statements are entered in symbols that are laid out**, and left in such. -/
def EntersLaidOut (events : List Event) : Prop :=
  ∀ stmt s, .enter stmt s ∈ events → (∃ pending, s.symbols.LaidOut pending)
    ∧ ∀ code s', stmt.compile s = .ok code s' → ∃ pending, s'.symbols.LaidOut pending

namespace EntersLaidOut

variable {events more : List Event} {s s' : Scope} {code : Fragment}

protected theorem nil : EntersLaidOut [] := fun _ _ h => nomatch h

protected theorem append (h : EntersLaidOut events) (hmore : EntersLaidOut more) :
    EntersLaidOut (events ++ more) :=
  fun stmt s hmem => (List.mem_append.mp hmem).elim (h stmt s) (hmore stmt s)

/-- A statement joins its blocks. -/
theorem around {stmt : Stmt} (h : EntersLaidOut events) (hcode : stmt.compile s = .ok code s')
    (hs : s.symbols.LaidOut pending) (hs' : s'.symbols.LaidOut pending)
    (hinner : EntersLaidOut (stmt.blockEvents (fun _ => true) s)) :
    EntersLaidOut (events ++ stmt.events (fun _ => true) s code s') := by
  refine h.append fun other t hmem => ?_
  rw [Stmt.events, if_pos rfl, List.mem_cons, List.mem_append, List.mem_singleton] at hmem
  rcases hmem with hself | hinside | hleave
  · cases hself
    refine ⟨⟨pending, hs⟩, fun code' t' hcode' => ?_⟩
    cases hcode.symm.trans hcode'
    exact ⟨pending, hs'⟩
  · exact hinner other t hinside
  · cases hleave

end EntersLaidOut

/-- A statement keeps symbols laid out, and so do the statements inside it. -/
def Stmt.Lays (stmt : Stmt) : Prop :=
  ∀ pending events s code s', EntersLaidOut events → s.symbols.LaidOut pending →
    stmt.compile s = .ok code s' →
    EntersLaidOut (events ++ stmt.events (fun _ => true) s code s') ∧ s'.symbols.LaidOut pending

theorem Scope.symbols_emit (s : Scope) (stream : Stream) (code : Fragment) :
    (s.emit stream code).symbols = s.symbols := by
  cases stream <;> rfl

theorem laidOut_of_compileAll {stmts : List Stmt} (hstmts : ∀ stmt ∈ stmts, stmt.Lays)
    {events : List Event} {s s' : Scope} (hevents : EntersLaidOut events)
    (hs : s.symbols.LaidOut pending) (h : compileAll stmts s = .ok () s') :
    EntersLaidOut (events ++ eventsAll (fun _ => true) stmts s) ∧ s'.symbols.LaidOut pending := by
  refine invariant_of_eventsAll (fun _ => true)
    (I := fun events s _ => EntersLaidOut events ∧ s.symbols.LaidOut pending) ?_ ?_ events
    ⟨hevents, hs⟩ h
  · exact fun stmt hstmt events s code s' hI =>
      hstmts stmt hstmt pending events s code s' hI.1 hI.2
  · intro events s stream code _ hI
    rw [Scope.symbols_emit]
    exact hI

theorem laidOut_of_block {stmts : List Stmt} (hstmts : ∀ stmt ∈ stmts, stmt.Lays) {s s' : Scope}
    (hs : s.symbols.LaidOut pending) (h : compileAll stmts s = .ok () s') :
    EntersLaidOut (eventsAll (fun _ => true) stmts s) ∧ s'.symbols.LaidOut pending :=
  laidOut_of_compileAll hstmts .nil hs h

namespace Symbols.LaidOut

variable {s child : Scope}

theorem fork (h : s.symbols.LaidOut pending) (link : Link) :
    (s.fork link).symbols.LaidOut pending := by
  cases link with
  | isolated => exact .startingAt _ _
  | copy | shared | passThrough => exact h

/-- A copy hands back its cursors. -/
theorem sync_copy (h : s.symbols.LaidOut pending) (hlink : child.link = .copy)
    (hle : s.symbols.nextAddress ≤ child.symbols.nextAddress) :
    (s.sync child).symbols.LaidOut pending := by
  show (s.syncSymbols child).LaidOut pending
  unfold Scope.syncSymbols
  rw [hlink]
  exact h.revars (h.vars.mono hle) hle rfl rfl

/-- A namespace or a unit also hands back functions. -/
theorem sync_merge (h : s.symbols.LaidOut pending) (hchild : child.symbols.LaidOut pending)
    (hlink : child.link ≠ .shared) (hle : s.symbols.nextAddress ≤ child.symbols.nextAddress) :
    (s.sync child).symbols.LaidOut pending := by
  have hadopt : (s.symbols.adoptCursors child.symbols).LaidOut pending :=
    h.revars (h.vars.mono hle) hle rfl rfl
  exact .of_imports (Scope.imports_syncSymbols hlink) hadopt hchild (UInt32.le_refl _)

theorem sync_shared (hchild : child.symbols.LaidOut pending) (hlink : child.link = .shared) :
    (s.sync child).symbols.LaidOut pending := by
  show (s.syncSymbols child).LaidOut pending
  unfold Scope.syncSymbols
  rw [hlink]
  exact hchild

end Symbols.LaidOut

section Blocks

variable {line : Nat} {body : List Stmt}

theorem Stmt.lays_branch {cond : Condition} {thenBody elseBody : List Stmt}
    (ih₁ : ∀ stmt ∈ thenBody, stmt.Lays) (ih₂ : ∀ stmt ∈ elseBody, stmt.Lays) :
    (Stmt.branch line cond thenBody elseBody).Lays := by
  intro pending events s code s' hevents hs h
  obtain ⟨test, first, second, -, hfirst, hsecond, -, rfl⟩ := CompileM.branch_eq_ok_iff.mp h
  have hstart : s.nextLabel.symbols.LaidOut pending := hs
  obtain ⟨hinner₁, -⟩ := laidOut_of_block ih₁ (hstart.fork .copy) hfirst
  have hmid := hstart.sync_copy (compileAll_stays thenBody hfirst).link
    (compileAll_grows 0 thenBody hfirst).le
  obtain ⟨hinner₂, -⟩ := laidOut_of_block ih₂ (hmid.fork .copy) hsecond
  have hend := hmid.sync_copy (compileAll_stays elseBody hsecond).link
    (compileAll_grows 0 elseBody hsecond).le
  refine ⟨hevents.around h hs hend ?_, hend⟩
  rw [Stmt.blockEvents_branch hfirst]
  exact hinner₁.append hinner₂

theorem Stmt.lays_loop {cond : Condition} (ih : ∀ stmt ∈ body, stmt.Lays) :
    (Stmt.loop line cond body).Lays := by
  intro pending events s code s' hevents hs h
  obtain ⟨test, child, -, hchild, -, rfl⟩ := CompileM.loop_eq_ok_iff.mp h
  have hstart : s.nextLabel.symbols.LaidOut pending := hs
  obtain ⟨hinner, -⟩ := laidOut_of_block ih (hstart.fork .copy) hchild
  have hend := hstart.sync_copy (compileAll_stays body hchild).link
    (compileAll_grows 0 body hchild).le
  exact ⟨hevents.around h hs hend hinner, hend⟩

/-- Every copy of an unrolled block works on the same tables, and may declare a list
again with another type and length. -/
theorem Stmt.lays_unroll {var iterable : String} (hvar : Unbracketed var)
    (ih : ∀ stmt ∈ body, stmt.Lays) : (Stmt.unroll line var iterable body).Lays := by
  intro pending events s code s' hevents hs h
  obtain ⟨v, element, len, child, hv, htype, hroom, hcopies, -, rfl⟩ :=
    CompileM.unroll_eq_ok_iff.mp h
  have hcell : (ValueType.scalar .int).isList = false := rfl
  have hindexed : (s.forkIndexed var).symbols.LaidOut pending :=
    hs.bindCell hvar hcell .zeroed hroom
  have hlink : child.link = .shared :=
    (CompileM.follows_copies (compileAll_stays body) (fun _ => CompileM.stays_emit _ _)
      (fun _ => CompileM.stays_setValue _ _ _) len 0 hcopies).link
  obtain ⟨hinner, hchild⟩ := invariant_of_eventsOfCopies (eventsAll (fun _ => true) body)
    (I := fun events s _ => EntersLaidOut events ∧ s.symbols.LaidOut pending)
    (fun events t t' hI => laidOut_of_compileAll ih hI.1 hI.2)
    (fun events t index hI => hI)
    (fun events t value t' hI ht => by
      obtain ⟨w, hw, rfl⟩ := CompileM.setValue_eq_ok_iff.mp ht
      exact ⟨hI.1, hI.2.setValue hw value⟩)
    [] ⟨.nil, hindexed⟩ hcopies
  have hend : (s.sync child).symbols.LaidOut pending := hchild.sync_shared hlink
  refine ⟨hevents.around h hs hend ?_, hend⟩
  rw [Stmt.blockEvents_unroll hv htype]
  exact hinner

/-- In its own body a function is pending: it has parameters, and no record yet. -/
theorem Stmt.lays_function {name : String} {formals : List Formal}
    (hformals : ∀ p ∈ formals, Unbracketed p.name) (ih : ∀ stmt ∈ body, stmt.Lays) :
    (Stmt.function line name formals body).Lays := by
  intro pending events s code s' hevents hs h
  obtain ⟨params, slot, start, inner, child, -, hparams, hbody, hslot, -, hdeclare⟩ :=
    CompileM.function_eq_ok_iff.mp h
  obtain ⟨hle, -, hwithin⟩ := CompileM.spans_of_declareParams hparams
  have hfork : ({ s with functionLabels := s.functionLabels ++ [s.qualify name] }.fork
      .copy).symbols.LaidOut pending := hs
  have hstart := CompileM.laidOut_declareParams hformals hfork hparams
  have hstub : (Function.stub name (s.qualify name) params).LaidOut
      (fun f => pending f ∨ f = .stub name (s.qualify name) params) start.symbols.nextAddress :=
    ⟨Table.laidOut_empty _, UInt32.zero_le, fun p hp => (hwithin p hp).2, .inl (.inr rfl)⟩
  obtain ⟨hinner, hend⟩ := laidOut_of_block ih
    ((hstart.weaken fun _ => Or.inl).insertFunction name hstub) hbody
  have hedits : Scope.Edits (fun _ => True) _ start :=
    CompileM.edits_declareParams (fun _ _ _ _ => trivial) hparams
  have hlink : inner.link = .copy :=
    (compileAll_stays body hbody).link.trans (Scope.Stays.of_edits hedits).link
  obtain ⟨hroom, -, hchild⟩ := CompileM.allocate_eq_ok_iff.mp hslot
  have hlaid :
      child.symbols.LaidOut (fun f => pending f ∨ f = .stub name (s.qualify name) params) :=
    hchild ▸ hend.moveCursor (le_addressAfter hroom)
  have hcopy : child.link = .copy := hchild ▸ hlink
  -- the cursor moves on through the body, and then behind the return cell
  have hbodyLe : start.symbols.nextAddress ≤ inner.symbols.nextAddress :=
    (compileAll_grows 0 body hbody).le
  have hslotLe : inner.symbols.nextAddress ≤ child.symbols.nextAddress :=
    hchild ▸ le_addressAfter hroom
  have hparamsLe := UInt32.le_trans hbodyLe hslotLe
  have hrecorded :
      ∀ p ∈ params, p.address.toNat + p.type.extent ≤ child.symbols.nextAddress.toNat :=
    fun p hp => Nat.le_trans (hwithin p hp).2 (UInt32.le_iff_toNat_le.mp hparamsLe)
  have hs' : s'.symbols.LaidOut pending := by
    rw [← CompileM.declareFunction_eq_ok_iff.mp hdeclare]
    refine Symbols.LaidOut.insertFunction (Symbols.LaidOut.sync_copy hfork hcopy
      (UInt32.le_trans hle hparamsLe)) name ?_
    rw [Scope.nextAddress_sync]
    exact ⟨hlaid.vars, UInt32.le_refl _, hrecorded, .inr hrecorded⟩
  refine ⟨hevents.around h hs hs' ?_, hs'⟩
  rw [Stmt.blockEvents_function hparams]
  exact hinner

theorem Stmt.lays_space {name : String} (ih : ∀ stmt ∈ body, stmt.Lays) :
    (Stmt.space line name body).Lays := by
  intro pending events s code s' hevents hs h
  obtain ⟨child, hchild, -, hdeclare⟩ := CompileM.space_eq_ok_iff.mp h
  have hstart : ((s.fork .passThrough).enter name).symbols.LaidOut pending := hs
  obtain ⟨hinner, hend⟩ := laidOut_of_block ih hstart hchild
  have hlink : child.link = .passThrough := (compileAll_stays body hchild).link
  have hle : s.symbols.nextAddress ≤ child.symbols.nextAddress :=
    (compileAll_grows 0 body hchild).le
  have hsync := hs.sync_merge hend (by rw [hlink]; exact nofun) hle
  have hs' : s'.symbols.LaidOut pending := by
    rw [← CompileM.declareNamespace_eq_ok_iff.mp hdeclare]
    refine hsync.insertNamespace name fun f g hg => ?_
    rw [Scope.nextAddress_sync]
    -- what a namespace keeps was bound in its block
    rcases (Scope.imports_exportedSymbols child).functions f g hg with hnone | hg
    · exact nomatch hnone
    · exact hend.functions f g hg
  exact ⟨hevents.around h hs hs' hinner, hs'⟩

theorem Stmt.lays_unit {path : String} (ih : ∀ stmt ∈ body, stmt.Lays) :
    (Stmt.unit line path body).Lays := by
  intro pending events s code s' hevents hs h
  obtain ⟨child, hchild, -, rfl⟩ := CompileM.unit_eq_ok_iff.mp h
  obtain ⟨hinner, hend⟩ := laidOut_of_block ih (hs.fork .isolated) hchild
  have hlink : child.link = .isolated := (compileAll_stays body hchild).link
  have hle : s.symbols.nextAddress ≤ child.symbols.nextAddress :=
    (compileAll_grows 0 body hchild).le
  have hs' := hs.sync_merge hend (by rw [hlink]; exact nofun) hle
  exact ⟨hevents.around h hs hs' hinner, hs'⟩

end Blocks

/-- A statement without a block keeps symbols laid out. -/
theorem Stmt.laidOut_of_isSimple {stmt : Stmt} (hsimple : stmt.isSimple = true)
    (hnames : stmt.NamesUnbracketed) {s s' : Scope} {code : Fragment}
    (hs : s.symbols.LaidOut pending) (h : stmt.compile s = .ok code s') :
    s'.symbols.LaidOut pending := by
  have hedits := stmt.edits_of_isSimple hsimple h
  cases stmt with
  | declare line type name value => exact CompileM.laidOut_declareVariable hnames hs h
  | declareList line name element len value => exact CompileM.laidOut_declareList hnames hs h
  | assign | assignAt | call | embed | poke | directive => exact .of_steps hedits.steps hs
  | branch | loop | unroll | function | space | unit => exact nomatch hsimple

theorem lays_of_partsAll {body : List Stmt}
    (ih : ∀ stmt ∈ body, (∀ part ∈ stmt.parts, part.NamesUnbracketed) → stmt.Lays)
    (hnames : ∀ part ∈ partsAll body, part.NamesUnbracketed) : ∀ stmt ∈ body, stmt.Lays :=
  fun stmt hstmt => ih stmt hstmt fun part hpart => hnames part (mem_partsAll hpart hstmt)

/-- **Every statement keeps symbols laid out**, if no name that it declares has a
bracket. -/
theorem Stmt.lays (stmt : Stmt) (hnames : ∀ part ∈ stmt.parts, part.NamesUnbracketed) :
    stmt.Lays := by
  induction stmt using Stmt.blockInduction with
  | simple stmt hsimple =>
    intro pending events s code s' hevents hs h
    have hself : stmt.NamesUnbracketed := hnames stmt stmt.mem_parts_self
    have hs' := stmt.laidOut_of_isSimple hsimple hself hs h
    refine ⟨hevents.around h hs hs' ?_, hs'⟩
    rw [Stmt.blockEvents_of_isSimple hsimple]
    exact .nil
  | branch line cond thenBody elseBody ih₁ ih₂ =>
    rw [Stmt.parts, List.forall_mem_cons, List.forall_mem_append] at hnames
    exact Stmt.lays_branch (lays_of_partsAll ih₁ hnames.2.1) (lays_of_partsAll ih₂ hnames.2.2)
  | loop line cond body ih =>
    rw [Stmt.parts, List.forall_mem_cons] at hnames
    exact Stmt.lays_loop (lays_of_partsAll ih hnames.2)
  | unroll line var iterable body ih =>
    rw [Stmt.parts, List.forall_mem_cons] at hnames
    exact Stmt.lays_unroll hnames.1 (lays_of_partsAll ih hnames.2)
  | function line name formals body ih =>
    rw [Stmt.parts, List.forall_mem_cons] at hnames
    exact Stmt.lays_function hnames.1 (lays_of_partsAll ih hnames.2)
  | space line name body ih =>
    rw [Stmt.parts, List.forall_mem_cons] at hnames
    exact Stmt.lays_space (lays_of_partsAll ih hnames.2)
  | unit line path body ih =>
    rw [Stmt.parts, List.forall_mem_cons] at hnames
    exact Stmt.lays_unit (lays_of_partsAll ih hnames.2)

/-! ## Programs -/

/-- An element that lies before a cursor is counted without leaving the address
space. -/
theorem toNat_add_of_within {base cursor : UInt32} {element : Scalar} {len i : Nat}
    (hwithin : base.toNat + len * element.size ≤ cursor.toNat) (hi : i < len) :
    (base + UInt32.ofNat (i * element.size)).toNat = base.toNat + i * element.size := by
  have hlt : i * element.size ≤ len * element.size := Nat.mul_le_mul_right _ (Nat.le_of_lt hi)
  have hcursor := cursor.toNat_lt
  rw [UInt32.toNat_add, UInt32.toNat_ofNat_of_lt' (by unfold UInt32.size; omega)]
  omega

/-- **The lists whose elements a statement may count**, by address, element type and
length. -/
inductive Stmt.Reaches (stmt : Stmt) (s : Scope) : UInt32 → Scalar → Nat → Prop
  /-- A list in sight, which expressions index, and which is copied from and to. -/
  | inSight {name : String} {v : Variable} {element : Scalar} {len : Nat}
      (hv : s.symbols.vars.get? name = some v) (htype : v.type = .list element len) :
      Reaches stmt s v.address element len
  /-- A list in sight behind the statement, as one that it declares as a copy. -/
  | behind {code : Fragment} {s' : Scope} {name : String} {v : Variable} {element : Scalar}
      {len : Nat} (h : stmt.compile s = .ok code s') (hv : s'.symbols.vars.get? name = some v)
      (htype : v.type = .list element len) : Reaches stmt s v.address element len
  /-- A parameter of a function that the statement calls. -/
  | param {line : Nat} {space : Option String} {name : String} {args : List Expr} {f : Function}
      {p : Param} {element : Scalar} {len : Nat} (hcall : stmt = .call line space name args)
      (hf : s.resolveFunction line space name = .ok f) (hp : p ∈ f.params)
      (htype : p.type = .list element len) : Reaches stmt s p.address element len

theorem Symbols.LaidOut.of_resolveFunction {s : Scope} (h : s.symbols.LaidOut pending)
    {line : Nat} {space : Option String} {name : String} {f : Function}
    (hf : s.resolveFunction line space name = .ok f) :
    f.LaidOut pending s.symbols.nextAddress := by
  rcases Scope.bound_of_resolveFunction hf with hf | ⟨space, n, hn, hf⟩
  · exact h.functions name f hf
  · exact h.namespaces space n hn name f hf

/-- **What a statement reaches ends before the end of the address space.** -/
theorem EntersLaidOut.exists_within {events : List Event} (h : EntersLaidOut events) {stmt : Stmt}
    {s : Scope} (hmem : .enter stmt s ∈ events) {base : UInt32} {element : Scalar} {len : Nat}
    (hreaches : stmt.Reaches s base element len) :
    ∃ cursor : UInt32, base.toNat + len * element.size ≤ cursor.toNat := by
  obtain ⟨⟨pending, hs⟩, hbehind⟩ := h stmt s hmem
  cases hreaches with
  | inSight hv htype => exact ⟨_, (hs.vars _ _ _ _ hv htype).within⟩
  | behind hcode hv htype =>
    obtain ⟨pending', hs'⟩ := hbehind _ _ hcode
    exact ⟨_, (hs'.vars _ _ _ _ hv htype).within⟩
  | param _ hf hp htype =>
    have hparam := (hs.of_resolveFunction hf).params _ hp
    rw [htype] at hparam
    exact ⟨_, hparam⟩

/-- **An element whose index passes the check of the bounds is bound**, at the address
that was counted for it. -/
theorem Table.HoldsList.exists_element {vars : Table Variable} {cursor base : UInt32}
    {name : String}
    {element : Scalar} {len : Nat} (h : vars.HoldsList cursor name base element len) {env : Env}
    {index : Int64} {address : UInt32}
    (hindex : env.elementAddress name base element len index = .ok address) :
    ∃ v, vars.get? (elementName name index.toInt.toNat) = some v ∧ v.type = .scalar element
      ∧ v.address = address := by
  unfold Env.elementAddress at hindex
  split at hindex
  next hbounds =>
    cases hindex
    have hi : index.toInt.toNat < len := by omega
    obtain ⟨v, hv, htype, haddress⟩ := h.elements _ hi
    refine ⟨v, hv, htype, UInt32.toNat_inj.mp ?_⟩
    rw [haddress, toNat_add_of_within h.within hi]
  next => exact nomatch hindex

/-- **Lists are laid out as their headers say.** In a program that declares no name with
a bracket, the table that it ends with is laid out, and so is the table that each of
its functions records; the parameters of a function end before the next free address
of its record. Wherever a statement is compiled in such a program, the elements of
the lists that it reaches are counted without leaving the address space, and for
an index that passes the check of the bounds the element is bound, as a variable of
the element type at the address that is counted. -/
theorem Program.lists_laid_out {config : Config} {stmts : List Stmt} {p : Program}
    (hnames : ∀ part ∈ partsAll stmts, part.NamesUnbracketed)
    (h : Program.compile config stmts = .ok p) :
    p.symbols.vars.LaidOut p.symbols.nextAddress
      ∧ (∀ name f, p.symbols.functions.get? name = some f →
        f.symbols.vars.LaidOut f.symbols.nextAddress
          ∧ f.symbols.nextAddress ≤ p.symbols.nextAddress
          ∧ ∀ q ∈ f.params, ∀ element len, q.type = .list element len →
            q.address.toNat + len * element.size ≤ f.symbols.nextAddress.toNat)
      ∧ ∀ stmt s, .enter stmt s ∈ programEvents config stmts →
        (∀ base element len, stmt.Reaches s base element len → ∀ i < len,
          (base + UInt32.ofNat (i * element.size)).toNat = base.toNat + i * element.size)
        ∧ ∀ line name v element len index address, s.symbols.vars.get? name = some v →
          v.type = .list element len →
          (s.env line).elementAddress name v.address element len index = .ok address →
          ∃ w, s.symbols.vars.get? (elementName name index.toInt.toNat) = some w
            ∧ w.type = .scalar element ∧ w.address = address := by
  unfold Program.compile at h
  split at h
  next s hrun =>
    cases h
    have hroot : (Scope.root config).symbols.LaidOut fun _ => False := .startingAt _ _
    obtain ⟨hevents, hs⟩ := laidOut_of_block
      (lays_of_partsAll (fun stmt _ => stmt.lays) hnames) hroot hrun
    refine ⟨hs.vars, fun name f hf => ?_, fun stmt t hmem => ⟨?_, ?_⟩⟩
    · have hlaid := hs.functions name f hf
      refine ⟨hlaid.vars, hlaid.le, fun q hq element len htype => ?_⟩
      have hparam := hlaid.complete.resolve_left id q hq
      rw [htype] at hparam
      exact hparam
    · intro base element len hreaches i hi
      obtain ⟨cursor, hwithin⟩ := hevents.exists_within hmem hreaches
      exact toNat_add_of_within hwithin hi
    · intro line name v element len index address hv htype hindex
      obtain ⟨⟨pending, ht⟩, -⟩ := hevents stmt t hmem
      exact (ht.vars name v element len hv htype).exists_element hindex
  next => exact nomatch h

/-- A list is declared as a longer copy of another, and the other again three times over
with another type and length; a function has two lists of one name as parameters. -/
def relisted : List Stmt :=
  [.declareList 1 "xs" (some .int) none (some (.list [.int 1, .int 2])),
    .declareList 2 "ys" none (some 3) (some (.ident "xs")),
    .unroll 3 "i" "ys" [.declareList 4 "xs" (some .char) none (some (.str "abc"))],
    .function 5 "f" [⟨"l", .list .int 3⟩, ⟨"l", .list .char 4⟩]
      [.assignAt 6 "l" (.int 3) (.char 98)],
    .assignAt 7 "xs" (.int 2) (.char 99),
    .call 8 none "f" [.ident "ys", .ident "xs"]]

theorem Program.lists_laid_out_relisted :
    ∃ p f, Program.compile {} relisted = .ok p ∧ p.symbols.functions.get? "f" = some f
      ∧ p.symbols.vars.HoldsList p.symbols.nextAddress "xs" 0x1000001e .char 3
      ∧ f.symbols.vars.LaidOut f.symbols.nextAddress
      ∧ ⟨"l", 0x1000002d, .list .char 4⟩ ∈ f.params
      ∧ (0x1000002d : UInt32).toNat + 4 * Scalar.char.size ≤ f.symbols.nextAddress.toNat := by
  have hnames : ∀ part ∈ partsAll relisted, part.NamesUnbracketed := by
    simp [relisted, partsAll, Stmt.parts, Stmt.NamesUnbracketed]
    decide
  have hheaders : (Program.compile {} relisted).toOption.map
      (fun p => (p.symbols.vars.get? "xs", (p.symbols.functions.get? "f").map (·.params)))
        = some (some ⟨0x1000001e, .list .char 3, .elements 3⟩,
          some [⟨"l", 0x10000021, .list .int 3⟩, ⟨"l", 0x1000002d, .list .char 4⟩]) := by
    decide +kernel
  cases hp : Program.compile {} relisted with
  | error e =>
    rw [hp] at hheaders
    cases hheaders
  | ok p =>
    rw [hp] at hheaders
    have hpair := Prod.mk.inj (Option.some.inj hheaders)
    obtain ⟨f, hf, hparams⟩ := Option.map_eq_some_iff.mp hpair.2
    have hl : ⟨"l", 0x1000002d, .list .char 4⟩ ∈ f.params := by
      rw [hparams]
      exact List.mem_cons_of_mem _ List.mem_cons_self
    obtain ⟨hroot, hfunctions, -⟩ := Program.lists_laid_out hnames hp
    obtain ⟨hvars, -, hwithin⟩ := hfunctions "f" f hf
    exact ⟨p, f, rfl, hf, hroot "xs" _ .char 3 hpair.1 rfl, hvars, hl, hwithin _ hl .char 4 rfl⟩

end RegMachine
