import RegMachine.Compile.Monad

/-!
# Successful runs

Assembling and compiling stop at their first fault, so a statement about what
they produce starts from a run that succeeded. The equivalences here take such
a run apart: a sequence succeeded exactly if its steps did, one after the
other, and each action on a scope succeeded exactly under its own condition,
with the scope it says.

For actions on a scope they are all `simp` lemmas, so that a whole statement's
action opens by unfolding it and simplifying.
-/

namespace RegMachine

variable {ε α β : Type}

/-! ## Outcomes -/

/-- A sequence of two computations succeeds if both do. -/
theorem bind_eq_ok_iff {x : Except ε α} {f : α → Except ε β} {b : β} :
    (x >>= f) = .ok b ↔ ∃ a, x = .ok a ∧ f a = .ok b := by
  cases x with
  | error e => exact ⟨nofun, fun ⟨_, h, _⟩ => nomatch h⟩
  | ok a =>
    refine ⟨fun h => ⟨a, rfl, h⟩, ?_⟩
    rintro ⟨_, ⟨⟩, h⟩
    exact h

/-- The image of an answer is answered if the answer is. -/
theorem map_eq_ok_iff {x : Except ε α} {f : α → β} {b : β} :
    x.map f = .ok b ↔ ∃ a, x = .ok a ∧ f a = b := by
  cases x with
  | error e => exact ⟨nofun, fun ⟨_, h, _⟩ => nomatch h⟩
  | ok a => simp [Except.map]

/-- Answering at once always succeeds. -/
theorem pure_eq_ok_iff {a b : α} : (pure a : Except ε α) = .ok b ↔ a = b :=
  ⟨fun h => by cases h; rfl, fun h => h ▸ rfl⟩

namespace CompileM

variable {s s' : Scope} {a : α} {b : β}

/-! ## Sequences of actions -/

/-- **A sequence of two actions succeeds if both do**, the second on the scope
that the first left. -/
@[simp]
theorem bind_eq_ok_iff {x : CompileM α} {f : α → CompileM β} :
    (x >>= f) s = .ok b s' ↔ ∃ a t, x s = .ok a t ∧ f a t = .ok b s' := by
  show EStateM.bind x f s = .ok b s' ↔ _
  unfold EStateM.bind
  cases x s with
  | ok a t =>
    refine ⟨fun h => ⟨a, t, rfl, h⟩, ?_⟩
    rintro ⟨_, _, ⟨⟩, h⟩
    exact h
  | error e t => exact ⟨nofun, fun ⟨_, _, h, _⟩ => nomatch h⟩

@[simp]
theorem pure_eq_ok_iff {b : α} : (pure a : CompileM α) s = .ok b s' ↔ a = b ∧ s = s' := by
  show EStateM.Result.ok a s = .ok b s' ↔ _
  exact EStateM.Result.ok.injEq .. ▸ Iff.rfl

@[simp]
theorem map_eq_ok_iff {x : CompileM α} {f : α → β} :
    (f <$> x) s = .ok b s' ↔ ∃ a, x s = .ok a s' ∧ f a = b := by
  show (x >>= fun a => pure (f a)) s = .ok b s' ↔ _
  simp only [bind_eq_ok_iff, pure_eq_ok_iff]
  constructor
  · rintro ⟨a, _, hx, hb, rfl⟩
    exact ⟨a, hx, hb⟩
  · rintro ⟨a, hx, hb⟩
    exact ⟨a, s', hx, hb, rfl⟩

/-- The scope that is read is the one that stays. -/
@[simp]
theorem get_eq_ok_iff {t : Scope} : (get : CompileM Scope) s = .ok t s' ↔ s = t ∧ s = s' := by
  show EStateM.Result.ok s s = .ok t s' ↔ _
  exact EStateM.Result.ok.injEq .. ▸ Iff.rfl

/-- An outcome that does not touch the scope is taken over. -/
@[simp]
theorem liftM_eq_ok_iff {x : Except CompileError α} :
    (liftM x : CompileM α) s = .ok a s' ↔ x = .ok a ∧ s = s' := by
  show ofExcept x s = .ok a s' ↔ _
  unfold ofExcept
  cases x <;> simp

@[simp]
theorem ofExcept_eq_ok_iff {x : Except CompileError α} :
    ofExcept x s = .ok a s' ↔ x = .ok a ∧ s = s' :=
  liftM_eq_ok_iff

/-- A fault is no success. -/
@[simp]
theorem fail_eq_ok_iff {line : Nat} {fault : CompileFault} :
    (fail line fault : CompileM α) s = .ok a s' ↔ False :=
  ⟨nofun, False.elim⟩

@[simp]
theorem env_eq_ok_iff {line : Nat} {env : Env} :
    CompileM.env line s = .ok env s' ↔ s.env line = env ∧ s = s' := by
  unfold CompileM.env
  exact EStateM.Result.ok.injEq .. ▸ Iff.rfl

/-! ## Allocation and counters -/

@[simp]
theorem nextAddress_eq_ok_iff {address : UInt32} :
    nextAddress s = .ok address s' ↔ s.symbols.nextAddress = address ∧ s = s' := by
  unfold nextAddress
  exact EStateM.Result.ok.injEq .. ▸ Iff.rfl

/-- **What is handed out starts at the cursor**, and the cursor moves behind
it without leaving the address space. -/
@[simp]
theorem allocate_eq_ok_iff {size line : Nat} {address : UInt32} :
    allocate size line s = .ok address s' ↔
      s.symbols.nextAddress.toNat + size < UInt32.size ∧ s.symbols.nextAddress = address ∧
        { s with symbols := { s.symbols with
          nextAddress := UInt32.ofNat (s.symbols.nextAddress.toNat + size) } } = s' := by
  unfold allocate
  split
  next h =>
    obtain ⟨hroom, rfl, rfl⟩ := Symbols.allocate?_eq_some_iff.mp h
    simp [hroom]
  next h =>
    have hfull := Symbols.allocate?_eq_none_iff.mp h
    simp [Nat.not_lt.mpr hfull]

/-- A cursor moves forward only. -/
@[simp]
theorem moveCursor_eq_ok_iff {region : Region} {address : UInt32} {line : Nat} {u : Unit} :
    moveCursor region address line s = .ok u s' ↔
      match region with
      | .cells => s.symbols.nextAddress ≤ address ∧
          { s with symbols := { s.symbols with nextAddress := address } } = s'
      | .data => s.symbols.nextDataAddress ≤ address ∧
          { s with symbols := { s.symbols with nextDataAddress := address } } = s' := by
  unfold moveCursor
  cases region with
  | cells =>
    dsimp only
    split
    next h => simp [UInt32.not_le.mpr h]
    next h => simp [UInt32.not_lt.mp h]
  | data =>
    dsimp only
    split
    next h => simp [UInt32.not_le.mpr h]
    next h => simp [UInt32.not_lt.mp h]

/-- A label index is handed out once, and the counter moves on. -/
@[simp]
theorem newLabel_eq_ok_iff {index : Nat} :
    newLabel s = .ok index s' ↔ s.labels = index ∧ { s with labels := s.labels + 1 } = s' := by
  unfold newLabel
  exact EStateM.Result.ok.injEq .. ▸ Iff.rfl

@[simp]
theorem warn_eq_ok_iff {u : Unit} :
    warn s = .ok u s' ↔ { s with warnings := s.warnings + 1 } = s' := by
  unfold warn
  simp

/-! ## Variables -/

/-- **A name may be declared** if it is not bound, or if the block is being
unrolled. -/
@[simp]
theorem ensureUndeclared_eq_ok_iff {name : String} {line : Nat} {u : Unit} :
    ensureUndeclared name line s = .ok u s' ↔
      (s.symbols.vars.contains name && !s.mode.unrolling) = false ∧ s = s' := by
  unfold ensureUndeclared
  split
  next h => simp [h]
  next h => simp [Bool.eq_false_iff.mpr h]

@[simp]
theorem bindVariable_eq_ok_iff {name : String} {v : Variable} {u : Unit} :
    bindVariable name v s = .ok u s' ↔
      { s with symbols := s.symbols.insertVariable name v } = s' := by
  unfold bindVariable
  simp

/-- A declaration binds a name that may be declared. -/
@[simp]
theorem declare_eq_ok_iff {name : String} {v : Variable} {line : Nat} {u : Unit} :
    declare name v line s = .ok u s' ↔
      (s.symbols.vars.contains name && !s.mode.unrolling) = false ∧
        { s with symbols := s.symbols.insertVariable name v } = s' := by
  unfold declare
  simp only [bind_eq_ok_iff, ensureUndeclared_eq_ok_iff, bindVariable_eq_ok_iff]
  constructor
  · rintro ⟨_, _, ⟨hname, rfl⟩, hs⟩
    exact ⟨hname, hs⟩
  · rintro ⟨hname, hs⟩
    exact ⟨(), s, ⟨hname, rfl⟩, hs⟩

/-- A look-up leaves the scope as it is. -/
@[simp]
theorem lookup_eq_ok_iff {name : String} {line : Nat} {v : Variable} :
    lookup name line s = .ok v s' ↔ s.symbols.vars.get? name = some v ∧ s = s' := by
  have hvars : (s.env line).vars = s.symbols.vars := rfl
  unfold lookup
  rw [ofExcept_eq_ok_iff, Env.lookup, hvars]
  cases s.symbols.vars.get? name <;> simp [Env.fail]

/-- A variable that is bound keeps its address and type. -/
@[simp]
theorem setValue_eq_ok_iff {name : String} {value : Stored} {line : Nat} {u : Unit} :
    setValue name value line s = .ok u s' ↔
      ∃ v, s.symbols.vars.get? name = some v ∧
        { s with symbols := s.symbols.insertVariable name { v with value := value } } = s' := by
  unfold setValue Symbols.setValue?
  cases s.symbols.vars.get? name <;> simp

/-! ## Functions and namespaces -/

/-- **A label is claimed** if no function of the program has it. -/
@[simp]
theorem claimLabel_eq_ok_iff {label : String} {line : Nat} {u : Unit} :
    claimLabel label line s = .ok u s' ↔
      label ∉ s.functionLabels ∧
        { s with functionLabels := s.functionLabels ++ [label] } = s' := by
  unfold claimLabel
  split
  next h => simp_all
  next h => simp_all

/-- A function is bound by its name, and exported. -/
@[simp]
theorem declareFunction_eq_ok_iff {f : Function} {u : Unit} :
    declareFunction f s = .ok u s' ↔
      { s with
        symbols := s.symbols.insertFunction f.name f
        exports := s.exports ++ [.function f.name] } = s' := by
  unfold declareFunction
  simp

/-- A namespace is bound by its name, and exported. -/
@[simp]
theorem declareNamespace_eq_ok_iff {n : Namespace} {u : Unit} :
    declareNamespace n s = .ok u s' ↔
      { s with
        symbols := s.symbols.insertNamespace n.name n
        exports := s.exports ++ [.space n.name] } = s' := by
  unfold declareNamespace
  simp

/-! ## Streams and children -/

@[simp]
theorem emit_eq_ok_iff {stream : Stream} {code : Fragment} {u : Unit} :
    emit stream code s = .ok u s' ↔ s.emit stream code = s' := by
  unfold emit
  simp

/-- **An action in a child scope** runs on a fork and leaves the scope as it
was. -/
@[simp]
theorem inChild_eq_ok_iff {link : Link} {enter : Scope → Scope} {x : CompileM α} {child : Scope} :
    inChild link enter x s = .ok (a, child) s' ↔
      x (enter (s.fork link)) = .ok a child ∧ s = s' := by
  unfold inChild
  cases x (enter (s.fork link)) <;> simp [and_assoc]

/-- To fold a child back always succeeds, and the answer is its body. -/
@[simp]
theorem sync_eq_ok_iff {child : Scope} {code : Fragment} :
    sync child s = .ok code s' ↔ child.body = code ∧ s.sync child = s' := by
  unfold sync
  exact EStateM.Result.ok.injEq .. ▸ Iff.rfl

/-- **A block** runs on a fork of the scope, which is then folded back. -/
@[simp]
theorem block_eq_ok_iff {link : Link} {x : CompileM Unit} {code : Fragment} :
    block link x s = .ok code s' ↔
      ∃ child, x (s.fork link) = .ok () child ∧ child.body = code ∧ s.sync child = s' := by
  unfold block
  rw [bind_eq_ok_iff]
  constructor
  · rintro ⟨⟨u, child⟩, t, hx, hsync⟩
    obtain ⟨hchild, rfl⟩ := inChild_eq_ok_iff.mp hx
    exact ⟨child, hchild, sync_eq_ok_iff.mp hsync⟩
  · rintro ⟨child, hx, hsync⟩
    exact ⟨((), child), s, inChild_eq_ok_iff.mpr ⟨hx, rfl⟩, sync_eq_ok_iff.mpr hsync⟩

end CompileM

/-- The scope that an unrolled block starts from. -/
def Scope.forkUnrolled (s : Scope) : Scope :=
  { s.fork .shared with mode := { (s.fork .shared).mode with unrolling := true } }

/-- **An unrolled block** runs on a fork that shares the tables. -/
@[simp]
theorem CompileM.unrolled_eq_ok_iff {s s' : Scope} {x : CompileM Unit} {code : Fragment} :
    unrolled x s = .ok code s' ↔
      ∃ child, x s.forkUnrolled = .ok () child ∧ child.body = code ∧ s.sync child = s' := by
  unfold unrolled
  dsimp only
  rw [← Scope.forkUnrolled]
  cases x s.forkUnrolled <;> simp

/-! ## What every run does -/

/-- **Every successful run of an action follows a relation** from the scope it
starts in to the scope it ends in. -/
def CompileM.Follows (R : Scope → Scope → Prop) (x : CompileM α) : Prop :=
  ∀ ⦃s a s'⦄, x s = .ok a s' → R s s'

namespace CompileM.Follows

variable {R : Scope → Scope → Prop} [Std.Refl R] [Trans R R R]

omit [Std.Refl R] in
/-- **Whatever holds step by step holds of a chain**, for a relation between scopes
that is transitive. -/
protected theorem bind {x : CompileM α} {f : α → CompileM β} (hx : Follows R x)
    (hf : ∀ a, Follows R (f a)) : Follows R (x >>= f) := by
  intro s b s' h
  obtain ⟨a, t, hrun, hrest⟩ := CompileM.bind_eq_ok_iff.mp h
  exact Trans.trans (hx hrun) (hf a hrest)

omit [Trans R R R]

/-- An action that leaves the scope as it was follows any relation that every
scope has to itself. -/
theorem of_unchanged {x : CompileM α} (h : ∀ s a s', x s = .ok a s' → s = s') :
    Follows R x := by
  intro s a s' hrun
  rw [← h s a s' hrun]
  exact Std.Refl.refl s

/-- For a reflexive relation it holds of all actions that leave the scope as it is.
-/
protected theorem pure (a : α) : Follows R (pure a : CompileM α) :=
  of_unchanged fun _ _ _ h => (CompileM.pure_eq_ok_iff.mp h).2

protected theorem get : Follows R (get : CompileM Scope) :=
  of_unchanged fun _ _ _ h => (CompileM.get_eq_ok_iff.mp h).2

protected theorem liftM (x : Except CompileError α) : Follows R (liftM x : CompileM α) :=
  of_unchanged fun _ _ _ h => (CompileM.liftM_eq_ok_iff.mp h).2

protected theorem env (line : Nat) : Follows R (CompileM.env line) :=
  of_unchanged fun _ _ _ h => (CompileM.env_eq_ok_iff.mp h).2

protected theorem lookup (name : String) (line : Nat) : Follows R (CompileM.lookup name line) :=
  of_unchanged fun _ _ _ h => (CompileM.lookup_eq_ok_iff.mp h).2

protected theorem nextAddress : Follows R CompileM.nextAddress :=
  of_unchanged fun _ _ _ h => (CompileM.nextAddress_eq_ok_iff.mp h).2

protected theorem ensureUndeclared (name : String) (line : Nat) :
    Follows R (CompileM.ensureUndeclared name line) :=
  of_unchanged fun _ _ _ h => (CompileM.ensureUndeclared_eq_ok_iff.mp h).2

omit [Std.Refl R] in
protected theorem fail (line : Nat) (fault : CompileFault) :
    Follows R (CompileM.fail line fault : CompileM α) :=
  fun _ _ _ h => (CompileM.fail_eq_ok_iff.mp h).elim

end CompileM.Follows

end RegMachine
