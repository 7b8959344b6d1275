import RegMachine.Proofs.Outcome

/-!
# Failed runs

A run that fails keeps the scope as its first fault left it. The equivalences here take such
a run apart: a sequence failed exactly if its first action did, or if this succeeded and what
follows failed in the scope that it left. They are `simp` lemmas, like those for runs that
succeed.

An action is *cautious* if it has changed nothing when it fails (`CompileM.Cautious`). The
single actions on a scope all are. A sequence is cautious as long as nothing is changed before
the last action that can fail.
-/

namespace RegMachine

/-- The error of a run that found no room for a cell. -/
def CompileError.IsOverflow (e : CompileError) : Prop :=
  ∃ size cursor, e.fault = .addressOverflow size cursor

namespace CompileM

variable {α β : Type} {line : Nat} {s s' : Scope} {e : CompileError}

/-! ## The faults of actions -/

/-- **A sequence fails** if its first action does, or if that succeeds and what follows it
fails. -/
@[simp]
theorem bind_eq_error_iff {x : CompileM α} {f : α → CompileM β} :
    (x >>= f) s = .error e s'
      ↔ x s = .error e s' ∨ ∃ a t, x s = .ok a t ∧ f a t = .error e s' := by
  show EStateM.bind x f s = .error e s' ↔ _
  unfold EStateM.bind
  cases x s with
  | ok a t =>
    refine ⟨fun h => .inr ⟨a, t, rfl, h⟩, ?_⟩
    rintro (h | ⟨_, _, ⟨⟩, h⟩)
    · exact nomatch h
    · exact h
  | error e' t =>
    constructor
    · rintro ⟨⟩
      exact .inl rfl
    · rintro (⟨⟨⟩⟩ | ⟨_, _, h, _⟩)
      · rfl
      · exact nomatch h

/-- What returns a value never fails. Nor do the actions below that only look at the
scope, count or bind. -/
@[simp]
theorem pure_eq_error_iff {a : α} : (pure a : CompileM α) s = .error e s' ↔ False :=
  ⟨nofun, False.elim⟩

@[simp]
theorem get_eq_error_iff : (get : CompileM Scope) s = .error e s' ↔ False := ⟨nofun, False.elim⟩

@[simp]
theorem env_eq_error_iff : CompileM.env line s = .error e s' ↔ False := ⟨nofun, False.elim⟩

@[simp]
theorem nextAddress_eq_error_iff : nextAddress s = .error e s' ↔ False := ⟨nofun, False.elim⟩

@[simp]
theorem warn_eq_error_iff : warn s = .error e s' ↔ False := ⟨nofun, False.elim⟩

@[simp]
theorem bindVariable_eq_error_iff {name : String} {v : Variable} :
    bindVariable name v s = .error e s' ↔ False := ⟨nofun, False.elim⟩

/-- A fault is raised with its line, and the scope stays as it is. -/
@[simp]
theorem fail_eq_error_iff {fault : CompileFault} :
    (fail line fault : CompileM α) s = .error e s' ↔ ⟨line, fault⟩ = e ∧ s = s' := by
  unfold fail
  exact EStateM.Result.error.injEq .. ▸ Iff.rfl

/-- An outcome that does not touch the scope is taken over. -/
@[simp]
theorem liftM_eq_error_iff {x : Except CompileError α} :
    (liftM x : CompileM α) s = .error e s' ↔ x = .error e ∧ s = s' := by
  show ofExcept x s = .error e s' ↔ _
  unfold ofExcept
  cases x <;> simp

/-- A look-up fails with the fault of the environment, which lists the bound names. -/
@[simp]
theorem lookup_eq_error_iff {name : String} :
    lookup name line s = .error e s' ↔ (s.env line).lookup name = .error e ∧ s = s' :=
  liftM_eq_error_iff

/-- Only the end of the address space keeps bytes from being handed out. -/
@[simp]
theorem allocate_eq_error_iff {size : Nat} :
    allocate size line s = .error e s' ↔
      UInt32.size ≤ s.symbols.nextAddress.toNat + size
        ∧ ⟨line, .addressOverflow size s.symbols.nextAddress⟩ = e ∧ s = s' := by
  unfold allocate
  split
  next h =>
    obtain ⟨hroom, -⟩ := Symbols.allocate?_eq_some_iff.mp h
    exact ⟨nofun, fun hfail => absurd hroom (Nat.not_lt.mpr hfail.1)⟩
  next h =>
    have hfull := Symbols.allocate?_eq_none_iff.mp h
    simp [hfull]

/-- **A name is refused** if it is bound, unless the block is being unrolled. -/
@[simp]
theorem ensureUndeclared_eq_error_iff {name : String} :
    ensureUndeclared name line s = .error e s' ↔
      (s.symbols.vars.contains name && !s.mode.unrolling) = true
        ∧ ⟨line, .variableExists name⟩ = e ∧ s = s' := by
  unfold ensureUndeclared
  split
  next h => simp [h]
  next h => simp [Bool.eq_false_iff.mpr h]

/-- A declaration fails only if its name is refused, before anything is bound. -/
@[simp]
theorem declare_eq_error_iff {name : String} {v : Variable} :
    declare name v line s = .error e s' ↔
      (s.symbols.vars.contains name && !s.mode.unrolling) = true
        ∧ ⟨line, .variableExists name⟩ = e ∧ s = s' := by
  unfold declare
  simp only [bind_eq_error_iff, ensureUndeclared_eq_error_iff, bindVariable_eq_error_iff,
    and_false, exists_false, or_false]

/-! ## Actions that change nothing when they fail -/

/-- **An action is cautious** if it has changed nothing when it fails. -/
def Cautious (x : CompileM α) : Prop := ∀ s e s', x s = .error e s' → s' = s

namespace Cautious

/-- What only reads the scope may come before what is cautious. -/
protected theorem bind {x : CompileM α} {f : α → CompileM β} (hx : Cautious x)
    (hreads : Follows Eq x) (hf : ∀ a, Cautious (f a)) : Cautious (x >>= f) := by
  intro s e s' h
  rcases bind_eq_error_iff.mp h with h | ⟨a, t, ha, h⟩
  · exact hx s e s' h
  · rw [hreads ha]
    exact hf a t e s' h

/-- What never fails is cautious. -/
theorem of_never {x : CompileM α} (h : ∀ s e s', x s ≠ .error e s') : Cautious x :=
  fun s e s' hfail => absurd hfail (h s e s')

/-- What cannot fail may follow what is cautious. -/
theorem bind_of_never {x : CompileM α} {f : α → CompileM β} (hx : Cautious x)
    (hf : ∀ a s e s', f a s ≠ .error e s') : Cautious (x >>= f) := by
  intro s e s' h
  rcases bind_eq_error_iff.mp h with h | ⟨a, t, -, h⟩
  · exact hx s e s' h
  · exact absurd h (hf a t e s')

protected theorem pure (a : α) : Cautious (pure a : CompileM α) :=
  of_never fun _ _ _ h => pure_eq_error_iff.mp h

protected theorem get : Cautious (get : CompileM Scope) :=
  of_never fun _ _ _ h => get_eq_error_iff.mp h

protected theorem env (line : Nat) : Cautious (CompileM.env line) :=
  of_never fun _ _ _ h => env_eq_error_iff.mp h

protected theorem nextAddress : Cautious CompileM.nextAddress :=
  of_never fun _ _ _ h => nextAddress_eq_error_iff.mp h

protected theorem fail (line : Nat) (fault : CompileFault) :
    Cautious (CompileM.fail line fault : CompileM α) :=
  fun _ _ _ h => (fail_eq_error_iff.mp h).2.symm

/-- An outcome that was computed beside the scope does not touch it. -/
protected theorem liftM (x : Except CompileError α) : Cautious (liftM x : CompileM α) :=
  fun _ _ _ h => (liftM_eq_error_iff.mp h).2.symm

protected theorem lookup (name : String) (line : Nat) : Cautious (CompileM.lookup name line) :=
  fun _ _ _ h => (lookup_eq_error_iff.mp h).2.symm

protected theorem ensureUndeclared (name : String) (line : Nat) :
    Cautious (CompileM.ensureUndeclared name line) :=
  fun _ _ _ h => (ensureUndeclared_eq_error_iff.mp h).2.2.symm

/-- Where there is no room, the cursor stays. -/
protected theorem allocate (size line : Nat) : Cautious (CompileM.allocate size line) :=
  fun _ _ _ h => (allocate_eq_error_iff.mp h).2.2.symm

/-- A name is refused before it is bound. -/
protected theorem declare (name : String) (v : Variable) (line : Nat) :
    Cautious (CompileM.declare name v line) :=
  fun _ _ _ h => (declare_eq_error_iff.mp h).2.2.symm

/-- A cursor that would have to move back stays. -/
protected theorem moveCursor (region : Region) (address : UInt32) (line : Nat) :
    Cautious (CompileM.moveCursor region address line) := by
  intro s e s' h
  unfold CompileM.moveCursor at h
  cases region <;>
  · dsimp only at h
    split at h
    · cases h
      rfl
    · exact nomatch h

/-- Nothing is recorded of a name that is not bound. -/
protected theorem setValue (name : String) (value : Stored) (line : Nat) :
    Cautious (CompileM.setValue name value line) := by
  intro s e s' h
  unfold CompileM.setValue at h
  split at h
  · exact nomatch h
  · cases h
    rfl

/-- A label that is refused is not claimed a second time. -/
protected theorem claimLabel (label : String) (line : Nat) :
    Cautious (CompileM.claimLabel label line) := by
  intro s e s' h
  unfold CompileM.claimLabel at h
  split at h
  · cases h
    rfl
  · exact nomatch h

end Cautious

end CompileM

end RegMachine
