import RegMachine.Proofs.Iterations
import RegMachine.Proofs.Lists
import RegMachine.Proofs.Reached

/-!
# What a rejected statement leaves

A statement without a block is checked before it does anything. If one of its checks fails, it
leaves the scope as it was, with one exception: a list whose element type follows from its
first item is warned about before the other items are checked, and the warning stays counted
if one of these is bad (`Scope.Reached.scope_of_rejected`).

Cells are the only thing that can be refused late, when the address space is full. Behind them
nothing fails any more. This is no matter of the statement alone: a list is copied when the
cells of the copy have been bound, and the source must not be one of them. It is not, as the
names of lists have no bracket wherever compiling gets to (`Scope.Reached.lists`).
-/

namespace RegMachine

/-- Whether the element type of a list follows from its first item. -/
def Env.infersElement (env : Env) (element : Option Scalar) (value : Option Expr) : Bool :=
  match element, value.bind Expr.elements? with
  | none, some (first :: _) => (env.operandType first).isOk
  | _, _ => false

/-- **Whether a statement infers the element type of a list**: it declares one under a name
that may be bound, without a type and with a first item that has one. -/
def Stmt.infersElement : Stmt → Scope → Bool
  | declareList line name element _ value, s =>
    !(s.symbols.vars.contains name && !s.mode.unrolling)
      && (s.env line).infersElement element value
  | _, _ => false

/-- A list that is no longer than another of its element type can be copied to it. -/
theorem Env.exists_copyList {env : Env} {source name : String} {w : Variable} {base : UInt32}
    {element : Scalar} {sourceLen len : Nat} (hw : env.vars.get? source = some w)
    (htype : w.type = .list element sourceLen) (hle : sourceLen ≤ len) :
    ∃ copy, env.copyList name base element len (.ident source) = .ok copy := by
  have hlookup : env.lookup source = .ok w := by
    unfold Env.lookup
    rw [hw]
  refine ⟨copyElements element w.address base sourceLen 0, ?_⟩
  unfold Env.copyList
  refine bind_eq_ok_iff.mpr ⟨w, hlookup, ?_⟩
  rw [htype]
  exact if_pos ⟨rfl, hle⟩

/-! ## Names of elements -/

/-- No list has the name of one of its elements. -/
theorem ne_elementName (list : String) (index : Nat) : list ≠ elementName list index := by
  intro h
  have hlength := congrArg (fun name => name.toList.length) h
  simp only [toList_elementName, List.length_append, List.length_cons] at hlength
  omega

namespace CompileM

variable {α β : Type} {line : Nat} {s s' t : Scope} {e : CompileError}

/-- **Binding the elements of a list** leaves the cells of all other names. -/
theorem cell?_of_edits {list other : String}
    (h : s.Edits (fun name => ∃ i, name = elementName list i) t)
    (hother : ∀ i, other ≠ elementName list i) :
    t.symbols.cell? other = s.symbols.cell? other := by
  rcases (Symbols.BindsFresh.of_steps h.steps).cells other with hcell | ⟨⟨i, hi⟩, -⟩
  · exact hcell
  · exact absurd hi (hother i)

/-- So a list may still be declared when its elements have been bound. -/
theorem declare_ne_error {name : String}
    (h : s.Edits (fun other => ∃ i, other = elementName name i) t)
    (hname : (s.symbols.vars.contains name && !s.mode.unrolling) = false) (v : Variable)
    (e : CompileError) (s' : Scope) : declare name v line t ≠ .error e s' := by
  intro hfail
  have hcell := cell?_of_edits h (ne_elementName name)
  have hcontains : t.symbols.vars.contains name = s.symbols.vars.contains name := by
    have hsome := congrArg Option.isSome hcell
    unfold Symbols.cell? at hsome
    rwa [Option.isSome_map, Option.isSome_map] at hsome
  have hmode : t.mode = s.mode := by rw [h.rest]
  have hbound := (declare_eq_error_iff.mp hfail).1
  rw [hcontains, hmode, hname] at hbound
  exact Bool.false_ne_true hbound

/-! ## Actions that fail for want of room only -/

theorem isOverflow_of_allocate {size : Nat} (h : allocate size line s = .error e s') :
    e.IsOverflow := by
  obtain ⟨-, rfl, -⟩ := allocate_eq_error_iff.mp h
  exact ⟨_, _, rfl⟩

theorem isOverflow_of_reserveElements {list : String} {element : Scalar} {count index : Nat}
    (h : reserveElements line list element count index s = .error e s') : e.IsOverflow := by
  induction count generalizing index s with
  | zero => exact (pure_eq_error_iff.mp h).elim
  | succ count ih =>
    rw [reserveElements] at h
    simp only [bind_eq_error_iff, bindVariable_eq_error_iff, false_or] at h
    rcases h with h | ⟨_, _, -, _, _, -, h⟩
    · exact isOverflow_of_allocate h
    · exact ih h

theorem isOverflow_of_fillElements {list : String} {element : Scalar} {count index : Nat}
    {loads : List Loaded} (h : fillElements line list element count index loads s = .error e s') :
    e.IsOverflow := by
  induction count generalizing index loads s with
  | zero => exact (pure_eq_error_iff.mp h).elim
  | succ count ih =>
    cases loads <;>
    · rw [fillElements] at h
      simp only [bind_eq_error_iff, bindVariable_eq_error_iff, pure_eq_error_iff, false_or,
        and_false, exists_false, or_false] at h
      rcases h with h | ⟨_, _, -, _, _, -, h⟩
      · exact isOverflow_of_allocate h
      · exact ih h

/-! ## Clean failures -/

/-- **An action fails cleanly** in a scope: whatever its fault is, save that there is no room
left, it leaves the scope as it was. -/
def FailsCleanly (x : CompileM α) (s : Scope) : Prop :=
  ∀ e s', x s = .error e s' → e.IsOverflow ∨ s' = s

namespace FailsCleanly

theorem of_cautious {x : CompileM α} (h : Cautious x) (s : Scope) : FailsCleanly x s :=
  fun e s' hfail => .inr (h s e s' hfail)

/-- What only reads the scope may come first. -/
theorem after {x : CompileM α} {f : α → CompileM β} (hx : Cautious x) (hreads : Follows Eq x)
    (hf : ∀ a, x s = .ok a s → FailsCleanly (f a) s) : FailsCleanly (x >>= f) s := by
  intro e s' h
  rcases bind_eq_error_iff.mp h with h | ⟨a, t, ha, h⟩
  · exact .inr (hx s e s' h)
  · obtain rfl := hreads ha
    exact hf a ha e s' h

/-- What hands out cells may come next, if nothing fails behind it. -/
theorem of_overflow {x : CompileM α} {f : α → CompileM β}
    (hx : ∀ e s', x s = .error e s' → e.IsOverflow)
    (hf : ∀ a t, x s = .ok a t → ∀ e s', f a t ≠ .error e s') : FailsCleanly (x >>= f) s := by
  intro e s' h
  rcases bind_eq_error_iff.mp h with h | ⟨a, t, ha, h⟩
  · exact .inl (hx e s' h)
  · exact absurd h (hf a t ha e s')

end FailsCleanly

/-- Declaring a variable does not fail once its name has been checked and its value loaded,
as long as there is room. -/
theorem failsCleanly_declareCell (type : ValueType) (name : String) (value : Expr) (s : Scope) :
    FailsCleanly (declareCell line type name value) s := by
  refine .after (.ensureUndeclared name line) (.ensureUndeclared name line) fun _ hname => ?_
  refine .after (.env line) (.env line) fun env _ => .after (.liftM _) (.liftM _)
    fun loaded _ => ?_
  refine .of_overflow (fun e s' => isOverflow_of_allocate) fun address t h e s' hfail => ?_
  obtain ⟨-, -, rfl⟩ := allocate_eq_ok_iff.mp h
  simp only [bind_eq_error_iff, declare_eq_error_iff, pure_eq_error_iff, and_false, exists_false,
    or_false] at hfail
  have hundeclared := (ensureUndeclared_eq_ok_iff.mp hname).1
  exact Bool.false_ne_true (hundeclared.symm.trans hfail.1)

/-- **Copying a list** does not fail once the two lists have been compared, as long as there is
room and the source is none of the cells of the copy. -/
theorem failsCleanly_declareCopy {name source : String}
    (hname : (s.symbols.vars.contains name && !s.mode.unrolling) = false)
    (hsource : ∀ v element len, s.symbols.vars.get? source = some v → v.type = .list element len →
      ∀ i, source ≠ elementName name i) (element : Option Scalar) (len : Option Nat) :
    FailsCleanly (declareCopy line name element len source) s := by
  refine .after (.lookup source line) (.lookup source line) fun v hlookup => ?_
  obtain ⟨hv, -⟩ := lookup_eq_ok_iff.mp hlookup
  cases htype : v.type with
  | scalar | pointer => exact .of_cautious (.fail _ _) s
  | list sourceElement sourceLen =>
    dsimp only
    split
    next hfits =>
      refine .after .nextAddress .nextAddress fun base _ => ?_
      refine .of_overflow (fun e s' => isOverflow_of_reserveElements) fun _ t h e s' hfail => ?_
      have hedits : s.Edits (fun other => ∃ i, other = elementName name i) t :=
        edits_reserveElements (fun i => ⟨i, rfl⟩) _ _ _ h
      -- the source is still the list that it was
      have hcell := cell?_of_edits hedits (hsource v _ _ hv htype)
      obtain ⟨w, hw, hcopy⟩ : ∃ w, t.symbols.vars.get? source = some w
          ∧ w.type = .list sourceElement sourceLen := by
        unfold Symbols.cell? at hcell
        rw [hv, Option.map_some, Option.map_eq_some_iff] at hcell
        obtain ⟨w, hw, hsame⟩ := hcell
        exact ⟨w, hw, (Prod.mk.inj hsame).2.trans htype⟩
      have hlist : w.type = .list (element.getD sourceElement) sourceLen :=
        hfits.1.symm ▸ hcopy
      obtain ⟨copy, hok⟩ : ∃ copy, (t.env line).copyList name base (element.getD sourceElement)
          (len.getD sourceLen) (.ident source) = .ok copy := Env.exists_copyList hw hlist hfits.2
      rcases bind_eq_error_iff.mp hfail with henv | ⟨_, _, henv, hfail⟩
      · exact env_eq_error_iff.mp henv
      obtain ⟨rfl, rfl⟩ := env_eq_ok_iff.mp henv
      rcases bind_eq_error_iff.mp hfail with hload | ⟨_, _, hload, hfail⟩
      · exact nomatch hok.symm.trans (liftM_eq_error_iff.mp hload).1
      obtain ⟨-, rfl⟩ := liftM_eq_ok_iff.mp hload
      rcases bind_eq_error_iff.mp hfail with hdeclare | ⟨_, _, -, hfail⟩
      · exact declare_ne_error hedits hname _ _ _ hdeclare
      · exact pure_eq_error_iff.mp hfail
    next => exact .of_cautious (.fail _ _) s

/-- Declaring a list from items does not fail once the items have been checked and loaded, as
long as there is room. -/
theorem failsCleanly_fill {name : String} {element : Scalar} {len : Nat} {loads : List Loaded}
    (hname : (s.symbols.vars.contains name && !s.mode.unrolling) = false)
    {v : UInt32 → Variable} {g : UInt32 → Fragment → Fragment} :
    FailsCleanly (do
      let base ← nextAddress
      let code ← fillElements line name element len 0 loads
      declare name (v base) line
      return g base code) s := by
  refine .after .nextAddress .nextAddress fun base _ => ?_
  refine .of_overflow (fun e s' => isOverflow_of_fillElements) fun code t h e s' hfail => ?_
  have hedits : s.Edits (fun other => ∃ i, other = elementName name i) t :=
    edits_fillElements (fun i => ⟨i, rfl⟩) _ _ _ _ h
  rcases bind_eq_error_iff.mp hfail with hdeclare | ⟨_, _, -, hfail⟩
  · exact declare_ne_error hedits hname _ _ _ hdeclare
  · exact pure_eq_error_iff.mp hfail

/-- Finding the element type of a list counts a warning if it is inferred. -/
theorem scope_of_elementType {element : Option Scalar} {items : List Expr} {ty : Scalar}
    (h : elementType line element items s = .ok ty t) :
    t = if (s.env line).infersElement element (some (.list items)) = true
      then { s with warnings := s.warnings + 1 } else s := by
  unfold elementType at h
  split at h
  next => exact (pure_eq_ok_iff.mp h).2.symm
  next first rest =>
    simp only [bind_eq_ok_iff, env_eq_ok_iff, liftM_eq_ok_iff, warn_eq_ok_iff,
      pure_eq_ok_iff] at h
    obtain ⟨_, _, ⟨rfl, rfl⟩, found, _, ⟨hfound, rfl⟩, _, _, rfl, -, rfl⟩ := h
    have hinfers : (s.env line).infersElement none (some (.list (first :: rest))) = true := by
      show ((s.env line).operandType first).isOk = true
      rw [hfound]
      rfl
    exact (if_pos hinfers).symm
  next => exact (pure_eq_ok_iff.mp h).2.symm

/-- A first item without a type is not warned about. -/
theorem not_infers_of_elementType {element : Option Scalar} {items : List Expr}
    (h : elementType line element items s = .error e s') :
    s' = s ∧ (s.env line).infersElement element (some (.list items)) = false := by
  unfold elementType at h
  split at h
  next => exact (pure_eq_error_iff.mp h).elim
  next first rest =>
    simp only [bind_eq_error_iff, env_eq_error_iff, env_eq_ok_iff, liftM_eq_error_iff,
      warn_eq_error_iff, pure_eq_error_iff, false_or, and_false, exists_false, or_false] at h
    obtain ⟨_, _, ⟨rfl, rfl⟩, hfound, rfl⟩ := h
    refine ⟨rfl, ?_⟩
    show ((s.env line).operandType first).isOk = false
    rw [hfound]
    rfl
  next => exact (pure_eq_error_iff.mp h).elim

/-- **A list that is not declared from its items** leaves a warning, if its element type has
been inferred. -/
theorem scope_of_declareItems {name : String} {element : Option Scalar} {len : Option Nat}
    {value : Option Expr} (hname : (s.symbols.vars.contains name && !s.mode.unrolling) = false)
    (h : declareItems line name element len value s = .error e s') (hfault : ¬ e.IsOverflow) :
    s' = if (s.env line).infersElement element value = true
      then { s with warnings := s.warnings + 1 } else s := by
  rcases bind_eq_error_iff.mp h with henv | ⟨_, _, henv, h⟩
  · exact (env_eq_error_iff.mp henv).elim
  obtain ⟨rfl, rfl⟩ := env_eq_ok_iff.mp henv
  rcases bind_eq_error_iff.mp h with hitems | ⟨items, _, hitems, h⟩
  · obtain ⟨hitems, rfl⟩ := liftM_eq_error_iff.mp hitems
    -- a value that lists no elements has no first one
    have hnone : value.bind Expr.elements? = none := by
      unfold Env.initialItems at hitems
      split at hitems
      next => exact nomatch hitems
      next value =>
        split at hitems
        next => exact nomatch hitems
        next hvalue => exact hvalue
    unfold Env.infersElement
    rw [hnone]
    cases element <;> rfl
  obtain ⟨hitems, rfl⟩ := liftM_eq_ok_iff.mp hitems
  have hvalue : (s.env line).infersElement element value
      = (s.env line).infersElement element (some (.list items)) := by
    unfold Env.initialItems at hitems
    split at hitems
    next =>
      cases hitems
      cases element <;> rfl
    next value =>
      split at hitems
      next hvalue =>
        cases hitems
        unfold Env.infersElement
        rw [Option.bind_some, hvalue]
        rfl
      next => exact nomatch hitems
  rw [hvalue]
  rcases bind_eq_error_iff.mp h with htype | ⟨ty, t, htype, h⟩
  · obtain ⟨rfl, hinfers⟩ := not_infers_of_elementType htype
    rw [hinfers]
    rfl
  · rw [← scope_of_elementType htype]
    have hname : (t.symbols.vars.contains name && !t.mode.unrolling) = false := by
      rw [scope_of_elementType htype]
      split <;> exact hname
    -- what follows reads the items in the scope as it is now, and then hands out cells
    refine (FailsCleanly.after (.liftM _) (.liftM _) (fun _ _ => ?_) e s' h).resolve_left hfault
    exact .after (.liftM _) (.liftM _) fun len _ => .after (.liftM _) (.liftM _) fun loads _ =>
      failsCleanly_fill hname

/-- **A list that is not declared** leaves a warning, if its name may be bound and its element
type has been inferred. -/
theorem scope_of_declareList {name : String} {element : Option Scalar} {len : Option Nat}
    {value : Option Expr}
    (hlists : ∀ source v element len, s.symbols.vars.get? source = some v →
      v.type = .list element len → ∀ i, source ≠ elementName name i)
    (h : declareList line name element len value s = .error e s') (hfault : ¬ e.IsOverflow) :
    s' = if (Stmt.declareList line name element len value).infersElement s = true
      then { s with warnings := s.warnings + 1 } else s := by
  rcases bind_eq_error_iff.mp h with hdeclared | ⟨_, _, hundeclared, h⟩
  · obtain ⟨hbound, -, rfl⟩ := ensureUndeclared_eq_error_iff.mp hdeclared
    have hinfers : (Stmt.declareList line name element len value).infersElement s = false := by
      show (!(s.symbols.vars.contains name && !s.mode.unrolling) && _) = false
      rw [hbound]
      rfl
    rw [hinfers]
    rfl
  obtain ⟨hname, rfl⟩ := ensureUndeclared_eq_ok_iff.mp hundeclared
  have hinfers : (Stmt.declareList line name element len value).infersElement s
      = (s.env line).infersElement element value := by
    show (!(s.symbols.vars.contains name && !s.mode.unrolling) && _) = _
    rw [hname]
    rfl
  rw [hinfers]
  split at h
  next source h =>
    have hcopy : (s.env line).infersElement element (some (.ident source)) = false := by
      cases element <;> rfl
    rw [hcopy]
    exact (failsCleanly_declareCopy hname (hlists source) element len e s' h).resolve_left hfault
  next => exact scope_of_declareItems hname h hfault

/-- A list that is declared with its element type leaves nothing. -/
theorem failsCleanly_declareVariable {name : String}
    (hlists : ∀ source v element len, s.symbols.vars.get? source = some v →
      v.type = .list element len → ∀ i, source ≠ elementName name i)
    {type : ValueType} {value : Expr} :
    FailsCleanly (declareVariable line type name value) s := by
  have hlist : ∀ (element : Scalar) (len : Option Nat),
      FailsCleanly (declareList line name (some element) len (some value)) s := by
    intro element len e s' h
    refine or_iff_not_imp_left.mpr fun hfault => ?_
    have hs' := scope_of_declareList hlists h hfault
    rwa [show (Stmt.declareList line name (some element) len (some value)).infersElement s = false
      from Bool.and_false _] at hs'
  unfold declareVariable
  split
  · exact hlist _ _
  · split
    · exact hlist _ _
    · exact failsCleanly_declareCell _ name _ s
  · exact failsCleanly_declareCell _ name _ s

theorem cautious_assign (name : String) (value : Expr) : Cautious (assign line name value) := by
  refine .bind (.lookup name line) (.lookup name line) fun v => .bind (.env line) (.env line)
    fun env => ?_
  split
  · exact .bind (.liftM _) (.liftM _) fun _ => .pure _
  · refine .bind (.liftM _) (.liftM _) fun _ => .bind_of_never (.setValue _ _ _) ?_
    exact fun _ _ _ _ h => pure_eq_error_iff.mp h

theorem cautious_assignAt (name : String) (index value : Expr) :
    Cautious (assignAt line name index value) := by
  refine .bind (.lookup name line) (.lookup name line) fun v => .bind (.env line) (.env line)
    fun env => ?_
  split
  · split
    · refine .bind (.liftM _) (.liftM _) fun _ => .bind (.liftM _) (.liftM _) fun _ =>
        .bind_of_never (.setValue _ _ _) ?_
      exact fun _ _ _ _ h => pure_eq_error_iff.mp h
    · exact .liftM _
  · exact .fail _ _

theorem cautious_directive (region : Region) (address : UInt32) :
    Cautious (Stmt.directive line region address).compile := by
  refine .bind_of_never (.bind .get .get fun s => ?_) fun _ _ _ _ h => pure_eq_error_iff.mp h
  split
  · exact .moveCursor region address line
  · exact .fail _ _

end CompileM

/-- **A statement that is rejected leaves no trace**, save for one warning. In a scope that
compiling can get to, where no statement has declared a name with a bracket, let a statement
without a block fail, and not because the address space is full. Then the scope is what it was
before, unless the statement declares a list whose element type was inferred: then it has one
more warning, and nothing else has changed. -/
theorem Scope.Reached.scope_of_rejected {config : Config} {s s' : Scope} {stmt : Stmt}
    {e : CompileError} (hs : Reached Unbracketed config s) (hsimple : stmt.isSimple = true)
    (h : stmt.compile s = .error e s') (hfault : ¬ e.IsOverflow) :
    s' = if stmt.infersElement s = true then { s with warnings := s.warnings + 1 } else s := by
  have hlists : ∀ name source v element len, s.symbols.vars.get? source = some v →
      v.type = .list element len → ∀ i, source ≠ elementName name i :=
    fun name source v element len hv htype i =>
      (hs.lists source v element len hv htype).1.ne_elementName name i
  cases stmt with
  | declareList line name element len value =>
    exact CompileM.scope_of_declareList (hlists name) h hfault
  | declare line type name value =>
    exact (CompileM.failsCleanly_declareVariable (hlists name) e s' h).resolve_left hfault
  | assign line name value => exact CompileM.cautious_assign name value s e s' h
  | assignAt line name index value => exact CompileM.cautious_assignAt name index value s e s' h
  | call line space name args =>
    exact (CompileM.Cautious.bind .get .get fun _ => .liftM _) s e s' h
  | embed line code =>
    exact (CompileM.Cautious.bind (.env line) (.env line) fun _ => .liftM _) s e s' h
  | poke line address type value =>
    exact (CompileM.Cautious.bind (.env line) (.env line) fun _ => .liftM _) s e s' h
  | directive line region address =>
    exact CompileM.cautious_directive region address s e s' h
  | branch | loop | unroll | function | space | unit => exact nomatch hsimple

namespace Scope

/-- A list is not copied to a shorter one, and nothing is left of the copy. -/
theorem scope_of_rejected_shortCopy :
    ∃ e, (Stmt.declareList 2 "ys" none (some 1) (some (.ident "xs"))).compile holdingPair
      = .error e holdingPair := by
  have hfails : CompileM.failure?
      (Stmt.declareList 2 "ys" none (some 1) (some (.ident "xs"))).compile holdingPair
      = some ⟨2, .typeMismatch "ys" (.exact (.list .int 2)) (.exact (.list .int 1))⟩ := by
    decide +kernel
  have h := CompileM.eq_error_of_failure? hfails
  have hname : Unbracketed "xs" := by decide
  have hs' := (reached_holdingPair hname).scope_of_rejected rfl h fun ⟨_, _, heq⟩ => by cases heq
  exact ⟨_, h.trans (congrArg _ hs')⟩

/-- **A warning stays counted** when the second item of a list is not of the type of the
first. -/
theorem warning_of_rejected :
    ¬ ∀ (s s' : Scope) (stmt : Stmt) (e : CompileError), Reached Unbracketed {} s →
      stmt.isSimple = true → stmt.compile s = .error e s' → ¬ e.IsOverflow → s' = s := by
  intro hclean
  have hfails : CompileM.failure?
      (Stmt.declareList 1 "xs" none none (some (.list [.int 1, .char 97]))).compile (.root {})
      = some ⟨1, .typeMismatch "xs[1]" (.exact (.scalar .char)) (.exact (.scalar .int))⟩ := by
    decide +kernel
  have hwarnings : (CompileM.scopeAfter
      (Stmt.declareList 1 "xs" none none (some (.list [.int 1, .char 97]))).compile
      (.root {})).warnings = 1 := by decide +kernel
  have hsame := hclean _ _ _ _ (.start _ _) rfl (CompileM.eq_error_of_failure? hfails)
    fun ⟨_, _, heq⟩ => by cases heq
  have hnone : (Scope.root {}).warnings = 1 :=
    (congrArg Scope.warnings hsame).symm.trans hwarnings
  exact Nat.zero_ne_one hnone

end Scope

end RegMachine
