import RegMachine.Proofs.Cells
import RegMachine.Proofs.Streams

/-!
# Tables that hold their lists

A list is a variable that records an element type, a length and an address, and
beside it there is a variable for each element. Nothing ties the two together but
the way lists are declared. `Table.LaidOut` says what they come to: for every header
the elements are bound one behind the other from its address on, and they end before
the next free address. This module shows that every declaration keeps a table so.

While a list is being declared again its old header stands beside its new elements,
so a table is laid out between statements only, and a declaration is taken as a
whole: the elements that it binds (`Symbols.Fills`), and then the header. That it
does not disturb another list is a matter of names. The name of an element has a
bracket in it, and if no name that a program declares has one, then no element takes
the place of a header, and the elements of two lists have different names
(`elementName_inj`).
-/

namespace RegMachine

/-! ## Names of elements -/

/-- **A name without a bracket**, as no element has it. -/
def Unbracketed (name : String) : Prop := '[' ∉ name.toList

instance (name : String) : Decidable (Unbracketed name) :=
  inferInstanceAs (Decidable ('[' ∉ name.toList))

theorem toList_elementName (list : String) (index : Nat) :
    (elementName list index).toList = list.toList ++ '[' :: (Nat.toDigits 10 index ++ [']']) := by
  unfold elementName
  rw [String.toList_append, String.toList_append, String.toList_append, Text.toList_decimal,
    List.append_assoc, List.append_assoc]
  rfl

/-- **Names of elements are bracketed**, so no declared name is one. -/
theorem not_unbracketed_elementName (list : String) (index : Nat) :
    ¬ Unbracketed (elementName list index) := by
  unfold Unbracketed
  rw [toList_elementName, not_not]
  exact List.mem_append_right _ List.mem_cons_self

theorem Unbracketed.ne_elementName {name : String} (h : Unbracketed name) (list : String)
    (index : Nat) : name ≠ elementName list index :=
  fun heq => not_unbracketed_elementName list index (heq ▸ h)

/-- **The name of an element tells its list and index**, if lists have names without a
bracket. -/
theorem elementName_inj {list list' : String} {index index' : Nat} (h : Unbracketed list)
    (h' : Unbracketed list') (heq : elementName list index = elementName list' index') :
    list = list' ∧ index = index' := by
  have hchars := congrArg String.toList heq
  rw [toList_elementName, toList_elementName] at hchars
  -- the name of the list ends at the first bracket
  have htake :
      ∀ {cs rest : List Char}, '[' ∉ cs → (cs ++ '[' :: rest).takeWhile (· ≠ '[') = cs := by
    intro cs rest hcs
    have hother : ∀ c ∈ cs, decide (c ≠ '[') = true :=
      fun c hc => decide_eq_true fun heq => hcs (heq ▸ hc)
    rw [List.takeWhile_append_of_pos hother, List.takeWhile_cons_of_neg (by decide),
      List.append_nil]
  have hlist : list.toList = list'.toList := by
    have htaken := congrArg (List.takeWhile (· ≠ '[')) hchars
    rwa [htake h, htake h'] at htaken
  rw [hlist] at hchars
  have hdigits := List.append_cancel_right (List.cons.inj (List.append_cancel_left hchars)).2
  exact ⟨String.toList_injective hlist, Text.toDigits_injective hdigits⟩

/-! ## Tables that are laid out -/

/-- **A table holds a list** that a header describes: the elements are bound one behind
the other from its address on, and end before a cursor. -/
structure Table.HoldsList (vars : Table Variable) (cursor : UInt32) (name : String)
    (base : UInt32) (element : Scalar) (len : Nat) : Prop where
  unbracketed : Unbracketed name
  elements : ∀ i < len, ∃ v, vars.get? (elementName name i) = some v ∧ v.type = .scalar element
    ∧ v.address.toNat = base.toNat + i * element.size
  within : base.toNat + len * element.size ≤ cursor.toNat

/-- **A table is laid out** up to a cursor: it holds every list that it has a header
of. -/
def Table.LaidOut (cursor : UInt32) (vars : Table Variable) : Prop :=
  ∀ name v element len, vars.get? name = some v → v.type = .list element len →
    vars.HoldsList cursor name v.address element len

namespace Table

variable {vars vars' : Table Variable} {cursor cursor' base : UInt32} {name : String}
  {element : Scalar} {len : Nat}

/-- A list is held on as long as its elements keep their types and addresses. -/
theorem HoldsList.keep (h : vars.HoldsList cursor name base element len) (hle : cursor ≤ cursor')
    (hkeep : ∀ i v, vars.get? (elementName name i) = some v →
      ∃ w, vars'.get? (elementName name i) = some w ∧ w.type = v.type ∧ w.address = v.address) :
    vars'.HoldsList cursor' name base element len where
  unbracketed := h.unbracketed
  elements i hi := by
    obtain ⟨v, hv, htype, haddress⟩ := h.elements i hi
    obtain ⟨w, hw, htype', haddress'⟩ := hkeep i v hv
    exact ⟨w, hw, htype'.trans htype, haddress' ▸ haddress⟩
  within := Nat.le_trans h.within (UInt32.le_iff_toNat_le.mp hle)

/-- Lists stay below a cursor that moves up. -/
theorem LaidOut.mono (h : vars.LaidOut cursor) (hle : cursor ≤ cursor') : vars.LaidOut cursor' :=
  fun name v element len hv htype =>
    (h name v element len hv htype).keep hle fun _ w hw => ⟨w, hw, rfl, rfl⟩

theorem laidOut_empty (cursor : UInt32) : (∅ : Table Variable).LaidOut cursor := nofun

/-- **A cell under a name without a bracket** takes the place of no element. -/
theorem LaidOut.insertCell (h : vars.LaidOut cursor) (hname : Unbracketed name) {v : Variable}
    (hv : v.type.isList = false) : (vars.insert name v).LaidOut cursor := by
  intro other w element len hw htype
  by_cases hother : other = name
  · subst hother
    rw [get?_insert_self, Option.some.injEq] at hw
    subst hw
    rw [htype] at hv
    exact nomatch hv
  · rw [get?_insert_of_ne vars hother] at hw
    refine (h other w element len hw htype).keep (UInt32.le_refl _) fun i x hx =>
      ⟨x, ?_, rfl, rfl⟩
    rw [get?_insert_of_ne vars (hname.ne_elementName other i).symm]
    exact hx

/-- Recording a value changes no type and no address. -/
theorem LaidOut.setValue (h : vars.LaidOut cursor) {v : Variable} (hv : vars.get? name = some v)
    (value : Stored) : (vars.insert name { v with value := value }).LaidOut cursor := by
  have hkeep : ∀ other w, vars.get? other = some w →
      ∃ x, (vars.insert name { v with value := value }).get? other = some x ∧ x.type = w.type
        ∧ x.address = w.address := by
    intro other w hw
    by_cases hother : other = name
    · subst hother
      cases hv.symm.trans hw
      exact ⟨_, get?_insert_self _ _ _, rfl, rfl⟩
    · exact ⟨w, (get?_insert_of_ne vars hother _).trans hw, rfl, rfl⟩
  intro other w element len hw htype
  by_cases hother : other = name
  · subst hother
    rw [get?_insert_self, Option.some.injEq] at hw
    subst hw
    exact (h other v element len hv htype).keep (UInt32.le_refl _) fun i => hkeep _
  · rw [get?_insert_of_ne vars hother] at hw
    exact (h other w element len hw htype).keep (UInt32.le_refl _) fun i => hkeep _

end Table

/-! ## Declaring a list -/

/-- **The elements of a list have been bound**, so many from an index on: each got the
next cell, and no other name is bound anew. -/
structure Symbols.Fills (list : String) (element : Scalar) (index count : Nat)
    (s t : Symbols Function Namespace) : Prop where
  cursor : t.nextAddress.toNat = s.nextAddress.toNat + count * element.size
  elements : ∀ k < count, ∃ v, t.vars.get? (elementName list (index + k)) = some v
    ∧ v.type = .scalar element ∧ v.address.toNat = s.nextAddress.toNat + k * element.size
  others : ∀ other, (∀ k < count, other ≠ elementName list (index + k)) →
    t.vars.get? other = s.vars.get? other
  functions : t.functions = s.functions
  namespaces : t.namespaces = s.namespaces

namespace Symbols.Fills

variable {list : String} {element : Scalar} {index count : Nat} {s t : Symbols Function Namespace}

/-- No elements change nothing. -/
protected theorem zero (s : Symbols Function Namespace) : Fills list element index 0 s s where
  cursor := by rw [Nat.zero_mul, Nat.add_zero]
  elements := nofun
  others _ _ := rfl
  functions := rfl
  namespaces := rfl

/-- One element is bound, then the others behind it. -/
protected theorem succ (hlist : Unbracketed list) (value : Stored)
    (hroom : s.nextAddress.toNat + element.size < UInt32.size)
    (h : Fills list element (index + 1) count
      ({ s with nextAddress := addressAfter s.nextAddress element.size }.insertVariable
        (elementName list index) ⟨s.nextAddress, .scalar element, value⟩) t) :
    Fills list element index (count + 1) s t := by
  have hfirst :
      (addressAfter s.nextAddress element.size).toNat = s.nextAddress.toNat + element.size :=
    toNat_addressAfter hroom
  have hnext : ∀ k, index + 1 + k = index + (k + 1) := fun k => by omega
  refine ⟨?_, ?_, ?_, h.functions, h.namespaces⟩
  · have hcursor : t.nextAddress.toNat
        = (addressAfter s.nextAddress element.size).toNat + count * element.size := h.cursor
    rw [hcursor, hfirst, Nat.succ_mul]
    omega
  · intro k hk
    cases k with
    | zero =>
      -- the elements behind the first have other names
      have hne :
          ∀ k < count, elementName list (index + 0) ≠ elementName list (index + 1 + k) := by
        intro k _ heq
        have hindex := (elementName_inj hlist hlist heq).2
        omega
      refine ⟨⟨s.nextAddress, .scalar element, value⟩, ?_, rfl, ?_⟩
      · rw [h.others _ hne]
        exact Table.get?_insert_self _ _ _
      · rw [Nat.zero_mul, Nat.add_zero]
    | succ k =>
      obtain ⟨v, hv, htype, haddress⟩ := h.elements k (Nat.lt_of_succ_lt_succ hk)
      rw [hnext] at hv
      refine ⟨v, hv, htype, haddress.trans ?_⟩
      show (addressAfter s.nextAddress element.size).toNat + k * element.size = _
      rw [hfirst, Nat.succ_mul]
      omega
  · intro other hother
    rw [h.others other fun k hk => by
      rw [hnext]
      exact hother (k + 1) (Nat.succ_lt_succ hk)]
    exact Table.get?_insert_of_ne _ (hother 0 (Nat.succ_pos _)) _

end Symbols.Fills

namespace CompileM

variable {line : Nat} {list : String} {element : Scalar} {count index : Nat} {s s' : Scope}

/-- Reserving binds each element at the cursor, uninitialised. -/
theorem fills_of_reserveElements (hlist : Unbracketed list) {u : Unit}
    (h : reserveElements line list element count index s = .ok u s') :
    s.symbols.Fills list element index count s'.symbols := by
  induction count generalizing index s with
  | zero =>
    obtain ⟨-, rfl⟩ := pure_eq_ok_iff.mp h
    exact .zero _
  | succ count ih =>
    rw [reserveElements] at h
    simp only [bind_eq_ok_iff, allocate_eq_ok_iff, bindVariable_eq_ok_iff] at h
    obtain ⟨_, _, ⟨hroom, rfl, rfl⟩, _, _, rfl, h⟩ := h
    exact .succ hlist .zeroed hroom (ih h)

/-- **Filling binds as reserving does**; only the values differ. -/
theorem fills_of_fillElements (hlist : Unbracketed list) {loads : List Loaded} {code : Fragment}
    (h : fillElements line list element count index loads s = .ok code s') :
    s.symbols.Fills list element index count s'.symbols := by
  induction count generalizing index loads code s with
  | zero =>
    obtain ⟨-, rfl⟩ := pure_eq_ok_iff.mp h
    exact .zero _
  | succ count ih =>
    cases loads with
    | nil =>
      rw [fillElements] at h
      simp only [bind_eq_ok_iff, allocate_eq_ok_iff, bindVariable_eq_ok_iff, pure_eq_ok_iff] at h
      obtain ⟨_, _, ⟨hroom, rfl, rfl⟩, _, _, rfl, _, _, h, -, rfl⟩ := h
      exact .succ hlist .zeroed hroom (ih h)
    | cons loaded rest =>
      rw [fillElements] at h
      simp only [bind_eq_ok_iff, allocate_eq_ok_iff, bindVariable_eq_ok_iff, pure_eq_ok_iff] at h
      obtain ⟨_, _, ⟨hroom, rfl, rfl⟩, _, _, rfl, _, _, h, -, rfl⟩ := h
      exact .succ hlist loaded.value hroom (ih h)

end CompileM

/-- **A list is declared**: when its elements have been bound and then its header, the
table is laid out again. -/
theorem Symbols.Fills.laidOut {list : String} {element : Scalar} {count : Nat}
    {s t : Symbols Function Namespace} (h : s.Fills list element 0 count t)
    (hlist : Unbracketed list) (hs : s.vars.LaidOut s.nextAddress) (value : Stored) :
    (t.vars.insert list ⟨s.nextAddress, .list element count, value⟩).LaidOut t.nextAddress := by
  have hle : s.nextAddress ≤ t.nextAddress := by
    rw [UInt32.le_iff_toNat_le, h.cursor]
    exact Nat.le_add_right _ _
  have helements : ∀ name i, (t.vars.insert list ⟨s.nextAddress, .list element count, value⟩).get?
      (elementName name i) = t.vars.get? (elementName name i) :=
    fun name i => Table.get?_insert_of_ne _ (hlist.ne_elementName name i).symm _
  intro name v element' len hv htype
  by_cases hname : name = list
  · subst hname
    rw [Table.get?_insert_self, Option.some.injEq] at hv
    subst hv
    cases htype
    refine ⟨hlist, fun i hi => ?_, Nat.le_of_eq h.cursor.symm⟩
    obtain ⟨w, hw, hw'⟩ := h.elements i hi
    rw [Nat.zero_add] at hw
    exact ⟨w, (helements name i).trans hw, hw'⟩
  · rw [Table.get?_insert_of_ne _ hname] at hv
    -- a list is not one of the elements that were bound, as these are scalars
    have hold : s.vars.get? name = some v := by
      rw [← h.others name fun k hk hk' => ?_]
      · exact hv
      · obtain ⟨w, hw, hscalar, -⟩ := h.elements k hk
        rw [← hk', hv] at hw
        cases hw
        exact nomatch hscalar.symm.trans htype
    have hbefore := hs name v element' len hold htype
    refine hbefore.keep hle fun i w hw => ⟨w, ?_, rfl, rfl⟩
    rw [helements, h.others _ fun k _ heq => ?_]
    · exact hw
    · exact hname (elementName_inj hbefore.unbracketed hlist heq).1

/-! ## Symbols that are laid out -/

/-- **A function is laid out** up to a cursor: the table that it records is, and its
parameters end before the cursor. Those of a function that is compiled to its end
lie before the cursor of its record, too. -/
structure Function.LaidOut (pending : Function → Prop) (cursor : UInt32) (f : Function) :
    Prop where
  vars : f.symbols.vars.LaidOut f.symbols.nextAddress
  le : f.symbols.nextAddress ≤ cursor
  params : ∀ p ∈ f.params, p.address.toNat + p.type.extent ≤ cursor.toNat
  complete : pending f ∨
    ∀ p ∈ f.params, p.address.toNat + p.type.extent ≤ f.symbols.nextAddress.toNat

/-- **Symbols are laid out**: the variables are, and so are the functions that calls can
mean. Some of these may be pending, as in their own bodies. -/
structure Symbols.LaidOut (pending : Function → Prop) (s : Symbols Function Namespace) :
    Prop where
  vars : s.vars.LaidOut s.nextAddress
  functions : ∀ name f, s.functions.get? name = some f → f.LaidOut pending s.nextAddress
  namespaces : ∀ space n, s.namespaces.get? space = some n →
    ∀ name f, n.symbols.functions.get? name = some f → f.LaidOut pending s.nextAddress

variable {pending pending' : Function → Prop}

/-- The lists of a function stay laid out while the cursor moves up and more functions
are pending. -/
theorem Function.LaidOut.mono {cursor cursor' : UInt32} {f : Function}
    (h : f.LaidOut pending cursor) (hle : cursor ≤ cursor')
    (hpending : ∀ g, pending g → pending' g) : f.LaidOut pending' cursor' where
  vars := h.vars
  le := UInt32.le_trans h.le hle
  params p hp := Nat.le_trans (h.params p hp) (UInt32.le_iff_toNat_le.mp hle)
  complete := h.complete.imp_left (hpending f)

namespace Symbols.LaidOut

variable {s t : Symbols Function Namespace}

theorem weaken (h : s.LaidOut pending) (hpending : ∀ g, pending g → pending' g) :
    s.LaidOut pending' where
  vars := h.vars
  functions name f hf := (h.functions name f hf).mono (UInt32.le_refl _) hpending
  namespaces space n hn name f hf :=
    (h.namespaces space n hn name f hf).mono (UInt32.le_refl _) hpending

theorem startingAt (nextAddress nextDataAddress : UInt32) :
    LaidOut pending (Symbols.startingAt nextAddress nextDataAddress) :=
  ⟨Table.laidOut_empty _, nofun, nofun⟩

/-- Variables may change as long as they are laid out, and the cursor may move
forward. -/
theorem revars (h : s.LaidOut pending) (hvars : t.vars.LaidOut t.nextAddress)
    (hle : s.nextAddress ≤ t.nextAddress) (hfunctions : t.functions = s.functions)
    (hnamespaces : t.namespaces = s.namespaces) : t.LaidOut pending where
  vars := hvars
  functions name f hf := (h.functions name f (hfunctions ▸ hf)).mono hle fun _ => id
  namespaces space n hn name f hf :=
    (h.namespaces space n (hnamespaces ▸ hn) name f hf).mono hle fun _ => id

theorem moveCursor (h : s.LaidOut pending) {address : UInt32} (hle : s.nextAddress ≤ address) :
    LaidOut pending { s with nextAddress := address } :=
  h.revars (h.vars.mono hle) hle rfl rfl

theorem setValue (h : s.LaidOut pending) {name : String} {v : Variable}
    (hv : s.vars.get? name = some v) (value : Stored) :
    LaidOut pending (s.insertVariable name { v with value := value }) :=
  h.revars (h.vars.setValue hv value) (UInt32.le_refl _) rfl rfl

/-- **A cell is declared.** -/
theorem bindCell (h : s.LaidOut pending) {name : String} (hname : Unbracketed name)
    {type : ValueType} (htype : type.isList = false) (value : Stored)
    (hroom : s.nextAddress.toNat + type.size < UInt32.size) :
    LaidOut pending ({ s with nextAddress := addressAfter s.nextAddress type.size }.insertVariable
      name ⟨s.nextAddress, type, value⟩) :=
  h.revars ((h.vars.mono (le_addressAfter hroom)).insertCell hname htype) (le_addressAfter hroom)
    rfl rfl

/-- **A list is declared.** -/
theorem bindList (h : s.LaidOut pending) {list : String} (hlist : Unbracketed list)
    {element : Scalar} {count : Nat} (hfills : s.Fills list element 0 count t) (value : Stored) :
    LaidOut pending (t.insertVariable list ⟨s.nextAddress, .list element count, value⟩) := by
  refine h.revars (hfills.laidOut hlist h.vars value) ?_ hfills.functions hfills.namespaces
  show s.nextAddress ≤ t.nextAddress
  rw [UInt32.le_iff_toNat_le, hfills.cursor]
  exact Nat.le_add_right _ _

/-- A function is laid out if its own lists are; variables stay as they are. -/
theorem insertFunction (h : s.LaidOut pending) (name : String) {f : Function}
    (hf : f.LaidOut pending s.nextAddress) : LaidOut pending (s.insertFunction name f) := by
  refine ⟨h.vars, fun other g hg => ?_, h.namespaces⟩
  unfold Symbols.insertFunction at hg
  by_cases hname : other = name
  · subst hname
    rw [Table.get?_insert_self] at hg
    exact Option.some.inj hg ▸ hf
  · rw [Table.get?_insert_of_ne _ hname] at hg
    exact h.functions other g hg

theorem insertNamespace (h : s.LaidOut pending) (space : String) {n : Namespace}
    (hn : ∀ name f, n.symbols.functions.get? name = some f → f.LaidOut pending s.nextAddress) :
    LaidOut pending (s.insertNamespace space n) := by
  refine ⟨h.vars, h.functions, fun other m hm => ?_⟩
  unfold Symbols.insertNamespace at hm
  by_cases hname : other = space
  · subst hname
    rw [Table.get?_insert_self] at hm
    exact Option.some.inj hm ▸ hn
  · rw [Table.get?_insert_of_ne _ hname] at hm
    exact h.namespaces other m hm

/-- What binds no names keeps symbols laid out. -/
theorem of_steps (hsteps : Relation.ReflTransGen (Symbols.Step fun _ => False) s t)
    (h : s.LaidOut pending) : t.LaidOut pending := by
  induction hsteps with
  | refl => exact h
  | tail _ hstep ih =>
    cases hstep with
    | moveCursor hle => exact ih.moveCursor hle
    | moveDataCursor => exact ih.revars ih.vars (UInt32.le_refl _) rfl rfl
    | bindCell _ _ hname => exact hname.elim
    | bindList _ _ _ _ hname => exact hname.elim
    | setValue value hv => exact ih.setValue hv value

/-- Symbols that import from others are laid out if both are. -/
theorem of_imports {source result : Symbols Function Namespace}
    (himports : Imports source s result)
    (h : s.LaidOut pending) (hsource : source.LaidOut pending)
    (hle : source.nextAddress ≤ s.nextAddress) : result.LaidOut pending where
  vars := by
    rw [himports.vars, himports.nextAddress]
    exact h.vars
  functions name f hf := by
    rw [himports.nextAddress]
    rcases himports.functions name f hf with hf | hf
    · exact h.functions name f hf
    · exact (hsource.functions name f hf).mono hle fun _ => id
  namespaces space n hn name f hf := by
    rw [himports.nextAddress]
    rcases himports.namespaces space n hn with hn | hn
    · exact h.namespaces space n hn name f hf
    · exact (hsource.namespaces space n hn name f hf).mono hle fun _ => id

end Symbols.LaidOut

/-! ## Declarations -/

namespace CompileM

variable {line : Nat} {name : String} {s s' : Scope} {code : Fragment}

/-- Finding the type of the elements binds nothing. -/
theorem symbols_of_elementType {element : Option Scalar} {items : List Expr} {ty : Scalar}
    (h : elementType line element items s = .ok ty s') : s'.symbols = s.symbols := by
  unfold elementType at h
  split at h
  · obtain ⟨-, rfl⟩ := pure_eq_ok_iff.mp h
    rfl
  · simp only [bind_eq_ok_iff, env_eq_ok_iff, liftM_eq_ok_iff, warn_eq_ok_iff,
      pure_eq_ok_iff] at h
    obtain ⟨_, _, ⟨rfl, rfl⟩, _, _, ⟨-, rfl⟩, _, _, rfl, -, rfl⟩ := h
    rfl
  · obtain ⟨-, rfl⟩ := pure_eq_ok_iff.mp h
    rfl

/-- **Declaring a list** binds its elements and then its header. -/
theorem exists_fills_of_declareList (hname : Unbracketed name) {element : Option Scalar}
    {len : Option Nat} {value : Option Expr}
    (h : declareList line name element len value s = .ok code s') :
    ∃ t element len value, s.symbols.Fills name element 0 len t
      ∧ s'.symbols = t.insertVariable name ⟨s.symbols.nextAddress, .list element len, value⟩ := by
  obtain ⟨_, _, hundeclared, h⟩ := bind_eq_ok_iff.mp h
  obtain ⟨-, rfl⟩ := ensureUndeclared_eq_ok_iff.mp hundeclared
  split at h
  next source =>
    obtain ⟨w, _, hlookup, h⟩ := bind_eq_ok_iff.mp h
    obtain ⟨-, rfl⟩ := lookup_eq_ok_iff.mp hlookup
    cases htype : w.type with
    | list sourceElement sourceLen =>
      rw [htype] at h
      dsimp only at h
      split at h
      · simp only [bind_eq_ok_iff, nextAddress_eq_ok_iff, env_eq_ok_iff, liftM_eq_ok_iff,
          declare_eq_ok_iff, pure_eq_ok_iff] at h
        obtain ⟨_, _, ⟨rfl, rfl⟩, _, t, ht, _, _, ⟨-, rfl⟩, _, _, ⟨-, rfl⟩, _, _, ⟨-, rfl⟩, -,
          rfl⟩ := h
        exact ⟨t.symbols, _, _, _, fills_of_reserveElements hname ht, rfl⟩
      · exact (fail_eq_ok_iff.mp h).elim
    | scalar ty =>
      rw [htype] at h
      exact (fail_eq_ok_iff.mp h).elim
    | pointer target =>
      rw [htype] at h
      exact (fail_eq_ok_iff.mp h).elim
  next =>
    unfold declareItems at h
    simp only [bind_eq_ok_iff, env_eq_ok_iff, nextAddress_eq_ok_iff, liftM_eq_ok_iff,
      declare_eq_ok_iff, pure_eq_ok_iff] at h
    obtain ⟨_, _, ⟨-, rfl⟩, _, _, ⟨-, rfl⟩, _, u, hu, _, _, ⟨-, rfl⟩, _, _, ⟨-, rfl⟩, _, _,
      ⟨-, rfl⟩, _, _, ⟨rfl, rfl⟩, _, t, ht, _, _, ⟨-, rfl⟩, -, rfl⟩ := h
    have hfills := fills_of_fillElements hname ht
    rw [symbols_of_elementType hu] at hfills ⊢
    exact ⟨t.symbols, _, _, _, hfills, rfl⟩

theorem laidOut_declareList (hname : Unbracketed name) (hs : s.symbols.LaidOut pending)
    {element : Option Scalar} {len : Option Nat} {value : Option Expr}
    (h : declareList line name element len value s = .ok code s') :
    s'.symbols.LaidOut pending := by
  obtain ⟨t, element, len, value, hfills, heq⟩ := exists_fills_of_declareList hname h
  rw [heq]
  exact hs.bindList hname hfills value

/-- A single cell is named without brackets, so it is no element of a list. -/
theorem laidOut_declareCell (hname : Unbracketed name) (hs : s.symbols.LaidOut pending)
    {type : ValueType} (htype : type.isList = false) {value : Expr}
    (h : declareCell line type name value s = .ok code s') : s'.symbols.LaidOut pending := by
  unfold declareCell at h
  simp only [bind_eq_ok_iff, ensureUndeclared_eq_ok_iff, env_eq_ok_iff, liftM_eq_ok_iff,
    allocate_eq_ok_iff, declare_eq_ok_iff, pure_eq_ok_iff] at h
  obtain ⟨_, _, ⟨-, rfl⟩, _, _, ⟨rfl, rfl⟩, loaded, _, ⟨-, rfl⟩, _, _, ⟨hroom, rfl, rfl⟩, _, _,
    ⟨-, rfl⟩, -, rfl⟩ := h
  exact hs.bindCell hname htype loaded.value hroom

theorem laidOut_declareVariable (hname : Unbracketed name) (hs : s.symbols.LaidOut pending)
    {type : ValueType} {value : Expr}
    (h : declareVariable line type name value s = .ok code s') : s'.symbols.LaidOut pending := by
  unfold declareVariable at h
  split at h
  · exact laidOut_declareList hname hs h
  · split at h
    · exact laidOut_declareList hname hs h
    · exact laidOut_declareCell hname hs rfl h
  next hlist _ =>
    refine laidOut_declareCell hname hs ?_ h
    cases type with
    | list element len => exact (hlist element len rfl).elim
    | scalar | pointer => rfl

theorem laidOut_declareParams {formals : List Formal} {params : List Param}
    (hnames : ∀ p ∈ formals, Unbracketed p.name) (hs : s.symbols.LaidOut pending)
    (h : declareParams line formals s = .ok params s') : s'.symbols.LaidOut pending := by
  induction formals generalizing s params with
  | nil =>
    obtain ⟨-, rfl⟩ := pure_eq_ok_iff.mp h
    exact hs
  | cons p rest ih =>
    obtain ⟨hname, hnames⟩ := List.forall_mem_cons.mp hnames
    obtain ⟨t, more, hreserve, hrest, -⟩ := declareParams_cons_eq_ok_iff.mp h
    refine ih hnames ?_ hrest
    obtain ⟨name, type⟩ := p
    cases type with
    | list element len =>
      exact hs.bindList hname (fills_of_reserveElements hname hreserve) .zeroed
    | scalar | pointer =>
      obtain ⟨_, hallocate, -⟩ := map_eq_ok_iff.mp hreserve
      obtain ⟨hroom, -, rfl⟩ := allocate_eq_ok_iff.mp hallocate
      exact hs.bindCell hname rfl .zeroed hroom

end CompileM

end RegMachine
