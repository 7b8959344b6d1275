import Mathlib.Data.List.Forall2
import RegMachine.Proofs.Unread

/-!
# Code up to addresses

The addresses of variables come into code in one place only, as the word that an
`ldr` loads. What is left of code without these words, and without the wording of
comments, is its *skeleton*: every label, and every instruction with its registers
and its other operands.

A word is loaded to be used, so code never stops at such a load
(`Fragment.Complete`). Fragments that have the same skeleton and are complete
*match*, and in their texts an address always stands at the end of a line.

Two environments that bind the same names to variables of the same types need not
agree on any address. Still, whatever is compiled against one is compiled against
the other, to code of the same skeleton, or is refused with the same error
(`SameOutcome`). There is one lemma for each function on environments, by the
steps of that function.
-/

namespace RegMachine

variable {ε α β γ δ : Type}

/-! ## Skeletons -/

/-- **An item up to addresses**: the word that is loaded and the text of a comment are
left out. -/
def Item.skeleton : Item → Item
  | instr (.ldr rd (.hex _)) => instr (.ldr rd (.hex 0))
  | comment _ => comment ""
  | item => item

/-- Items that are the same up to addresses are the same, or two comments, or loads of two
words into the same register. -/
theorem Item.cases_of_skeleton {a b : Item} (h : a.skeleton = b.skeleton) :
    a = b ∨ (∃ text text', a = .comment text ∧ b = .comment text')
      ∨ ∃ rd word word', a = .ldr rd (.hex word) ∧ b = .ldr rd (.hex word') := by
  unfold skeleton at h
  split at h
  next rd word =>
    split at h
    next rd' word' =>
      cases h
      exact .inr (.inr ⟨rd, word, word', rfl, rfl⟩)
    next => exact nomatch h
    next b hload _ => exact absurd h.symm (hload rd 0)
  next text =>
    split at h
    next => exact nomatch h
    next text' => exact .inr (.inl ⟨text, text', rfl, rfl⟩)
    next b _ hcomment => exact absurd h.symm (hcomment "")
  next a hload hcomment =>
    split at h
    next rd word => exact absurd h (hload rd 0)
    next text => exact absurd h (hcomment "")
    next => exact .inl h

/-- **Two fragments are similar**: they are the same, item by item, up to addresses. -/
def Fragment.Similar (f g : Fragment) : Prop := f.map Item.skeleton = g.map Item.skeleton

namespace Fragment.Similar

variable {f g f' g' : Fragment}

/-- A fragment has its own skeleton. -/
protected theorem refl (f : Fragment) : Similar f f := rfl

/-- Skeletons are put together as fragments are. -/
protected theorem append (h : Similar f g) (h' : Similar f' g') :
    Similar (f ++ f') (g ++ g') := by
  unfold Similar
  rw [List.map_append, List.map_append, h, h']

protected theorem cons {a b : Item} (hitem : a.skeleton = b.skeleton) (h : Similar f g) :
    Similar (a :: f) (b :: g) := by
  unfold Similar
  rw [List.map_cons, List.map_cons, hitem, h]

/-- The sequences for memory load an address first, and it is all that the two differ in. -/
protected theorem storeTo (a b : UInt32) (width : Width) :
    Similar (storeTo a width) (storeTo b width) :=
  rfl

protected theorem storeZero (a b : UInt32) (width : Width) :
    Similar (storeZero a width) (storeZero b width) :=
  rfl

protected theorem loadFrom (a b : UInt32) (width : Width) :
    Similar (loadFrom a width) (loadFrom b width) :=
  rfl

/-- Before a copy of an unrolled loop its index is stored, in cells that may lie apart. -/
protected theorem setIndex (var : String) (a b : UInt32) (index : Nat) :
    Similar (setIndex var a index) (setIndex var b index) :=
  rfl

/-- **Similar fragments define the same labels.** -/
theorem labels (h : Similar f g) : f.labels = g.labels := by
  have hskeleton : ∀ f : Fragment, f.labels = (f.map Item.skeleton).filterMap Item.label? := by
    intro f
    unfold Fragment.labels
    rw [List.filterMap_map]
    refine congrArg (List.filterMap · f) (funext fun item => ?_)
    unfold Function.comp Item.skeleton
    split <;> rfl
  rw [hskeleton f, h, hskeleton g]

end Fragment.Similar

/-! ## Complete code -/

/-- Whether an item loads a word. -/
def Item.loadsWord : Item → Bool
  | instr (.ldr _ (.hex _)) => true
  | _ => false

/-- The last item of a fragment that is no comment. -/
def Fragment.last? (f : Fragment) : Option Item :=
  (f.filter fun item => !item.isComment).getLast?

/-- The last item of a whole is that of its second part, if this has one. -/
theorem Fragment.last?_append (f g : Fragment) : (f ++ g).last? = g.last?.or f.last? := by
  unfold last?
  rw [List.filter_append, List.getLast?_append]

/-- **A fragment is complete**: it does not stop at the load of a word. -/
def Fragment.Complete (f : Fragment) : Prop := ∀ item ∈ f.last?, item.loadsWord = false

/-- **Two fragments match**: they are similar and complete. -/
structure Fragment.Matches (f g : Fragment) : Prop where
  similar : f.Similar g
  complete : f.Complete

namespace Fragment.Matches

variable {f g f' g' : Fragment}

protected theorem nil : Matches [] [] := ⟨.refl [], nofun⟩

/-- **Matching fragments may be put together.** The last item of the whole comes from one of
its parts. -/
protected theorem append (h : Matches f g) (h' : Matches f' g') :
    Matches (f ++ f') (g ++ g') := by
  refine ⟨h.similar.append h'.similar, fun item hitem => ?_⟩
  rw [last?_append, Option.mem_def, Option.or_eq_some_iff] at hitem
  obtain hitem | ⟨-, hitem⟩ := hitem
  · exact h'.complete item hitem
  · exact h.complete item hitem

/-- Similar fragments match if what they end with does not load a word. -/
theorem append_of_last? (h : Similar f g) (h' : Similar f' g') {item : Item}
    (hlast : last? f' = some item) (hitem : item.loadsWord = false) :
    Matches (f ++ f') (g ++ g') := by
  refine ⟨h.append h', fun other hother => ?_⟩
  rw [last?_append, hlast] at hother
  cases hother
  exact hitem

/-- Comments match whatever they say, since their wording may hold addresses. -/
protected theorem comment_cons (text text' : String) (h : Matches f g) :
    Matches (.comment text :: f) (.comment text' :: g) :=
  ⟨.cons rfl h.similar, h.complete⟩

end Fragment.Matches

/-- The registers of an instruction, from left to right. -/
def Instr.registers : Instr → List Reg
  | ldr rd _ => [rd]
  | mov rd rs => [rd, rs]
  | jpr target => [target]
  | branch _ target lhs rhs => [target, lhs, rhs]
  | alu _ rd ra rb => [rd, ra, rb]
  | aluImm _ rd _ => [rd]
  | shift _ rd _ => [rd]
  | store _ rs addr => [rs, addr]

/-- **The mnemonics and registers of a fragment**, instruction by instruction. -/
def Fragment.signature (f : Fragment) : List (Mnemonic × List Reg) :=
  f.instructions.map fun i => (i.mnemonic, i.registers)

/-- **Similar fragments have the same mnemonics and registers.** -/
theorem Fragment.Similar.signature {f g : Fragment} (h : Similar f g) :
    f.signature = g.signature := by
  have hskeleton : ∀ f : Fragment,
      f.signature = Fragment.signature (f.map Item.skeleton) := by
    intro f
    unfold Fragment.signature instructions
    rw [List.map_filterMap, List.map_filterMap, List.filterMap_map]
    refine congrArg (List.filterMap · f) (funext fun item => ?_)
    unfold Function.comp Item.skeleton
    split <;> rfl
  rw [hskeleton f, h, ← hskeleton g]

/-! ## Related tables -/

/-- **Two tables are related**: they bind the same names, to values that are related. -/
def Table.Related (R : α → β → Prop) (t : Table α) (u : Table β) : Prop :=
  ∀ key, Option.Rel R (t.get? key) (u.get? key)

namespace Table.Related

variable {R : α → β → Prop} {t : Table α} {u : Table β}

protected theorem empty : Related R ∅ ∅ := fun _ => .none

/-- Related tables stay so when a name is bound to related values in both. -/
protected theorem insert (h : Related R t u) (key : String) {a : α} {b : β} (hab : R a b) :
    Related R (t.insert key a) (u.insert key b) := by
  intro other
  by_cases hother : other = key
  · subst hother
    rw [get?_insert_self, get?_insert_self]
    exact .some hab
  · rw [get?_insert_of_ne _ hother, get?_insert_of_ne _ hother]
    exact h other

/-- A name is bound in neither of the tables, or in both, to values that are related. -/
theorem get?_cases (h : Related R t u) (key : String) :
    t.get? key = none ∧ u.get? key = none
      ∨ ∃ a b, t.get? key = some a ∧ u.get? key = some b ∧ R a b := by
  have hkey := h key
  cases ht : t.get? key <;> cases hu : u.get? key <;> rw [ht, hu] at hkey <;> cases hkey
  next => exact .inl ⟨rfl, rfl⟩
  next a b hab => exact .inr ⟨a, b, rfl, rfl, hab⟩

protected theorem imp {S : α → β → Prop} (h : Related R t u) (hRS : ∀ a b, R a b → S a b) :
    Related S t u := by
  intro key
  obtain ⟨ht, hu⟩ | ⟨a, b, ht, hu, hab⟩ := h.get?_cases key <;> rw [ht, hu]
  · exact .none
  · exact .some (hRS a b hab)

theorem contains (h : Related R t u) (key : String) : t.contains key = u.contains key := by
  unfold Table.contains
  obtain ⟨ht, hu⟩ | ⟨a, b, ht, hu, -⟩ := h.get?_cases key <;> rw [ht, hu]
  · rfl
  · rfl

/-- **Related tables bind the same names**, so a fault that lists them is the same. -/
theorem keys (h : Related R t u) : t.keys = u.keys := by
  have hnames : t.map (fun _ => ()) = u.map fun _ => () := by
    refine ext_get? fun key => ?_
    rw [get?_map, get?_map]
    obtain ⟨ht, hu⟩ | ⟨a, b, ht, hu, -⟩ := h.get?_cases key <;> rw [ht, hu]
    · rfl
    · rfl
  rw [← keys_map (fun _ => ()) t, hnames, keys_map]

end Table.Related

/-! ## The same outcome -/

/-- **Two outcomes are the same** up to a relation of their answers: both are answers that
are related, or both are the same error. -/
inductive SameOutcome (Q : α → β → Prop) : Except ε α → Except ε β → Prop
  | ok {a : α} {b : β} (h : Q a b) : SameOutcome Q (.ok a) (.ok b)
  | error (e : ε) : SameOutcome Q (.error e) (.error e)

namespace SameOutcome

variable {Q : α → β → Prop} {P : γ → δ → Prop}

/-- A computation has the same outcome as itself. -/
protected theorem refl {R : α → α → Prop} (h : ∀ a, R a a) (x : Except ε α) :
    SameOutcome R x x := by
  cases x with
  | ok a => exact .ok (h a)
  | error e => exact .error e

/-- **Sequences have the same outcome** if their first computations have it, and what
follows has it for related answers. -/
protected theorem bind {x : Except ε α} {y : Except ε β} {f : α → Except ε γ} {g : β → Except ε δ}
    (hxy : SameOutcome Q x y) (hfg : ∀ a b, Q a b → SameOutcome P (f a) (g b)) :
    SameOutcome P (x >>= f) (y >>= g) := by
  cases hxy with
  | ok h => exact hfg _ _ h
  | error e => exact .error e

/-- A chain that goes on with the same answer. -/
theorem bind_eq {x y : Except ε α} {f : α → Except ε γ} {g : α → Except ε δ}
    (hxy : SameOutcome Eq x y) (hfg : ∀ a, SameOutcome P (f a) (g a)) :
    SameOutcome P (x >>= f) (y >>= g) :=
  hxy.bind fun a _ heq => heq ▸ hfg a

protected theorem map {x : Except ε α} {y : Except ε β} {f : α → γ} {g : β → δ}
    (hxy : SameOutcome Q x y) (hfg : ∀ a b, Q a b → P (f a) (g b)) :
    SameOutcome P (x.map f) (y.map g) := by
  cases hxy with
  | ok h => exact .ok (hfg _ _ h)
  | error e => exact .error e

end SameOutcome

/-! ## Environments of the same types -/

/-- **Two environments have the same types**: they bind the same names, to variables of
the same types, on the same line. -/
structure Env.SameTypes (env env' : Env) : Prop where
  vars : Table.Related (fun v w => v.type = w.type) env.vars env'.vars
  line : env.line = env'.line

/-- Loads of code that is the same up to addresses. -/
def Loaded.Similar (l l' : Loaded) : Prop := l.code.Similar l'.code

namespace Env.SameTypes

open Fragment (Similar Matches)

variable {env env' : Env} {Q : α → β → Prop}

/-- A fault is raised with the line of its environment. -/
protected theorem fail (h : env.SameTypes env') (fault : CompileFault) :
    SameOutcome Q (env.fail fault) (env'.fail fault) := by
  unfold Env.fail
  rw [h.line]
  exact .error _

protected theorem mismatch (h : env.SameTypes env') (name : String) (found expected : ValueType) :
    SameOutcome Q (env.mismatch name found expected) (env'.mismatch name found expected) :=
  h.fail _

/-- Whether a literal fits depends on the type alone. -/
protected theorem checkFits (h : env.SameTypes env') (name : String) (ty : Scalar)
    (value : Int64) :
    SameOutcome Eq (env.checkFits name ty value) (env'.checkFits name ty value) := by
  unfold Env.checkFits
  split
  · exact .ok rfl
  · exact h.fail _

/-- **What goes on with a variable** goes on with its type, and with an address and a
recorded value that may differ. -/
theorem lookup_bind (h : env.SameTypes env') (name : String)
    {f : Variable → Except CompileError α} {g : Variable → Except CompileError β}
    (hfg : ∀ type a b v w, SameOutcome Q (f ⟨a, type, v⟩) (g ⟨b, type, w⟩)) :
    SameOutcome Q (env.lookup name >>= f) (env'.lookup name >>= g) := by
  unfold Env.lookup
  obtain ⟨hv, hw⟩ | ⟨⟨a, type, v⟩, ⟨b, _, w⟩, hv, hw, htype⟩ :=
    h.vars.get?_cases name <;> rw [hv, hw]
  · rw [h.vars.keys]
    exact (h.fail (Q := fun _ _ => False) _).bind fun _ _ hfalse => hfalse.elim
  · cases htype
    exact hfg type a b v w

/-- **The type of an expression** is made of the types of its variables. -/
protected theorem operandType (h : env.SameTypes env') (e : Expr) :
    SameOutcome Eq (env.operandType e) (env'.operandType e) := by
  fun_induction env.operandType e with
  | case1 | case2 | case3 => exact .ok rfl
  | case4 text code hcode =>
    rw [Env.operandType, hcode]
    exact .ok rfl
  | case5 text hlong =>
    rw [Env.operandType]
    split
    next code hcode => exact absurd hcode (hlong code)
    next => exact .ok rfl
  | case6 name => exact h.lookup_bind name fun _ _ _ _ _ => .ok rfl
  | case7 => exact .ok rfl
  | case8 first rest ih => exact ih.bind_eq fun _ => .ok rfl
  | case9 list index => exact h.lookup_bind list fun _ _ _ _ _ => .ok rfl
  | case10 name => exact h.lookup_bind name fun _ _ _ _ _ => .ok rfl
  | case11 name =>
    refine h.lookup_bind name fun type _ _ _ _ => ?_
    cases type with
    | pointer target => exact .ok rfl
    | scalar | list => exact h.mismatch _ _ _
  | case12 op lhs rhs ih => exact ih

/-! ### Loads -/

/-- **An index is in range** for both or for neither: the length of a list is part of its
type. The addresses that come out need not be related. -/
protected theorem elementAddress (h : env.SameTypes env') (list : String) (base base' : UInt32)
    (element : Scalar) (len : Nat) (index : Int64) :
    SameOutcome (fun _ _ => True) (env.elementAddress list base element len index)
      (env'.elementAddress list base' element len index) := by
  unfold Env.elementAddress
  split
  · exact .ok trivial
  · exact h.fail _

/-- The address of an element is computed by the same instructions, from another base. -/
protected theorem elementPointer (h : env.SameTypes env') (list : String) (base base' : UInt32)
    (element : Scalar) (index : Expr) :
    SameOutcome Similar (env.elementPointer list base element index)
      (env'.elementPointer list base' element index) := by
  cases index with
  | ident index =>
    refine h.lookup_bind index fun type _ _ _ _ => ?_
    dsimp only
    split
    · exact h.mismatch _ _ _
    · exact .ok rfl
  | _ => exact h.fail _

protected theorem loadLiteral (h : env.SameTypes env') (name : String) (expected : ValueType)
    (found : Scalar) (value : Int64) :
    SameOutcome Loaded.Similar (env.loadLiteral name expected found value)
      (env'.loadLiteral name expected found value) := by
  unfold Env.loadLiteral
  split
  · exact (h.checkFits _ _ _).bind_eq fun _ => .ok (.refl _)
  · exact h.mismatch _ _ _

protected theorem loadElement (h : env.SameTypes env') (name : String) (expected : ValueType)
    (list : String) (index : Expr) :
    SameOutcome Loaded.Similar (env.loadElement name expected list index)
      (env'.loadElement name expected list index) := by
  refine h.lookup_bind list fun type _ _ _ _ => ?_
  cases type with
  | list element len =>
    dsimp only
    split
    · split
      · exact (h.elementAddress _ _ _ _ _ _).bind fun _ _ _ => .ok (.loadFrom _ _ _)
      · exact (h.elementPointer _ _ _ _ _).bind fun _ _ hpointer =>
          .ok (.append hpointer (.refl _))
    · exact h.mismatch _ _ _
  | scalar | pointer => exact h.mismatch _ _ _

/-- **What is not arithmetic** is loaded by the same instructions, from other addresses. -/
protected theorem loadAtom (h : env.SameTypes env') (name : String) (expected : ValueType)
    (e : Expr) :
    SameOutcome Loaded.Similar (env.loadAtom name expected e)
      (env'.loadAtom name expected e) := by
  cases e with
  | int | hex | char => exact h.loadLiteral _ _ _ _
  | str text =>
    rw [Env.loadAtom, Env.loadAtom]
    split
    · exact h.loadLiteral _ _ _ _
    · exact h.mismatch _ _ _
  | ident source =>
    refine h.lookup_bind source fun type _ _ _ _ => ?_
    dsimp only
    split
    · exact .ok (.loadFrom _ _ _)
    · exact h.mismatch _ _ _
  | index list index => exact h.loadElement name expected list index
  | addressOf target =>
    refine h.lookup_bind target fun type _ _ _ _ => ?_
    dsimp only
    split
    · exact .ok (.cons rfl (.refl []))
    · exact h.mismatch _ _ _
  | deref pointer =>
    refine h.lookup_bind pointer fun type _ _ _ _ => ?_
    cases type with
    | pointer target =>
      dsimp only
      split
      · exact .ok (.append (.loadFrom _ _ _) (.refl _))
      · exact h.mismatch _ _ _
    | scalar | list => exact h.mismatch _ _ _
  | list | binary => exact h.fail _

protected theorem loadInto (h : env.SameTypes env') (name : String) (cell : Scalar) (rd : Reg)
    (e : Expr) :
    SameOutcome Similar (env.loadInto name cell rd e) (env'.loadInto name cell rd e) := by
  unfold Env.loadInto
  split
  · exact h.fail _
  · exact h.fail _
  · split
    · exact (h.checkFits _ _ _).bind_eq fun _ => .ok (.refl _)
    · refine (h.operandType e).bind_eq fun ty => ?_
      split
      · exact h.mismatch _ _ _
      · exact (h.loadAtom _ _ _).bind fun _ _ hload => .ok (.append hload (.refl _))

/-- Operands, operator and type are checked in the same order, so the first fault is the
same. -/
protected theorem arithmetic (h : env.SameTypes env') (name : String) (expected : ValueType)
    (op : BinaryOp) (lhs rhs : Expr) :
    SameOutcome Loaded.Similar (env.arithmetic name expected op lhs rhs)
      (env'.arithmetic name expected op lhs rhs) := by
  unfold Env.arithmetic
  split
  · exact (h.operandType lhs).bind_eq fun _ => h.mismatch _ _ _
  · refine (h.loadInto _ _ _ _).bind fun _ _ hleft => ?_
    split
    · split
      · exact .ok (.append hleft (.refl _))
      · exact h.fail _
    · exact (h.loadInto _ _ _ _).bind fun _ _ hright =>
        .ok (.append (.append hleft hright) (.refl _))

/-- **Every expression is loaded alike** up to addresses. -/
protected theorem load (h : env.SameTypes env') (name : String) (expected : ValueType)
    (e : Expr) :
    SameOutcome Loaded.Similar (env.load name expected e) (env'.load name expected e) := by
  unfold Env.load
  split
  · exact h.arithmetic _ _ _ _ _
  · exact (h.operandType _).bind_eq fun _ => h.mismatch _ _ _
  · exact h.loadAtom _ _ _

protected theorem loadRaw (h : env.SameTypes env') (ty : Scalar) (e : Expr) :
    SameOutcome Loaded.Similar (env.loadRaw ty e) (env'.loadRaw ty e) := by
  unfold Env.loadRaw
  dsimp only
  split
  · exact (h.checkFits _ _ _).bind_eq fun _ => .ok (.refl _)
  · exact (h.operandType e).bind_eq fun _ => h.load _ _ _

protected theorem condition (h : env.SameTypes env') (cond : Condition) :
    SameOutcome Similar (env.condition cond) (env'.condition cond) :=
  (h.loadInto _ _ _ _).bind fun _ _ hleft => (h.loadInto _ _ _ _).bind fun _ _ hright =>
    .ok (.append (.append hleft hright) (.refl _))

/-! ### Stores -/

/-- **A value is assigned alike**, to cells that may lie apart. -/
protected theorem assign (h : env.SameTypes env') (name : String) (ty : ValueType) (value : Expr)
    (a b : UInt32) :
    SameOutcome (fun r r' => r.1.Matches r'.1) (env.assign name ty value a)
      (env'.assign name ty value b) :=
  (h.load _ _ _).bind fun _ _ hload =>
    .ok (.append_of_last? (.cons rfl hload) (.storeTo a b ty.width) rfl rfl)

/-- Elements are copied one by one, and each copy loads two addresses. -/
theorem matches_copyElements (element : Scalar) (source source' target target' : UInt32)
    (count index : Nat) :
    Matches (copyElements element source target count index)
      (copyElements element source' target' count index) := by
  induction count generalizing index with
  | zero => exact .nil
  | succ count ih =>
    exact .append (.append_of_last? (.loadFrom _ _ _) (.storeTo _ _ _) rfl rfl) (ih (index + 1))

protected theorem storeItems (h : env.SameTypes env') (name : String) (base base' : UInt32)
    (element : Scalar) (index : Nat) (items : List Expr) :
    SameOutcome Matches (env.storeItems name base element index items)
      (env'.storeItems name base' element index items) := by
  induction items generalizing index with
  | nil => exact .ok .nil
  | cons item rest ih =>
    exact (h.load _ _ _).bind fun _ _ hload => (ih (index + 1)).bind fun _ _ hmore =>
      .ok (.append (.append_of_last? hload (.storeTo _ _ _) rfl rfl) hmore)

/-- A list is copied alike, from a variable or from items. -/
protected theorem copyList (h : env.SameTypes env') (name : String) (base base' : UInt32)
    (element : Scalar) (len : Nat) (value : Expr) :
    SameOutcome Matches (env.copyList name base element len value)
      (env'.copyList name base' element len value) := by
  unfold Env.copyList
  split
  next source =>
    refine h.lookup_bind source fun type _ _ _ _ => ?_
    cases type with
    | list sourceElement sourceLen =>
      dsimp only
      split
      · exact .ok (matches_copyElements _ _ _ _ _ _ _)
      · exact h.mismatch _ _ _
    | scalar | pointer => exact h.mismatch _ _ _
  next =>
    split
    · exact h.fail _
    · split
      · exact h.fail _
      · exact h.storeItems _ _ _ _ _ _

protected theorem assignComputed (h : env.SameTypes env') (name : String) (base base' : UInt32)
    (element : Scalar) (index value : Expr) :
    SameOutcome Matches (env.assignComputed name base element index value)
      (env'.assignComputed name base' element index value) := by
  unfold Env.assignComputed
  split
  · exact h.fail _
  · exact (h.elementPointer _ _ _ _ _).bind fun _ _ hpointer =>
      (h.load _ _ _).bind fun _ _ hload =>
      .ok (.append_of_last? (.append (.cons rfl hpointer) (.cons rfl hload)) (.refl _) rfl rfl)

protected theorem poke (h : env.SameTypes env') (address : UInt32) (ty : Scalar) (value : Expr) :
    SameOutcome Matches (env.poke address ty value) (env'.poke address ty value) :=
  (h.loadRaw _ _).bind fun _ _ hload =>
    .ok (.append_of_last? (.cons rfl hload) (.refl _) rfl rfl)

/-! ### Initialisers and calls -/

protected theorem initialItems (h : env.SameTypes env') (name : String) (value : Option Expr) :
    SameOutcome Eq (env.initialItems name value) (env'.initialItems name value) := by
  unfold Env.initialItems
  split
  · exact .ok rfl
  · split
    · exact .ok rfl
    · exact h.fail _

/-- Items are checked by their types, and the first that does not fit is the same. -/
protected theorem checkItems (h : env.SameTypes env') (name : String) (element : Scalar)
    (index : Nat) (items : List Expr) :
    SameOutcome Eq (env.checkItems name element index items)
      (env'.checkItems name element index items) := by
  induction items generalizing index with
  | nil => exact .ok rfl
  | cons item rest ih =>
    refine (h.operandType item).bind_eq fun found => ?_
    split
    · exact ih (index + 1)
    · exact h.mismatch _ _ _

protected theorem listLength (h : env.SameTypes env') (name : String) (len : Option Nat)
    (count : Nat) :
    SameOutcome Eq (env.listLength name len count) (env'.listLength name len count) := by
  unfold Env.listLength
  split
  · split
    · exact h.fail _
    · exact .ok rfl
  · exact .ok rfl

protected theorem loadItems (h : env.SameTypes env') (name : String) (element : Scalar)
    (index : Nat) (items : List Expr) :
    SameOutcome (List.Forall₂ Loaded.Similar) (env.loadItems name element index items)
      (env'.loadItems name element index items) := by
  induction items generalizing index with
  | nil => exact .ok .nil
  | cons item rest ih =>
    exact (h.load _ _ _).bind fun _ _ hload => (ih (index + 1)).bind fun _ _ hmore =>
      .ok (.cons hload hmore)

/-- **A character is put out alike**, at devices that may lie apart. -/
protected theorem putchar (h : env.SameTypes env') (device device' : UInt32) (args : List Expr) :
    SameOutcome Matches (env.putchar device args) (env'.putchar device' args) := by
  unfold Env.putchar
  split
  · exact (h.loadRaw _ _).bind fun _ _ hload =>
      .ok (.append_of_last? (.cons rfl hload) (.cons rfl (.refl _)) rfl rfl)
  · exact h.fail _

end Env.SameTypes

end RegMachine
