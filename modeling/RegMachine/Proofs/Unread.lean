import RegMachine.Compile.Stmt

/-!
# What expressions do not read

A variable has an address and a type, and beside them what is recorded of its
value. An environment is *bare* if nothing is recorded in it. Everything that is
compiled against an environment is the same against the bare one: look-ups
answer the bare variable, and no code, type or fault is made of anything that a
bare variable lacks.

There is one equation for each function on environments, and its proof is always
the same: the function looks variables up, and goes on with their addresses and
types.
-/

namespace RegMachine

variable {α β : Type}

/-! ## Images of tables -/

namespace Table

@[simp]
theorem map_empty (f : α → β) : (∅ : Table α).map f = ∅ := rfl

/-- A new binding of a table is one of its image. -/
@[simp]
theorem map_insert (f : α → β) (t : Table α) (key : String) (value : α) :
    (t.insert key value).map f = (t.map f).insert key (f value) := by
  refine ext_get? fun other => ?_
  rw [get?_map]
  by_cases hother : other = key
  · subst hother
    rw [get?_insert_self, get?_insert_self, Option.map_some]
  · rw [get?_insert_of_ne _ hother, get?_insert_of_ne _ hother, get?_map]

@[simp]
theorem map_map {γ : Type} (g : β → γ) (f : α → β) (t : Table α) :
    (t.map f).map g = t.map fun a => g (f a) := by
  refine ext_get? fun key => ?_
  rw [get?_map, get?_map, get?_map, Option.map_map]
  rfl

/-- Images of values do not change which names are bound. -/
@[simp]
theorem keys_map (f : α → β) (t : Table α) : (t.map f).keys = t.keys := by
  unfold keys map
  rw [List.map_map]
  rfl

@[simp]
theorem contains_map (f : α → β) (t : Table α) (key : String) :
    (t.map f).contains key = t.contains key := by
  unfold contains
  rw [get?_map, Option.isSome_map]

end Table

/-! ## Bare environments -/

/-- **A variable of which nothing is recorded.** -/
def Variable.bare (v : Variable) : Variable := { v with value := .zeroed }

/-- **The environment in which nothing is recorded** of the variables. -/
def Env.bare (env : Env) : Env := { env with vars := env.vars.map Variable.bare }

namespace Env

variable (env : Env) (name : String) (expected : ValueType)

/-- **A look-up in the bare environment** finds the bare variable, or fails with
the same fault. -/
theorem bare_lookup_bind (f : Variable → Except CompileError α) :
    (env.bare.lookup name >>= f) = env.lookup name >>= fun v => f v.bare := by
  unfold lookup bare
  rw [Table.get?_map]
  cases env.vars.get? name with
  | some v => rfl
  | none =>
    unfold fail
    rw [Table.keys_map]
    rfl

/-! ## Expressions -/

/-- **The type of an expression** is made of the types of its variables. -/
@[simp]
theorem bare_operandType (e : Expr) : env.bare.operandType e = env.operandType e := by
  fun_induction env.operandType e with
  | case1 | case2 | case3 => rfl
  | case4 text code h => rw [operandType, h]
  | case5 text hlong =>
    rw [operandType]
    split
    next code h => exact absurd h (hlong code)
    next => rfl
  | case6 name => exact env.bare_lookup_bind name _
  | case7 => rfl
  | case8 first rest ih => rw [operandType, ih]
  | case9 list index => exact env.bare_lookup_bind list _
  | case10 name => exact env.bare_lookup_bind name _
  | case11 name => exact env.bare_lookup_bind name _
  | case12 op lhs rhs ih => rw [operandType, ih]

/-- The index of an element is a literal, or a variable that is loaded from its
address. -/
@[simp]
theorem bare_elementPointer (base : UInt32) (element : Scalar) (index : Expr) :
    env.bare.elementPointer name base element index
      = env.elementPointer name base element index := by
  cases index with
  | ident index => exact env.bare_lookup_bind index _
  | _ => rfl

/-- An element is loaded by the address and the type of its list. -/
@[simp]
theorem bare_loadElement (list : String) (index : Expr) :
    env.bare.loadElement name expected list index
      = env.loadElement name expected list index := by
  unfold loadElement
  rw [bare_lookup_bind]
  simp only [bare_elementPointer]
  rfl

/-- **What is not arithmetic is loaded alike**: it names one variable at most.
-/
@[simp]
theorem bare_loadAtom (e : Expr) :
    env.bare.loadAtom name expected e = env.loadAtom name expected e := by
  cases e with
  | ident source => exact env.bare_lookup_bind source _
  | index list index => exact env.bare_loadElement name expected list index
  | addressOf target => exact env.bare_lookup_bind target _
  | deref pointer => exact env.bare_lookup_bind pointer _
  | _ => rfl

@[simp]
theorem bare_loadInto (cell : Scalar) (rd : Reg) (e : Expr) :
    env.bare.loadInto name cell rd e = env.loadInto name cell rd e := by
  unfold loadInto
  simp only [bare_operandType, bare_loadAtom]
  rfl

/-- Arithmetic is made of the types and the loads of its two operands. -/
@[simp]
theorem bare_arithmetic (op : BinaryOp) (lhs rhs : Expr) :
    env.bare.arithmetic name expected op lhs rhs = env.arithmetic name expected op lhs rhs := by
  unfold arithmetic
  simp only [bare_operandType, bare_loadInto]
  rfl

/-- **Every expression is loaded alike**, to the same code or with the same
fault. -/
@[simp]
theorem bare_load (e : Expr) : env.bare.load name expected e = env.load name expected e := by
  unfold load
  simp only [bare_operandType, bare_loadAtom, bare_arithmetic]
  rfl

@[simp]
theorem bare_loadRaw (ty : Scalar) (e : Expr) : env.bare.loadRaw ty e = env.loadRaw ty e := by
  unfold loadRaw
  simp only [bare_operandType, bare_load]
  rfl

/-- A condition loads its two sides into registers and compares them. -/
@[simp]
theorem bare_condition (cond : Condition) : env.bare.condition cond = env.condition cond := by
  unfold condition
  simp only [bare_loadInto]

/-! ## Stores and calls -/

@[simp]
theorem bare_assign (ty : ValueType) (value : Expr) (address : UInt32) :
    env.bare.assign name ty value address = env.assign name ty value address := by
  unfold assign
  simp only [bare_load]

/-- The items of a list are stored one after the other, each by its own load. -/
@[simp]
theorem bare_storeItems (base : UInt32) (element : Scalar) (index : Nat) (items : List Expr) :
    env.bare.storeItems name base element index items
      = env.storeItems name base element index items := by
  induction items generalizing index with
  | nil => rfl
  | cons item rest ih =>
    unfold storeItems
    simp only [bare_load, ih]

/-- A list is copied from a variable that is a list, or from items that are
written out. -/
@[simp]
theorem bare_copyList (base : UInt32) (element : Scalar) (len : Nat) (value : Expr) :
    env.bare.copyList name base element len value = env.copyList name base element len value := by
  cases value with
  | ident source => exact env.bare_lookup_bind source _
  | list items => simp only [copyList, bare_storeItems]; rfl
  | str text => simp only [copyList, bare_storeItems]; rfl
  | _ => rfl

@[simp]
theorem bare_assignComputed (base : UInt32) (element : Scalar) (index value : Expr) :
    env.bare.assignComputed name base element index value
      = env.assignComputed name base element index value := by
  unfold assignComputed
  simp only [bare_elementPointer, bare_load]
  rfl

@[simp]
theorem bare_poke (address : UInt32) (ty : Scalar) (value : Expr) :
    env.bare.poke address ty value = env.poke address ty value := by
  unfold poke
  simp only [bare_loadRaw]

@[simp]
theorem bare_passArgument (p : Param) (arg : Expr) :
    env.bare.passArgument p arg = env.passArgument p arg := by
  unfold passArgument
  simp only [bare_copyList, bare_assign]

/-- **Arguments are passed alike**, up to the first that does not fit its
parameter. -/
@[simp]
theorem bare_passArguments (params : List Param) (args : List Expr) :
    env.bare.passArguments params args = env.passArguments params args := by
  induction params generalizing args with
  | nil => rfl
  | cons p params ih =>
    cases args with
    | nil => rfl
    | cons arg args =>
      unfold passArguments
      simp only [bare_passArgument, ih]

@[simp]
theorem bare_putchar (device : UInt32) (args : List Expr) :
    env.bare.putchar device args = env.putchar device args := by
  unfold putchar
  simp only [bare_loadRaw]
  rfl

@[simp]
theorem bare_callFunction (f : Function) (args : List Expr) :
    env.bare.callFunction f args = env.callFunction f args := by
  unfold callFunction
  simp only [bare_passArguments]
  rfl

/-! ## Initialisers and embedded lines -/

@[simp]
theorem bare_initialItems (value : Option Expr) :
    env.bare.initialItems name value = env.initialItems name value := rfl

/-- Items are checked by their types, before any of them is loaded. -/
@[simp]
theorem bare_checkItems (element : Scalar) (index : Nat) (items : List Expr) :
    env.bare.checkItems name element index items = env.checkItems name element index items := by
  induction items generalizing index with
  | nil => rfl
  | cons item rest ih =>
    unfold checkItems
    simp only [bare_operandType, ih]
    rfl

@[simp]
theorem bare_listLength (len : Option Nat) (count : Nat) :
    env.bare.listLength name len count = env.listLength name len count := rfl

@[simp]
theorem bare_loadItems (element : Scalar) (index : Nat) (items : List Expr) :
    env.bare.loadItems name element index items = env.loadItems name element index items := by
  induction items generalizing index with
  | nil => rfl
  | cons item rest ih =>
    unfold loadItems
    simp only [bare_load, ih]

/-- A placeholder is filled in with the address of its variable. -/
@[simp]
theorem bare_piecesText (pieces : List Piece) :
    env.bare.piecesText pieces = env.piecesText pieces := by
  induction pieces with
  | nil => rfl
  | cons p pieces ih =>
    have hpiece : env.bare.pieceText p = env.pieceText p := by
      cases p with
      | char c => rfl
      | hole name => exact env.bare_lookup_bind _ _
    unfold piecesText
    simp only [hpiece, ih]

/-- **Embedded lines are filled in alike.** -/
@[simp]
theorem bare_embed (code : String) : env.bare.embed code = env.embed code := by
  unfold embed
  induction Text.lines code.toList with
  | nil => rfl
  | cons line rest ih =>
    unfold embedLines substitute
    simp only [bare_piecesText, ih]

end Env

end RegMachine
