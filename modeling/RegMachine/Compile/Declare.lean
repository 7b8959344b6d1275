import RegMachine.Compile.Monad
import RegMachine.Compile.Store

/-!
# Declarations

A variable gets a fresh cell. A list gets a run of fresh cells, one an
element; each is a variable of its own (`elementName`), and the list itself is
a variable without a cell that records where they start.

The initialiser of a list is checked and loaded as a whole before the first
cell is handed out. Two things can outlive a declaration that fails: the
warning about an element type that was inferred, and the cells handed out
before the address space ran full.
-/

namespace RegMachine

/-- The length of a list declared without items and without a length. -/
def defaultLength : Nat := 10

namespace Env

/-- The items that the initialiser of a list gives. -/
def initialItems (env : Env) (name : String) : Option Expr → Except CompileError (List Expr)
  | none => .ok []
  | some value =>
    match value.elements? with
    | some items => .ok items
    | none => env.fail (.unsupported (.listFrom name value.form))

/-- Stop unless every item has the element type. -/
def checkItems (env : Env) (name : String) (element : Scalar) :
    Nat → List Expr → Except CompileError Unit
  | _, [] => .ok ()
  | index, item :: rest => do
    let found ← env.operandType item
    if found = .scalar element then env.checkItems name element (index + 1) rest
    else env.mismatch (elementName name index) found (.scalar element)

/-- **The length of a list**: the one given, if the items do not outrun it, or
else the number of items. -/
def listLength (env : Env) (name : String) (len : Option Nat) (count : Nat) :
    Except CompileError Nat :=
  match len with
  | some len =>
    if len < count then env.fail (.outOfBounds name (count - 1 : Nat) len) else .ok len
  | none => .ok (if 0 < count then count else defaultLength)

/-- Load every item for the element it initialises. -/
def loadItems (env : Env) (name : String) (element : Scalar) :
    Nat → List Expr → Except CompileError (List Loaded)
  | _, [] => .ok []
  | index, item :: rest => do
    let loaded ← env.load (elementName name index) (.scalar element) item
    let more ← env.loadItems name element (index + 1) rest
    return loaded :: more

end Env

namespace CompileM

/-! ## Cells of elements -/

/-- Hand out and bind the cells of `count` elements of a list, from the element
of an index on. -/
def reserveElements (line : Nat) (list : String) (element : Scalar) :
    Nat → Nat → CompileM Unit
  | 0, _ => pure ()
  | count + 1, index => do
    let address ← allocate element.size line
    bindVariable (elementName list index) ⟨address, .scalar element, .zeroed⟩
    reserveElements line list element count (index + 1)

/-- Hand out and bind the cells of `count` elements of a list, from the element
of an index on, with the code that fills them: with the loaded items as long
as there are any, then with zero. -/
def fillElements (line : Nat) (list : String) (element : Scalar) :
    Nat → Nat → List Loaded → CompileM Fragment
  | 0, _, _ => pure []
  | count + 1, index, loaded :: rest => do
    let address ← allocate element.size line
    bindVariable (elementName list index) ⟨address, .scalar element, loaded.value⟩
    let more ← fillElements line list element count (index + 1) rest
    return loaded.code ++ Fragment.storeTo address (.ofScalar element) ++ more
  | count + 1, index, [] => do
    let address ← allocate element.size line
    bindVariable (elementName list index) ⟨address, .scalar element, .zeroed⟩
    let more ← fillElements line list element count (index + 1) []
    return Fragment.storeZero address (.ofScalar element) ++ more

/-! ## Lists -/

/-- **The element type of a list**: the one given, or else that of the first
item, with a warning, or `int` for a list without items. -/
def elementType (line : Nat) (element : Option Scalar) (items : List Expr) : CompileM Scalar :=
  match element, items with
  | some element, _ => pure element
  | none, first :: _ => do
    let env ← env line
    let ty ← env.operandType first
    warn
    return ty.cell
  | none, [] => pure .int

/-- **Declare a list that copies another.** -/
def declareCopy (line : Nat) (name : String) (element : Option Scalar) (len : Option Nat)
    (source : String) : CompileM Fragment := do
  let v ← lookup source line
  match v.type with
  | .list sourceElement sourceLen =>
    let element := element.getD sourceElement
    let len := len.getD sourceLen
    if element = sourceElement ∧ sourceLen ≤ len then
      let base ← nextAddress
      reserveElements line name element len 0
      let env ← env line
      let copy ← env.copyList name base element len (.ident source)
      declare name ⟨base, .list element len, .copied source⟩ line
      let type := (ValueType.list element len).text
      let place := Text.hexAddress base
      return .comment s!"{type} {name} = {source} @ {place}" :: copy
    else
      fail line (.typeMismatch name (.exact v.type) (.exact (.list element len)))
  | other => fail line (.typeMismatch name (.exact other) .anyList)

/-- **Declare a list from the items of a literal**, or without any. -/
def declareItems (line : Nat) (name : String) (element : Option Scalar) (len : Option Nat)
    (value : Option Expr) : CompileM Fragment := do
  let env ← env line
  let items ← env.initialItems name value
  let element ← elementType line element items
  env.checkItems name element 0 items
  let len ← env.listLength name len items.length
  let loads ← env.loadItems name element 0 items
  let base ← nextAddress
  let code ← fillElements line name element len 0 loads
  declare name ⟨base, .list element len, .elements items.length⟩ line
  let type := (ValueType.list element len).text
  let place := Text.hexAddress base
  return .comment s!"{type} {name} @ {place}" :: code

/-- **Declare a list.** -/
def declareList (line : Nat) (name : String) (element : Option Scalar) (len : Option Nat)
    (value : Option Expr) : CompileM Fragment := do
  ensureUndeclared name line
  match value with
  | some (.ident source) => declareCopy line name element len source
  | _ => declareItems line name element len value

/-! ## Variables -/

/-- **Declare a variable with a cell of its own.** -/
def declareCell (line : Nat) (type : ValueType) (name : String) (value : Expr) :
    CompileM Fragment := do
  ensureUndeclared name line
  let env ← env line
  let loaded ← env.load name type value
  let address ← allocate type.size line
  declare name ⟨address, type, loaded.value⟩ line
  let typeText := type.text
  let place := Text.hexAddress address
  return .comment s!"{typeText} {name} @ {place}" :: loaded.code
    ++ Fragment.storeTo address type.width

/-- **Declare a variable.** A character that is initialised with a string of
several bytes becomes a list of characters. -/
def declareVariable (line : Nat) (type : ValueType) (name : String) (value : Expr) :
    CompileM Fragment :=
  match type, value with
  | .list element len, _ => declareList line name (some element) (some len) (some value)
  | .scalar .char, .str text =>
    if 1 < (Text.bytes text).length then declareList line name (some .char) none (some value)
    else declareCell line type name value
  | _, _ => declareCell line type name value

/-- **Hand out the cells of a parameter**: one for each element of a list, which
is bound to it, or one for anything else. -/
def reserveParam (line : Nat) (name : String) : ValueType → CompileM Unit
  | .list element len => reserveElements line name element len 0
  | type => discard (allocate type.size line)

/-- **Declare the parameters of a function**, each from the next free address
on. -/
def declareParams (line : Nat) : List Formal → CompileM (List Param)
  | [] => pure []
  | p :: rest => do
    let address ← nextAddress
    reserveParam line p.name p.type
    bindVariable p.name ⟨address, p.type, .zeroed⟩
    let more ← declareParams line rest
    return ⟨p.name, address, p.type⟩ :: more

/-! ## Assignments -/

/-- **Assign to a variable**, which keeps its address. -/
def assign (line : Nat) (name : String) (value : Expr) : CompileM Fragment := do
  let v ← lookup name line
  let env ← env line
  match v.type with
  | .list element len =>
    let copy ← env.copyList name v.address element len value
    let place := Text.hexAddress v.address
    return .comment s!"{name} = <list> @ {place}" :: copy
  | _ =>
    let (code, stored) ← env.assign name v.type value v.address
    setValue name stored line
    return code

/-- **Assign to an element of a list.** -/
def assignAt (line : Nat) (name : String) (index value : Expr) : CompileM Fragment := do
  let v ← lookup name line
  let env ← env line
  match v.type with
  | .list element len =>
    match index.literalValue? with
    | some i =>
      let address ← env.elementAddress name v.address element len i
      let slot := elementName name i.toInt.toNat
      let (code, stored) ← env.assign slot (.scalar element) value address
      setValue slot stored line
      return code
    | none => env.assignComputed name v.address element index value
  | other => fail line (.typeMismatch name (.exact other) .anyList)

/-- **Move an allocation cursor**, where directives are allowed. -/
def directive (line : Nat) (region : Region) (address : UInt32) : CompileM Unit := do
  let s ← get
  if s.mode.bitset then moveCursor region address line
  else fail line .unauthorizedBitset

end CompileM

end RegMachine
