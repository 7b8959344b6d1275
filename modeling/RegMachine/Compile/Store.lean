import RegMachine.Compile.Load

/-!
# Storing values

Code that loads a value and stores it where it belongs: to one cell, to the
elements of a list, or to an element that is found while the program runs.
Nothing here changes a scope; what a cell holds afterwards is answered beside
the code.
-/

namespace RegMachine

/-- The name of the variable that is an element of a list. -/
def elementName (list : String) (index : Nat) : String :=
  list ++ "[" ++ Text.decimal index ++ "]"

namespace Env

/-- **Store an expression to a cell** of a given name, type and address. -/
def assign (env : Env) (name : String) (ty : ValueType) (value : Expr) (address : UInt32) :
    Except CompileError (Fragment × Stored) := do
  let loaded ← env.load name ty value
  let tag := value.tag
  let place := Text.hexAddress address
  return (.comment s!"{name} = {tag} @ {place}" :: loaded.code
    ++ Fragment.storeTo address ty.width, loaded.value)

/-- Code that copies `count` elements from one address to another, from the
element of an index on. -/
def copyElements (element : Scalar) (source target : UInt32) : Nat → Nat → Fragment
  | 0, _ => []
  | count + 1, index =>
    let offset := UInt32.ofNat (index * element.size)
    Fragment.loadFrom (source + offset) (.ofScalar element)
      ++ Fragment.storeTo (target + offset) (.ofScalar element)
      ++ copyElements element source target count (index + 1)

/-- Code that stores items one after the other to the elements of a list, from
the element of an index on. Each item is loaded after those before it have
been stored. -/
def storeItems (env : Env) (name : String) (base : UInt32) (element : Scalar) :
    Nat → List Expr → Except CompileError Fragment
  | _, [] => .ok []
  | index, item :: rest => do
    let loaded ← env.load (elementName name index) (.scalar element) item
    let more ← env.storeItems name base element (index + 1) rest
    return loaded.code
      ++ Fragment.storeTo (base + UInt32.ofNat (index * element.size)) (.ofScalar element)
      ++ more

/-- **Store a list** element by element to the list of a given name, address
and type. The source is a list variable that is no longer than the
destination, a list literal, or a string. -/
def copyList (env : Env) (name : String) (base : UInt32) (element : Scalar) (len : Nat)
    (value : Expr) : Except CompileError Fragment :=
  match value with
  | .ident source => do
    let v ← env.lookup source
    match v.type with
    | .list sourceElement sourceLen =>
      if sourceElement = element ∧ sourceLen ≤ len then
        return copyElements element v.address base sourceLen 0
      else env.mismatch name v.type (.list element len)
    | other => env.mismatch name other (.list element len)
  | _ =>
    match value.elements? with
    | none =>
      env.fail (.typeMismatch name (.shape value.form) (.exact (.list element len)))
    | some items =>
      if len < items.length then
        env.fail (.outOfBounds name (items.length - 1 : Nat) len)
      else env.storeItems name base element 0 items

/-- **Store an expression to an element whose index is a variable.** The
address waits in `Reg.lhs` while the value is loaded, so the value cannot be
arithmetic, which needs that register. -/
def assignComputed (env : Env) (name : String) (base : UInt32) (element : Scalar)
    (index value : Expr) : Except CompileError Fragment :=
  match value with
  | .binary _ _ _ => env.fail (.unsupported (.arithmeticAt name))
  | _ => do
    let pointer ← env.elementPointer name base element index
    let loaded ← env.load (name ++ "[]") (.scalar element) value
    let indexTag := index.tag
    let valueTag := value.tag
    return .comment s!"{name}[{indexTag}] = {valueTag}" :: pointer
      ++ .mov .lhs .value :: loaded.code
      ++ .mov .addr .lhs :: Fragment.callRoutine (.store (.ofScalar element))

/-- **Write an expression to a fixed address.** -/
def poke (env : Env) (address : UInt32) (ty : Scalar) (value : Expr) :
    Except CompileError Fragment := do
  let loaded ← env.loadRaw ty value
  let place := Text.hexAddress address
  let typeName := ty.name
  return .comment s!"[{place}, {typeName}]" :: loaded.code
    ++ Fragment.storeTo address (.ofScalar ty)

end Env

end RegMachine
