import RegMachine.Compile.Env

/-!
# Loading expressions

The code of a right-hand side leaves its value in `Reg.value`. It is straight
line code: it never writes memory, and it keeps to a handful of scratch
registers.

Loads are typed. `Env.load` accepts an expression only if its type is the type
expected, and a literal only if it fits. An operator takes two *atomic*
operands, each loaded at its own type and copied to a register of its own:

```text
<lhs in r12>
<rhs in r13>
op r12, r12, r13
mov r20, r12
```

A shift takes its amount as an immediate instead: `lsh r12, #n`.
-/

namespace RegMachine

/-- A compiled right-hand side. -/
structure Loaded where
  /-- Code that leaves the value in `Reg.value`. -/
  code : Fragment
  /-- The type of the value. -/
  type : ValueType
  /-- What its destination holds afterwards. -/
  value : Stored
deriving DecidableEq

/-- The width at which a value of a type is moved. -/
def ValueType.width (ty : ValueType) : Width := Width.ofSize ty.size

/-- What an operator is carried out by. -/
inductive Lowered where
  | alu (op : AluOp)
  | shift (op : ShiftOp)

/-- The instruction that carries out an operator. -/
def BinaryOp.lower : BinaryOp → Lowered
  | add => .alu .add
  | sub => .alu .sub
  | mul => .alu .mult
  | div => .alu .div
  | or => .alu .or
  | xor => .alu .xor
  | and => .alu .and
  | shiftLeft => .shift .left
  | shiftRight => .shift .right

namespace Env

/-! ## Elements of lists -/

/-- **The address of an element** of a list, for an index that is known. -/
def elementAddress (env : Env) (list : String) (base : UInt32) (element : Scalar) (len : Nat)
    (index : Int64) : Except CompileError UInt32 :=
  if 0 ≤ index.toInt ∧ index.toInt < len then
    .ok (base + UInt32.ofNat (index.toInt.toNat * element.size))
  else env.fail (.outOfBounds list index.toInt len)

/-- **Code that leaves the address of an element in `Reg.value`**, for an
index that is a variable. The index is not checked. -/
def elementPointer (env : Env) (list : String) (base : UInt32) (element : Scalar) :
    Expr → Except CompileError Fragment
  | .ident index => do
    let v ← env.lookup index
    if v.type.isList then env.mismatch index v.type (.scalar .int)
    else
      return Fragment.loadFrom v.address v.type.width
        ++ [.instr (.aluImm .mult .value (UInt16.ofNat element.size)),
          .ldr .base (.hex base),
          .instr (.alu .add .value .base .value)]
  | _ => env.fail (.unsupported (.indexOf list))

/-! ## Atomic loads -/

/-- Load a literal of a given scalar type. -/
def loadLiteral (env : Env) (name : String) (expected : ValueType) (found : Scalar)
    (value : Int64) : Except CompileError Loaded :=
  if expected = .scalar found then do
    env.checkFits name found value
    return ⟨[.loadLiteral .value value (found = .hex)], expected, .literal value⟩
  else env.mismatch name (.scalar found) expected

/-- Load a variable. A list has no value of its own to load. -/
def loadVariable (env : Env) (name : String) (expected : ValueType) (source : String) :
    Except CompileError Loaded := do
  let v ← env.lookup source
  if v.type = expected ∧ v.type.isList = false then
    return ⟨Fragment.loadFrom v.address v.type.width, expected, .copied source⟩
  else env.mismatch name v.type expected

/-- Load an element of a list. -/
def loadElement (env : Env) (name : String) (expected : ValueType) (list : String)
    (index : Expr) : Except CompileError Loaded := do
  let v ← env.lookup list
  match v.type with
  | .list element len =>
    if expected = .scalar element then
      match index.literalValue? with
      | some i =>
        let address ← env.elementAddress list v.address element len i
        return ⟨Fragment.loadFrom address (.ofScalar element), expected, .computed⟩
      | none =>
        let pointer ← env.elementPointer list v.address element index
        return ⟨pointer ++ .mov .addr .value :: Fragment.callRoutine (.load (.ofScalar element)),
          expected, .computed⟩
    else env.mismatch name (.scalar element) expected
  | other => env.mismatch list other (.list other.cell 0)

/-- Load the address of a variable. -/
def loadAddress (env : Env) (name : String) (expected : ValueType) (target : String) :
    Except CompileError Loaded := do
  let v ← env.lookup target
  if expected = .pointer v.type.cell then
    return ⟨[.ldr .value (.hex v.address)], expected, .address v.address⟩
  else env.mismatch name (.pointer v.type.cell) expected

/-- Load what a pointer points at: the pointer first, then through it. -/
def loadTarget (env : Env) (name : String) (expected : ValueType) (pointer : String) :
    Except CompileError Loaded := do
  let v ← env.lookup pointer
  match v.type with
  | .pointer target =>
    if expected = .scalar target then
      return ⟨Fragment.loadFrom v.address .word
          ++ .mov .addr .value :: Fragment.callRoutine (.load (.ofScalar target)),
        expected, .computed⟩
    else env.mismatch name (.scalar target) expected
  | other => env.mismatch pointer other (.pointer other.cell)

/-- **Load an atomic expression** for a destination of a given name and
type. -/
def loadAtom (env : Env) (name : String) (expected : ValueType) :
    Expr → Except CompileError Loaded
  | .int value => env.loadLiteral name expected .int value
  | .hex value => env.loadLiteral name expected .hex (Int64.ofNat value.toNat)
  | .char code => env.loadLiteral name expected .char (Int64.ofNat code.toNat)
  | .str text =>
    match Text.bytes text with
    | [code] => env.loadLiteral name expected .char (Int64.ofNat code.toNat)
    | bytes => env.mismatch name (.list .char bytes.length) expected
  | .ident source => env.loadVariable name expected source
  | .index list index => env.loadElement name expected list index
  | .addressOf target => env.loadAddress name expected target
  | .deref pointer => env.loadTarget name expected pointer
  | .list _ => env.fail (.unsupported (.nestedOperand .list name))
  | .binary _ _ _ => env.fail (.unsupported (.nestedOperand .binary name))

/-! ## Operators -/

/-- **Load an atomic operand into a register.** A literal goes straight there
if it fits in `cell`; anything else is loaded at its own type and copied. -/
def loadInto (env : Env) (name : String) (cell : Scalar) (rd : Reg) (e : Expr) :
    Except CompileError Fragment :=
  match e with
  | .list _ | .binary _ _ _ => env.fail (.unsupported (.nestedOperand e.form name))
  | _ =>
    match e.literalValue? with
    | some value => do
      env.checkFits name cell value
      return [.loadLiteral rd value e.isHex]
    | none => do
      let ty ← env.operandType e
      if ty.isList then env.mismatch name ty (.scalar cell)
      else
        let loaded ← env.loadAtom name ty e
        return loaded.code ++ [.mov rd .value]

/-- **Load the result of an operator.** -/
def arithmetic (env : Env) (name : String) (expected : ValueType) (op : BinaryOp)
    (lhs rhs : Expr) : Except CompileError Loaded := do
  if expected.isList then
    let found ← env.operandType lhs
    env.mismatch name found expected
  else
    let left ← env.loadInto name expected.cell .lhs lhs
    match op.lower with
    | .shift shift =>
      match rhs.literalValue? with
      | some amount =>
        return ⟨left ++ [.instr (.shift shift .lhs amount), .mov .value .lhs], expected,
          .computed⟩
      | none => env.fail (.variableShift name)
    | .alu alu =>
      let right ← env.loadInto name expected.cell .rhs rhs
      return ⟨left ++ right ++ [.instr (.alu alu .lhs .lhs .rhs), .mov .value .lhs], expected,
        .computed⟩

/-! ## Loads -/

/-- **Load an expression** for a destination of a given name and type. -/
def load (env : Env) (name : String) (expected : ValueType) (e : Expr) :
    Except CompileError Loaded :=
  match e with
  | .binary op lhs rhs => env.arithmetic name expected op lhs rhs
  | .list _ => do
    let found ← env.operandType e
    env.mismatch name found expected
  | _ => env.loadAtom name expected e

/-- **Load an expression for a raw write** of a scalar type. A literal only has
to fit; any other expression keeps its own type, and the store cuts it. -/
def loadRaw (env : Env) (ty : Scalar) (e : Expr) : Except CompileError Loaded :=
  let name := "[" ++ ty.name ++ "]"
  match e.literalValue? with
  | some value => do
    env.checkFits name ty value
    return ⟨[.loadLiteral .value value e.isHex], .scalar ty, .literal value⟩
  | none => do
    let own ← env.operandType e
    env.load name own e

end Env

end RegMachine
