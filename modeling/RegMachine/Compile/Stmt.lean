import RegMachine.Compile.Call
import RegMachine.Compile.Declare
import RegMachine.Compile.Embed

/-!
# Compiling statements

Every statement becomes a fragment, and the fragment goes to the stream of the
statement's kind. Blocks are compiled in child scopes (`CompileM.block`), so
what a block declares is gone after it, except where its link says otherwise.

A branch leaves a condition that does *not* hold for its second block:

```text
ldr r17, .if_end_N
[lhs in r26]
[rhs in r30]
jprXX r17, r26, r30
[first block]
ldr r16, .else_end_N
jpr r16
.if_end_N
[second block]
.else_end_N
```

A loop jumps back to its start in the same manner, and an unrolled loop is a
copy of its block for every element, each behind a store of the index to the
loop's variable. A function saves its return address in a cell of its own,
which is handed out after the cells of its body.
-/

namespace RegMachine

/-- **The jump that leaves a block** when a comparison does not hold. The
strict comparisons are left only when the opposite strict one holds, so equal
operands stay in the block. -/
def Comparison.exitCond : Comparison → BranchCond
  | equal => .notEqual
  | notEqual => .equal
  | less => .greater
  | greater => .less

/-- Code that jumps to the address in `Reg.branch` unless a condition
holds. -/
def Env.condition (env : Env) (cond : Condition) : Except CompileError Fragment := do
  let name := "condition (" ++ cond.op.text ++ ")"
  let left ← env.loadInto name .int .cmpLhs cond.lhs
  let right ← env.loadInto name .int .cmpRhs cond.rhs
  return left ++ right ++ [.instr (.branch cond.op.exitCond .branch .cmpLhs .cmpRhs)]

/-- The comment in front of a branch. -/
def Condition.comment (cond : Condition) : String :=
  "if " ++ cond.lhs.tag ++ " " ++ cond.op.text ++ " " ++ cond.rhs.tag

/-- Code that sets the variable of an unrolled loop to an index. -/
def Fragment.setIndex (var : String) (address : UInt32) (index : Nat) : Fragment :=
  .comment (var ++ " = " ++ Text.decimal index)
    :: .loadLiteral .value (Int64.ofNat index) false
    :: Fragment.storeTo address .word

namespace CompileM

/-- Compile `count` copies of a block, from the one of an index on. -/
def copies (line : Nat) (var : String) (address : UInt32) (body : CompileM Unit) :
    Nat → Nat → CompileM Unit
  | 0, _ => pure ()
  | count + 1, index => do
    emit .body (Fragment.setIndex var address index)
    setValue var (.literal (Int64.ofNat index)) line
    body
    copies line var address body count (index + 1)

/-- **Compile an unrolled loop** over a list variable. -/
def unroll (line : Nat) (var iterable : String) (body : CompileM Unit) : CompileM Fragment := do
  let v ← lookup iterable line
  match v.type with
  | .list _ len =>
    unrolled do
      let address ← allocate Scalar.int.size line
      bindVariable var ⟨address, .scalar .int, .zeroed⟩
      copies line var address body len 0
  | other => fail line (.typeMismatch iterable (.exact other) .anyList)

/-- **Compile a branch**, given what compiles its blocks. -/
def branch (line : Nat) (cond : Condition) (thenBody elseBody : CompileM Unit) :
    CompileM Fragment := do
  let labels := BranchLabels.ofIndex (← newLabel)
  let env ← env line
  let test ← env.condition cond
  let first ← block .copy thenBody
  let second ← block .copy elseBody
  return .comment cond.comment :: .ldr .branch (.label labels.ifEnd) :: test
    ++ first
    ++ [.ldr .skip (.label labels.elseEnd), .jpr .skip, .label labels.ifEnd]
    ++ second
    ++ [.label labels.elseEnd]

/-- **Compile a loop**, given what compiles its block. -/
def loop (line : Nat) (cond : Condition) (body : CompileM Unit) : CompileM Fragment := do
  let labels := LoopLabels.ofIndex (← newLabel)
  let env ← env line
  let test ← env.condition cond
  let code ← block .copy body
  return .label labels.start :: .ldr .branch (.label labels.stop) :: test
    ++ code
    ++ [.ldr .skip (.label labels.start), .jpr .skip, .label labels.stop]

/-- **Compile the definition of a function**, given what compiles its body. The
body sees the function itself, so that it can call it. -/
def function (line : Nat) (name : String) (formals : List Formal) (body : CompileM Unit) :
    CompileM Fragment := do
  let label := (← get).qualify name
  claimLabel label line
  let ((params, slot), child) ← inChild .copy id do
    let params ← declareParams line formals
    declareFunction (.stub name label params)
    body
    let slot ← allocate 4 line
    return (params, slot)
  let inner ← sync child
  let code := .label label :: .comment ("return slot " ++ Text.hexAddress slot)
    :: .mov .value .ret :: Fragment.storeTo slot .word
    ++ inner
    ++ Fragment.loadFrom slot .word ++ [.jpr .value]
  declareFunction
    { name := name
      label := label
      params := params
      returnSlot := slot
      symbols := child.symbols.record
      text := Fragment.render code (← get).config.comments }
  return code

/-- **Compile a namespace**, given what compiles its body. What it declares is
visible afterwards by its own name too. -/
def space (name : String) (body : CompileM Unit) : CompileM Fragment := do
  let (_, child) ← inChild .passThrough (·.enter name) body
  let code ← sync child
  declareNamespace ⟨name, child.exportedSymbols.forgetNamespaces⟩
  return code

/-- **Compile an included unit**, given what compiles its body. -/
def unit (path : String) (body : CompileM Unit) : CompileM Fragment := do
  let code ← block .isolated body
  return .comment ("include " ++ path) :: code

end CompileM

mutual

/-- **The code of a statement.** -/
def Stmt.compile : Stmt → CompileM Fragment
  | .declare line type name value => CompileM.declareVariable line type name value
  | .declareList line name element len value => CompileM.declareList line name element len value
  | .assign line name value => CompileM.assign line name value
  | .assignAt line name index value => CompileM.assignAt line name index value
  | .branch line cond thenBody elseBody =>
    CompileM.branch line cond (compileAll thenBody) (compileAll elseBody)
  | .loop line cond body => CompileM.loop line cond (compileAll body)
  | .unroll line var iterable body => CompileM.unroll line var iterable (compileAll body)
  | .function line name formals body => CompileM.function line name formals (compileAll body)
  | .call line space name args => do
    let s ← get
    s.call line space name args
  | .space _ name body => CompileM.space name (compileAll body)
  | .embed line code => do
    let env ← CompileM.env line
    env.embed code
  | .unit _ path body => CompileM.unit path (compileAll body)
  | .poke line address type value => do
    let env ← CompileM.env line
    env.poke address type value
  | .directive line region address => do
    CompileM.directive line region address
    return []

/-- **Compile statements into the streams of the scope**, one after the other,
up to the first that fails. -/
def compileAll : List Stmt → CompileM Unit
  | [] => pure ()
  | stmt :: rest => do
    let code ← stmt.compile
    CompileM.emit stmt.kind.stream code
    compileAll rest

end

end RegMachine
