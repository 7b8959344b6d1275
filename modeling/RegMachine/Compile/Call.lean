import RegMachine.Compile.Monad
import RegMachine.Compile.Store

/-!
# Calls

A caller stores each argument in the callee's parameter cell, one after the
other, and then jumps. The return address is the one behind the jump, three
instructions on:

```text
[arguments]
ldr r0, $3
ldr r23, .label
jpr r23
```

`putchar` is built in: it writes one character to the output device. A function
of that name takes its place.
-/

namespace RegMachine

namespace Env

/-- Code that stores an argument in the cell of a parameter. -/
def passArgument (env : Env) (p : Param) (arg : Expr) : Except CompileError Fragment :=
  match p.type with
  | .list element len => env.copyList p.name p.address element len arg
  | type => (env.assign p.name type arg p.address).map Prod.fst

/-- Code that stores arguments in the cells of parameters, one after the
other. -/
def passArguments (env : Env) : List Param → List Expr → Except CompileError Fragment
  | p :: params, arg :: args => do
    let code ← env.passArgument p arg
    let more ← env.passArguments params args
    return code ++ more
  | _, _ => .ok []

/-- **Write a character to the output device.** -/
def putchar (env : Env) (device : UInt32) (args : List Expr) : Except CompileError Fragment :=
  match args with
  | [arg] => do
    let loaded ← env.loadRaw .char arg
    return .comment ("putchar " ++ arg.tag) :: loaded.code
      ++ [.ldr .device (.hex device), .instr (.store .byte .value .device)]
  | _ => env.fail (.argumentCount "putchar" 1 args.length)

/-- **Call a function.** -/
def callFunction (env : Env) (f : Function) (args : List Expr) :
    Except CompileError Fragment := do
  if f.params.length = args.length then
    let stores ← env.passArguments f.params args
    return .comment ("call " ++ f.label) :: stores
      ++ [.ldr .ret (.forward 3), .ldr .call (.label f.label), .jpr .call]
  else env.fail (.argumentCount f.label f.params.length args.length)

end Env

namespace Scope

/-- **The function that a call means.** A qualified call reaches only what the
namespace itself declares. -/
def resolveFunction (s : Scope) (line : Nat) (space : Option String) (name : String) :
    Except CompileError Function :=
  match space with
  | some space => do
    let n ← s.lookupNamespace space line
    match n.symbols.functions.get? name with
    | some f => .ok f
    | none => .error ⟨line, .unknownFunction (space ++ "::" ++ name)⟩
  | none =>
    match s.symbols.functions.get? name with
    | some f => .ok f
    | none => .error ⟨line, .unknownFunction name⟩

/-- Whether a call means the built-in output of a character. -/
def meansPutchar (s : Scope) (space : Option String) (name : String) : Bool :=
  space.isNone && name = "putchar" && !s.symbols.functions.contains "putchar"

/-- **The code of a call.** -/
def call (s : Scope) (line : Nat) (space : Option String) (name : String)
    (args : List Expr) : Except CompileError Fragment :=
  if s.meansPutchar space name then (s.env line).putchar s.config.outputPort args
  else do
    let f ← s.resolveFunction line space name
    (s.env line).callFunction f args

end Scope

end RegMachine
