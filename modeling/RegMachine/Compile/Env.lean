import RegMachine.Code.Fragment
import RegMachine.Compile.Error
import RegMachine.Symbols

/-!
# Typing expressions

Expressions are compiled against an *environment*, the variables in sight and
the line of the statement that holds the expression. They read it and change
nothing.

`Env.operandType` is the type an expression has of its own. The typing is
shallow where the code is: a list literal takes its element type from its
first item, and an operator its type from its left operand.
-/

namespace RegMachine

/-- The variables in sight of an expression, and its line. -/
structure Env where
  vars : Table Variable
  line : Nat

namespace Env

variable {α : Type}

/-- Stop with a fault. -/
def fail (env : Env) (fault : CompileFault) : Except CompileError α :=
  .error ⟨env.line, fault⟩

/-- Stop because a value has another type than is expected. -/
def mismatch (env : Env) (name : String) (found expected : ValueType) :
    Except CompileError α :=
  env.fail (.typeMismatch name (.exact found) (.exact expected))

/-- **Look up a variable.** The fault lists every bound name. -/
def lookup (env : Env) (name : String) : Except CompileError Variable :=
  match env.vars.get? name with
  | some v => .ok v
  | none => env.fail (.unknownVariable name env.vars.keys)

/-- Stop unless a literal fits in a scalar. -/
def checkFits (env : Env) (name : String) (ty : Scalar) (value : Int64) :
    Except CompileError Unit :=
  if ty.fits value.toInt then .ok () else env.fail (.overflow name value.toInt ty)

/-- **The type of an expression.** A string of a single byte is a
character. -/
def operandType (env : Env) : Expr → Except CompileError ValueType
  | .int _ => .ok (.scalar .int)
  | .hex _ => .ok (.scalar .hex)
  | .char _ => .ok (.scalar .char)
  | .str text =>
    match Text.bytes text with
    | [_] => .ok (.scalar .char)
    | bytes => .ok (.list .char bytes.length)
  | .ident name => do
    let v ← env.lookup name
    return v.type
  | .list [] => .ok (.list .int 0)
  | .list (first :: rest) => do
    let ty ← env.operandType first
    return .list ty.cell (rest.length + 1)
  | .index list _ => do
    let v ← env.lookup list
    return .scalar v.type.cell
  | .addressOf name => do
    let v ← env.lookup name
    return .pointer v.type.cell
  | .deref name => do
    let v ← env.lookup name
    match v.type with
    | .pointer target => return .scalar target
    | other => env.mismatch name other (.pointer other.cell)
  | .binary _ lhs _ => env.operandType lhs

end Env

end RegMachine
