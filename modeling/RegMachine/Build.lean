import RegMachine.Asm.Assemble
import RegMachine.Program
import RegMachine.Template

/-!
# Building

From statements to bytes: compile, splice the streams into the template, and
assemble the text. A `Builder` holds the settings and the result of its last
build; a build that fails leaves it without one. What is logged on the way is
left out.
-/

namespace RegMachine

/-- What can fail in a build. -/
inductive BuildError where
  | compile (e : CompileError)
  | assemble (e : AsmError)
deriving DecidableEq

/-- The result of a build. -/
structure Build where
  program : Program
  /-- The text that was assembled. -/
  assembly : String
  object : ObjectCode
deriving DecidableEq

/-- **Build a program** with given settings and template. -/
def build (config : Config) (template : String) (stmts : List Stmt) :
    Except BuildError Build :=
  match Program.compile config stmts with
  | .error e => .error (.compile e)
  | .ok program =>
    let assembly := Template.render template program.bodyText program.definitionsText
    match assemble assembly with
    | .error e => .error (.assemble e)
    | .ok object => .ok ⟨program, assembly, object⟩

/-- The settings of builds, and the result of the last one. -/
structure Builder where
  config : Config := {}
  template : String := Template.base
  output : Option Build := none
deriving DecidableEq

namespace Builder

/-- **Build a program.** The result of an earlier build is dropped in any
case. -/
def run (b : Builder) (stmts : List Stmt) : Except BuildError Build × Builder :=
  let result := build b.config b.template stmts
  (result, { b with output := result.toOption })

/-- Whether the last build succeeded. -/
def isBuilt (b : Builder) : Bool := b.output.isSome

end Builder

end RegMachine
