import RegMachine.Compile.Stmt

/-!
# Programs

A program is compiled in a fresh top-level scope. What is kept of the scope
are its two streams, its symbols and the number of warnings.
-/

namespace RegMachine

/-- A compiled program. -/
structure Program where
  body : Fragment
  definitions : Fragment
  symbols : Symbols Function Namespace
  warnings : Nat
  /-- Whether its texts have comments. -/
  comments : Bool
deriving DecidableEq

namespace Program

/-- The program that a scope ended with. -/
def ofScope (s : Scope) : Program where
  body := s.body
  definitions := s.definitions
  symbols := s.symbols
  warnings := s.warnings
  comments := s.config.comments

/-- **Compile a program.** -/
def compile (config : Config) (stmts : List Stmt) : Except CompileError Program :=
  match compileAll stmts (Scope.root config) with
  | .ok _ s => .ok (ofScope s)
  | .error e _ => .error e

/-- The text of the body. -/
def bodyText (p : Program) : String := p.body.render p.comments

/-- The text of the function definitions. -/
def definitionsText (p : Program) : String := p.definitions.render p.comments

end Program

end RegMachine
