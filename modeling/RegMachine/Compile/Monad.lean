import RegMachine.Compile.Env
import RegMachine.Scope

/-!
# Compiling in a scope

Statements are compiled by actions on a scope that may fail. A failure keeps
the scope as it was left: what was handed out or declared before the fault
stays handed out and declared. `EStateM` is the monad with exactly this
reading of failure.

The actions here are the whole of what statements do to a scope. Each one that
can fail leaves the scope as it was when it does.
-/

namespace RegMachine

/-- An action on a scope that may fail, and keeps its scope when it does. -/
abbrev CompileM := EStateM CompileError Scope

/-- The environment of the expressions on a line. -/
def Scope.env (s : Scope) (line : Nat) : Env := ⟨s.symbols.vars, line⟩

namespace CompileM

variable {α : Type}

/-- An outcome that does not touch the scope. -/
def ofExcept (x : Except CompileError α) : CompileM α := fun s =>
  match x with
  | .ok a => .ok a s
  | .error e => .error e s

instance : MonadLift (Except CompileError) CompileM := ⟨ofExcept⟩

/-- Stop with a fault on a line. -/
def fail (line : Nat) (fault : CompileFault) : CompileM α := fun s =>
  .error ⟨line, fault⟩ s

/-- The environment of the expressions on a line. -/
def env (line : Nat) : CompileM Env := fun s => .ok (s.env line) s

/-! ## Allocation and counters -/

/-- The address that is handed out next. -/
def nextAddress : CompileM UInt32 := fun s => .ok s.symbols.nextAddress s

/-- **Hand out `size` bytes.** -/
def allocate (size line : Nat) : CompileM UInt32 := fun s =>
  match s.symbols.allocate? size with
  | some (address, symbols) => .ok address { s with symbols := symbols }
  | none => .error ⟨line, .addressOverflow size s.symbols.nextAddress⟩ s

/-- **Move a cursor forward** to an address. -/
def moveCursor (region : Region) (address : UInt32) (line : Nat) : CompileM Unit := fun s =>
  match region with
  | .cells =>
    if address < s.symbols.nextAddress then
      .error ⟨line, .addressRegression address s.symbols.nextAddress⟩ s
    else .ok () { s with symbols := { s.symbols with nextAddress := address } }
  | .data =>
    if address < s.symbols.nextDataAddress then
      .error ⟨line, .addressRegression address s.symbols.nextDataAddress⟩ s
    else .ok () { s with symbols := { s.symbols with nextDataAddress := address } }

/-- **Take the next label index.** -/
def newLabel : CompileM Nat := fun s => .ok s.labels { s with labels := s.labels + 1 }

/-- Count a warning. -/
def warn : CompileM Unit := fun s => .ok () { s with warnings := s.warnings + 1 }

/-! ## Variables -/

/-- **Stop if a name is bound**, unless the block is unrolled. -/
def ensureUndeclared (name : String) (line : Nat) : CompileM Unit := fun s =>
  if s.symbols.vars.contains name && !s.mode.unrolling then
    .error ⟨line, .variableExists name⟩ s
  else .ok () s

/-- Bind a variable, whether or not its name is bound. -/
def bindVariable (name : String) (v : Variable) : CompileM Unit := fun s =>
  .ok () { s with symbols := s.symbols.insertVariable name v }

/-- **Declare a variable**: bind it if its name may be bound here. -/
def declare (name : String) (v : Variable) (line : Nat) : CompileM Unit := do
  ensureUndeclared name line
  bindVariable name v

/-- Look up a variable. -/
def lookup (name : String) (line : Nat) : CompileM Variable := fun s =>
  ofExcept ((s.env line).lookup name) s

/-- **Record what a variable holds now.** -/
def setValue (name : String) (value : Stored) (line : Nat) : CompileM Unit := fun s =>
  match s.symbols.setValue? name value with
  | some symbols => .ok () { s with symbols := symbols }
  | none => .error ⟨line, .unknownVariable name s.symbols.vars.keys⟩ s

/-! ## Functions and namespaces -/

/-- **Claim the label of a function**, which no other definition of the
program may have. -/
def claimLabel (label : String) (line : Nat) : CompileM Unit := fun s =>
  if s.functionLabels.contains label then .error ⟨line, .functionExists label⟩ s
  else .ok () { s with functionLabels := s.functionLabels ++ [label] }

/-- Bind a function under its name, to be brought back by a sync. -/
def declareFunction (f : Function) : CompileM Unit := fun s =>
  .ok () { s with
    symbols := s.symbols.insertFunction f.name f
    exports := s.exports ++ [.function f.name] }

/-- Bind a namespace under its name, to be brought back by a sync. -/
def declareNamespace (n : Namespace) : CompileM Unit := fun s =>
  .ok () { s with
    symbols := s.symbols.insertNamespace n.name n
    exports := s.exports ++ [.space n.name] }

/-! ## Streams and children -/

/-- Append code to a stream. -/
def emit (stream : Stream) (code : Fragment) : CompileM Unit := fun s =>
  .ok () (s.emit stream code)

/-- **Run an action in a child scope.** The scope itself is left alone, and a
failure of the action drops the child. The child's final scope is answered. -/
def inChild (link : Link) (enter : Scope → Scope) (x : CompileM α) : CompileM (α × Scope) :=
  fun s =>
    match x (enter (s.fork link)) with
    | .ok a child => .ok (a, child) s
    | .error e _ => .error e s

/-- Fold a finished child back, and answer the body it produced. -/
def sync (child : Scope) : CompileM Fragment := fun s => .ok child.body (s.sync child)

/-- **Compile a block in a child scope** and fold it back. -/
def block (link : Link) (x : CompileM Unit) : CompileM Fragment := do
  let (_, child) ← inChild link id x
  sync child

/-- **Compile an unrolled block.** It works on the tables of the scope itself,
so it is folded back even if it fails. -/
def unrolled (x : CompileM Unit) : CompileM Fragment := fun s =>
  let start := s.fork .shared
  match x { start with mode := { start.mode with unrolling := true } } with
  | .ok _ child => .ok child.body (s.sync child)
  | .error e child => .error e (s.sync child)

end CompileM

namespace Scope

/-- **Look up a namespace.** The fault lists every visible one. -/
def lookupNamespace (s : Scope) (name : String) (line : Nat) : Except CompileError Namespace :=
  match s.symbols.namespaces.get? name with
  | some n => .ok n
  | none => .error ⟨line, .namespaceNotFound name s.symbols.namespaces.keys⟩

end Scope

end RegMachine
