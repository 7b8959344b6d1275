import RegMachine.Code.Fragment
import RegMachine.Config
import RegMachine.Lang.Stmt
import RegMachine.Symbols

/-!
# Scopes

A scope is the state of compiling one block: the symbols it knows, the
counters and sets that are unique over the whole program, and the two streams
of code it has produced, the body and the definitions of functions.

Nested blocks are compiled in a scope of their own, *forked* from the scope
around them and *synced* back into it. A child always starts from its
parent's cursors, label counter, claimed labels and warnings, and always hands
them back, so addresses and labels stay unique over the program. What it sees
of the parent's tables, and which of its own bindings come back, is decided by
its *link*:

| link          | the child starts with | sync brings back                      |
|---------------|-----------------------|---------------------------------------|
| `copy`        | a copy of the tables  | cursors and counters                  |
| `shared`      | the tables            | the tables as the child left them     |
| `passThrough` | a copy of the tables  | also new functions and namespaces     |
| `isolated`    | empty tables          | also new functions and namespaces     |

A warning is counted; its text goes to the log only, which is left out.
-/

namespace RegMachine

/-- The switches of a scope. -/
structure Mode where
  /-- Directives may move the allocation cursors. -/
  bitset : Bool
  /-- The block is unrolled: declaring a bound name binds it anew. -/
  unrolling : Bool
deriving DecidableEq

/-- How a scope relates to the one it was forked from. -/
inductive Link where
  /-- The block of a branch, a loop or a function. -/
  | copy
  /-- The block of an unrolled loop. -/
  | shared
  /-- A namespace. -/
  | passThrough
  /-- An included unit. -/
  | isolated
deriving DecidableEq

/-- Whether the functions and namespaces of the child are brought back by
name. -/
def Link.mergesBack : Link → Bool
  | passThrough | isolated => true
  | _ => false

/-- A function or namespace that was declared in a scope, by its name. -/
inductive Export where
  | function (name : String)
  | space (name : String)
deriving DecidableEq

/-- **The state of compiling a block.** -/
structure Scope where
  symbols : Symbols Function Namespace
  /-- The index of the next branch or loop label. A counter of 32 bits agrees
  with it in every run with fewer than `2 ^ 32` branches and loops, unrolled
  copies counted; only behind that would an index come back. -/
  labels : Nat
  /-- The labels of all functions defined so far, in the whole program. -/
  functionLabels : List String
  /-- How many warnings there were. A counter of 32 bits agrees with it in every
  run with fewer than `2 ^ 32` warnings. -/
  warnings : Nat
  mode : Mode
  link : Link
  /-- The enclosing namespaces, outermost first. -/
  path : List String
  config : Config
  /-- What was declared here and is to be brought back. -/
  exports : List Export
  /-- The stream of the program's body. -/
  body : Fragment
  /-- The stream of function definitions. -/
  definitions : Fragment
deriving DecidableEq

namespace Scope

/-- The top-level scope of a program whose cursors start at given
addresses. -/
def startingAt (config : Config) (nextAddress nextDataAddress : UInt32) : Scope where
  symbols := .startingAt nextAddress nextDataAddress
  labels := 0
  functionLabels := []
  warnings := 0
  mode := { bitset := config.allowBitset, unrolling := false }
  link := .isolated
  path := []
  config := config
  exports := []
  body := []
  definitions := []

/-- **The top-level scope of a program.** -/
def root (config : Config) : Scope :=
  startingAt config config.bitstart config.bitdata

/-! ## Namespaces -/

/-- The qualified name of the namespace that encloses the scope. -/
def space (s : Scope) : String :=
  if s.path.isEmpty then s.config.space else "::".intercalate s.path

/-- **A name behind the enclosing namespaces.** -/
def qualify (s : Scope) (name : String) : String :=
  "::".intercalate (s.path ++ [name])

/-- The scope inside one more namespace. -/
def enter (s : Scope) (name : String) : Scope :=
  { s with path := s.path ++ [name] }

/-! ## Fork and sync -/

/-- **The scope of a nested block.** Directives stay allowed only across an
isolated link. -/
def fork (s : Scope) (link : Link) : Scope :=
  { s with
    symbols := match link with
      | .isolated => .startingAt s.symbols.nextAddress s.symbols.nextDataAddress
      | _ => s.symbols
    mode := match link with
      | .isolated => s.mode
      | _ => { s.mode with bitset := false }
    link := link
    exports := []
    body := []
    definitions := [] }

/-- Bind in `target` what the name of an export is bound to in the scope. -/
def copyExport (s : Scope) (target : Symbols Function Namespace) :
    Export → Symbols Function Namespace
  | .function name =>
    match s.symbols.functions.get? name with
    | some f => target.insertFunction name f
    | none => target
  | .space name =>
    match s.symbols.namespaces.get? name with
    | some n => target.insertNamespace name n
    | none => target

/-- **What was declared in the scope itself**, and nothing it inherited. A
name that was declared more than once stands for its last declaration. -/
def exportedSymbols (s : Scope) : Symbols Function Namespace :=
  s.exports.foldl s.copyExport
    (.startingAt s.symbols.nextAddress s.symbols.nextDataAddress)

/-- The symbols of a parent when a child has been folded back into it. -/
def syncSymbols (s child : Scope) : Symbols Function Namespace :=
  match child.link with
  | .copy => s.symbols.adoptCursors child.symbols
  | .shared => child.symbols
  | .passThrough | .isolated =>
    child.exports.foldl child.copyExport (s.symbols.adoptCursors child.symbols)

/-- The exports of a parent when a child has been folded back into it. -/
def syncExports (s child : Scope) : List Export :=
  match child.link with
  | .copy => s.exports
  | _ => s.exports ++ child.exports

/-- **Fold a finished child back into its parent.** The child's body is not
taken over: the parent places it where the block stands. -/
def sync (s child : Scope) : Scope :=
  { s with
    symbols := s.syncSymbols child
    labels := child.labels
    functionLabels := child.functionLabels
    warnings := child.warnings
    exports := s.syncExports child
    definitions := s.definitions ++ child.definitions }

/-- Append to one of the streams. -/
def emit (s : Scope) (stream : Stream) (code : Fragment) : Scope :=
  match stream with
  | .body => { s with body := s.body ++ code }
  | .definitions => { s with definitions := s.definitions ++ code }
  | .silent => s

end Scope

end RegMachine
