import RegMachine.Lang.Expr

/-!
# Statements

A program is a list of statements. Every statement carries the source line it
stands on, 0 where that is unknown, and blocks nest freely.

Trees come in from outside as tagged records. `StmtKind` is the list of tags
there are; a kind also decides which of the two output streams the code of a
statement goes to (`StmtKind.stream`).
-/

namespace RegMachine

/-! ## Conditions -/

/-- The comparisons of a condition. -/
inductive Comparison where
  | equal | notEqual | less | greater
deriving DecidableEq

namespace Comparison

/-- All comparisons. -/
def all : List Comparison :=
  [equal, notEqual, less, greater]

/-- The comparison as it is written. -/
def text : Comparison → String
  | equal => "=="
  | notEqual => "!="
  | less => "<"
  | greater => ">"

/-- The comparison of a given spelling. -/
def ofText? (s : String) : Option Comparison :=
  all.find? fun op => op.text = s

@[simp]
theorem ofText?_text (op : Comparison) : ofText? op.text = some op := by
  cases op <;> rfl

end Comparison

/-- The condition of a branch or loop. -/
structure Condition where
  op : Comparison
  lhs : Expr
  rhs : Expr

/-! ## Statements -/

/-- A formal parameter as it is declared. -/
structure Formal where
  name : String
  type : ValueType
deriving DecidableEq

/-- The two regions whose allocation cursor a directive can move. -/
inductive Region where
  /-- The cells of variables. -/
  | cells
  /-- The data region. -/
  | data
deriving DecidableEq

/-- A statement. -/
inductive Stmt where
  /-- Declare a variable of a given type. -/
  | declare (line : Nat) (type : ValueType) (name : String) (value : Expr)
  /-- Declare a list; what is left out follows from the value. -/
  | declareList (line : Nat) (name : String) (element : Option Scalar) (len : Option Nat)
      (value : Option Expr)
  /-- Assign to a variable. -/
  | assign (line : Nat) (name : String) (value : Expr)
  /-- Assign to an element of a list. -/
  | assignAt (line : Nat) (name : String) (index value : Expr)
  /-- Branch on a condition. A branch without `else` has an empty second
  block. -/
  | branch (line : Nat) (cond : Condition) (thenBody elseBody : List Stmt)
  /-- Repeat while a condition holds. -/
  | loop (line : Nat) (cond : Condition) (body : List Stmt)
  /-- Repeat once for every element of a list, unrolled while compiling. -/
  | unroll (line : Nat) (var iterable : String) (body : List Stmt)
  /-- Define a function. -/
  | function (line : Nat) (name : String) (params : List Formal) (body : List Stmt)
  /-- Call a function, of a given namespace if one is named. -/
  | call (line : Nat) (space : Option String) (name : String) (args : List Expr)
  /-- Open a namespace. -/
  | space (line : Nat) (name : String) (body : List Stmt)
  /-- Copy assembly text into the output. -/
  | embed (line : Nat) (code : String)
  /-- Compile another unit in place. -/
  | unit (line : Nat) (path : String) (body : List Stmt)
  /-- Write to a fixed address. -/
  | poke (line : Nat) (address : UInt32) (type : Scalar) (value : Expr)
  /-- Move an allocation cursor. -/
  | directive (line : Nat) (region : Region) (address : UInt32)

/-! ## Kinds -/

/-- The kinds of statements. -/
inductive StmtKind where
  | declare | declareList | assign | assignAt | branch | loop | unroll | function | call
  | space | embed | unit | poke | bitstart | bitdata
deriving DecidableEq

/-- Where the code of a statement goes. -/
inductive Stream where
  /-- The body of the program. -/
  | body
  /-- The definitions of functions. -/
  | definitions
  /-- Nowhere: the statement only acts while compiling. -/
  | silent
deriving DecidableEq

namespace StmtKind

/-- All kinds of statements. -/
def all : List StmtKind :=
  [declare, declareList, assign, assignAt, branch, loop, unroll, function, call, space, embed,
    unit, poke, bitstart, bitdata]

/-- The tag of a kind. -/
def tag : StmtKind → String
  | declare => "VARIABLE_ASSIGNMENT"
  | declareList => "LIST_DECLARATION"
  | assign => "VARIABLE_REASSIGNMENT"
  | assignAt => "VARIABLE_REASSIGNMENT_AT_INDEX"
  | branch => "CONDITIONAL"
  | loop => "WHILE"
  | unroll => "FOR_COMP"
  | function => "FUNCTION_DECLARATION"
  | call => "FUNCTION_CALL"
  | space => "CLASS_DECLARATION"
  | embed => "EMBED"
  | unit => "INCLUDE"
  | poke => "ADVANCED_WRITE"
  | bitstart => "BITSTART"
  | bitdata => "BITDATA"

/-- The kind of a given tag. -/
def ofTag? (s : String) : Option StmtKind :=
  all.find? fun kind => kind.tag = s

/-- **The stream a kind of statement writes to.** -/
def stream : StmtKind → Stream
  | function => .definitions
  | bitstart | bitdata => .silent
  | _ => .body

/-- No two kinds of statements have the same tag. -/
@[simp]
theorem ofTag?_tag (kind : StmtKind) : ofTag? kind.tag = some kind := by
  cases kind <;> rfl

end StmtKind

namespace Stmt

/-- The kind of a statement. -/
def kind : Stmt → StmtKind
  | declare .. => .declare
  | declareList .. => .declareList
  | assign .. => .assign
  | assignAt .. => .assignAt
  | branch .. => .branch
  | loop .. => .loop
  | unroll .. => .unroll
  | function .. => .function
  | call .. => .call
  | space .. => .space
  | embed .. => .embed
  | unit .. => .unit
  | poke .. => .poke
  | directive _ .cells _ => .bitstart
  | directive _ .data _ => .bitdata

/-- The source line of a statement. -/
def line : Stmt → Nat
  | declare line .. | declareList line .. | assign line .. | assignAt line .. | branch line ..
  | loop line .. | unroll line .. | function line .. | call line .. | space line ..
  | embed line .. | unit line .. | poke line .. | directive line .. => line

end Stmt

end RegMachine
