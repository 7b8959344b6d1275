import RegMachine.Compile.Env
import RegMachine.Text.Lines

/-!
# Embedded assembly

A program may carry assembly text. It is copied line by line, without blank
lines and without the blanks around a line. A variable's name in braces stands
for its address.

A line is first cut into pieces (`Embed.pieces`): a brace opens a placeholder,
which goes on to the next closing brace, whatever stands between. A brace that
is never closed opens nothing.
-/

namespace RegMachine

/-- A piece of a line of embedded assembly. -/
inductive Piece where
  /-- A character that is copied. -/
  | char (c : Char)
  /-- A placeholder, by the text between its braces. -/
  | hole (name : List Char)
deriving DecidableEq

namespace Embed

/-- The pieces of a line. The first argument is the text (in reverse) since a
brace that is still open. -/
def piecesFrom : Option (List Char) → List Char → List Piece
  | none, [] => []
  | none, c :: cs =>
    if c = '\x7b' then piecesFrom (some []) cs else .char c :: piecesFrom none cs
  | some name, [] => .char '\x7b' :: name.reverse.map .char
  | some name, c :: cs =>
    if c = '\x7d' then .hole name.reverse :: piecesFrom none cs
    else piecesFrom (some (c :: name)) cs

/-- **The pieces of a line.** -/
def pieces (line : List Char) : List Piece := piecesFrom none line

end Embed

namespace Env

/-- The text that stands for a piece: a placeholder stands for the address of
the variable that it names, blanks around the name aside. -/
def pieceText (env : Env) : Piece → Except CompileError (List Char)
  | .char c => .ok [c]
  | .hole name => do
    let v ← env.lookup (String.ofList (Text.trim name))
    return (Text.hexAddress v.address).toList

/-- The text that stands for pieces. -/
def piecesText (env : Env) : List Piece → Except CompileError (List Char)
  | [] => .ok []
  | p :: rest => do
    let text ← env.pieceText p
    let more ← env.piecesText rest
    return text ++ more

/-- **A line with its placeholders filled in.** -/
def substitute (env : Env) (line : List Char) : Except CompileError (List Char) :=
  env.piecesText (Embed.pieces line)

/-- The items of lines of embedded assembly. -/
def embedLines (env : Env) : List (List Char) → Except CompileError Fragment
  | [] => .ok []
  | line :: rest =>
    let line := Text.trim line
    if line.isEmpty then env.embedLines rest
    else do
      let text ← env.substitute line
      let more ← env.embedLines rest
      return .raw (String.ofList text) :: more

/-- **Copy assembly text into the output.** -/
def embed (env : Env) (code : String) : Except CompileError Fragment :=
  env.embedLines (Text.lines code.toList)

end Env

end RegMachine
