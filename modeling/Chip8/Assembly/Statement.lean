import Chip8.Text.Blank

/-! # Statements

A line of source holds at most one statement.  A semicolon starts a comment that
lasts to the end of the line; of what is left, the part before the first colon is a
label and the part after it the body.  Both are trimmed, and a body may be empty. -/

namespace Chip8.Assembly

open Text

/-- A line of source without its comment. -/
structure Statement where
  label : Option (List Char)
  body : List Char
  deriving DecidableEq, Repr

namespace Statement

/-- The code of a line: what stands before the first semicolon, trimmed. -/
def codeOf (line : List Char) : List Char := trim (line.takeWhile (· ≠ ';'))

/-- Split a line of source. -/
def ofLine (line : List Char) : Statement :=
  let code := codeOf line
  match code.dropWhile (· ≠ ':') with
  | [] => { label := none, body := code }
  | _ :: rest => { label := some (trim (code.takeWhile (· ≠ ':'))), body := trim rest }

/-- Whether the statement has a body, and so stands for a word of the program. -/
def isCode (s : Statement) : Bool := !s.body.isEmpty

/-- The statements of a source text with their line numbers. -/
def ofSource (source : String) : List (Nat × Statement) :=
  (lines source.toList).zipIdx.map fun (line, row) => (row + 1, ofLine line)

end Statement

end Chip8.Assembly
