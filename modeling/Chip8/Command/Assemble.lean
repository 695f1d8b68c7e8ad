import Chip8.Assembly.Program
import Chip8.Command.Invocation
import Chip8.Command.Outcome

/-! # The assembler command

Reads source from one file and writes the program image to another.  Source is
UTF-8; nothing is written when it cannot be read or assembled. -/

namespace Chip8.Command

/-- A file to be written. -/
structure Image where
  path : String
  bytes : List UInt8
  deriving DecidableEq, Repr

/-- The text of a file, if it is UTF-8. -/
def sourceText? (bytes : List UInt8) : Option String := String.fromUTF8? ⟨bytes.toArray⟩

/-- The image of source as it stands in a file, or how the command fails. -/
def imageOf (input : String) (contents : Option (List UInt8)) : Except Outcome (List UInt8) :=
  match contents with
  | none => .error (.unreadable input)
  | some bytes =>
    match sourceText? bytes with
    | none => .error (.failure (input ++ " is not UTF-8"))
    | some source =>
      match Assembly.assemble source with
      | .error e => .error (.failure e.message)
      | .ok image => .ok image

/-- Run the assembler, up to the writing of the image it returns. -/
def assemble {m : Type → Type} [Monad m] (arguments? : ArgumentReader) (read : FileReader m)
    (arguments : List String) : m (Except Outcome Image) := do
  match arguments? [] 2 arguments with
  | some { positionals := [input, output], .. } =>
    match imageOf input (← read input) with
    | .error outcome => pure (.error outcome)
    | .ok bytes => pure (.ok { path := output, bytes })
  | _ => pure (.error (.usage "assemble INPUT OUTPUT"))

end Chip8.Command
