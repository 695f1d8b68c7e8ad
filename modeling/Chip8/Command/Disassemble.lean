import Chip8.Assembly.Listing
import Chip8.Command.Invocation
import Chip8.Command.Outcome
import Chip8.Memory
import Chip8.Text.Decimal
import Chip8.Text.Numeral

/-! # The disassembler command

Prints the listing of a program image.  With `--source` it prints the statements
alone, which assemble to the image again; with `--base` the listing starts at
another address. -/

namespace Chip8.Command

open Text Assembly

/-- What the disassembler was asked to do. -/
structure DisassembleSettings where
  input : String
  base : UInt16
  source : Bool
  deriving DecidableEq, Repr

namespace DisassembleSettings

/-- Read a base address: a hexadecimal numeral, possibly behind `0x` or `#`. -/
def base? (text : List Char) : Option UInt16 :=
  let digits :=
    match text with
    | '0' :: 'x' :: digits => digits
    | '#' :: digits => digits
    | digits => digits
  (numeral? 16 UInt16.size digits).map UInt16.ofNat

/-- What stands for `--base` when it is not given: the program base as a decimal number.
    It is read in the way of any base, that is as hexadecimal. -/
def defaultBase : String := decimal Memory.programBase.toNat

/-- The options of the disassembler. -/
def specs : List OptionSpec :=
  [{ name := "base", short := 'b', default? := defaultBase }, { name := "source", short := 's' }]

/-- Read the arguments of the disassembler. -/
def ofArguments? (arguments? : ArgumentReader) (arguments : List String) :
    Option DisassembleSettings := do
  let invocation ← arguments? specs 1 arguments
  let base ← invocation.value? "base" base?
  let input ← invocation.positionals.head?
  some { input, base, source := invocation.has "source" }

/-- What is printed for an image. -/
def print (s : DisassembleSettings) (image : List UInt8) : String :=
  linesText ((listing image s.base).map fun row => if s.source then row.text else row.line)

end DisassembleSettings

/-- Run the disassembler. -/
def disassemble {m : Type → Type} [Monad m] (arguments? : ArgumentReader) (read : FileReader m)
    (arguments : List String) : m Outcome := do
  match DisassembleSettings.ofArguments? arguments? arguments with
  | none => pure (.usage "disassemble [--base ADDRESS] [--source] INPUT")
  | some settings =>
    match ← read settings.input with
    | none => pure (.unreadable settings.input)
    | some image => pure (.success (settings.print image))

end Chip8.Command
