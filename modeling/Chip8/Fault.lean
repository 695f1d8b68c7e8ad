import Chip8.Text.Decimal
import Chip8.Text.Hex

/-! # Faults

What can go wrong while a program is loaded or run.  A `RangeFault` is an operand
that points outside the machine, a `LoadFault` a program that cannot be placed in
memory, and a `Fault` either of them or a word that is no instruction.

Each cause carries the values that its message quotes, and the wording stands in
one `message` function per type. -/

namespace Chip8

open Text

/-- An operand that lies outside of what it addresses. -/
inductive RangeFault where
  /-- A call was made with every level of the call stack in use. -/
  | stackOverflow (depth : Nat)
  /-- A return was made outside of any call. -/
  | stackUnderflow
  /-- A range of bytes does not lie within memory. -/
  | outOfBounds (address length : Nat)
  /-- A write starts inside the font. -/
  | readOnly (address : Nat)
  /-- A register index is above fifteen. -/
  | noRegister (index : Nat)
  deriving DecidableEq, Repr

/-- A program image that cannot be loaded. -/
inductive LoadFault where
  /-- The image is larger than the space above the program base. -/
  | tooLarge (size capacity : Nat)
  /-- The machine holds a program already. -/
  | alreadyLoaded
  deriving DecidableEq, Repr

/-- A reason for a machine to refuse to go on. -/
inductive Fault where
  /-- The word at the program counter is no instruction. -/
  | undecodable (word : UInt16)
  /-- An operand is out of range. -/
  | range (cause : RangeFault)
  /-- The program image cannot be loaded. -/
  | load (cause : LoadFault)
  deriving DecidableEq, Repr

/-- An address with its radix mark and at least four digits. -/
def addressText (address : Nat) : String := "0x" ++ hex 4 address

def RangeFault.message : RangeFault → String
  | stackOverflow depth => "stack overflow, already " ++ decimal depth ++ " calls deep"
  | stackUnderflow => "stack underflow, returned with an empty call stack"
  | outOfBounds address length =>
    "memory access of " ++ decimal length ++ " byte(s) at " ++ addressText address ++
      " is out of bounds"
  | readOnly address => "write to read-only font memory at " ++ addressText address
  | noRegister index => "there is no register V" ++ hex 1 index

/-- The complaint about an image of `size` bytes where only `capacity` are free. -/
def oversizeText (size capacity : Nat) : String :=
  "program is " ++ decimal size ++ " bytes but at most " ++ decimal capacity ++
    " bytes fit in memory"

def LoadFault.message : LoadFault → String
  | tooLarge size capacity => oversizeText size capacity
  | alreadyLoaded => "a program has already been loaded"

def Fault.message : Fault → String
  | undecodable word => "unrecognized instruction " ++ addressText word.toNat
  | range cause => "operand out of range: " ++ cause.message
  | load cause => "unable to load program: " ++ cause.message

end Chip8
