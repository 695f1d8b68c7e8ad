import Chip8.State
import Chip8.Text.Decimal

/-! # Register dumps

The contents of the registers at one moment, as shown to a person or handed to
another program. -/

namespace Chip8

open Text

/-- Registers, stack depth and timers. -/
structure RegisterDump where
  i : UInt16
  pc : UInt16
  /-- How many calls are open. -/
  sp : Nat
  v : RegisterFile
  delay : UInt8
  sound : UInt8
  deriving DecidableEq

/-- The registers of a state. -/
def State.dump (s : State) : RegisterDump :=
  { i := s.i, pc := s.pc, sp := s.stack.depth, v := s.v
    delay := s.timers.delay, sound := s.timers.sound }

/-- A dump as an object of numbers, with every entry on a line of its own, indented by
    two blanks a level, and the general registers as an array. -/
def RegisterDump.json (d : RegisterDump) : String :=
  let entry (name value : String) : String := "  \"" ++ name ++ "\": " ++ value
  let registers := ",\n".intercalate (d.v.toList.map fun value => "    " ++ decimal value.toNat)
  let entries :=
    [entry "I" (decimal d.i.toNat),
     entry "PC" (decimal d.pc.toNat),
     entry "SP" (decimal d.sp),
     entry "V" ("[\n" ++ registers ++ "\n  ]"),
     entry "DT" (decimal d.delay.toNat),
     entry "ST" (decimal d.sound.toNat)]
  "\x7b\n" ++ ",\n".intercalate entries ++ "\n\x7d"

end Chip8
