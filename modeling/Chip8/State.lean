import Chip8.CallStack
import Chip8.Frame
import Chip8.KeyLatch
import Chip8.Memory
import Chip8.Register
import Chip8.Timers

/-! # State

Everything that an instruction can read or change, as one value.  The call stack
and the frame are kept apart from memory, so a program that writes past its data
cannot damage them. -/

namespace Chip8

/-- The state of the processor, its memory and its devices. -/
structure State where
  /-- The general registers. -/
  v : RegisterFile := Vector.replicate 16 0
  /-- The memory address register. -/
  i : UInt16 := 0
  /-- The address of the next instruction. -/
  pc : UInt16 := Memory.programBase
  stack : CallStack := .empty
  memory : Memory := .initial
  frame : Frame := .blank
  timers : Timers := {}
  keys : KeyLatch := .empty
  deriving DecidableEq

namespace State

/-- The state of a machine that was just switched on. -/
def initial : State := {}

/-- The contents of a register. -/
def reg (s : State) (x : Register) : UInt8 := s.v[x]

/-- The state with another value in a register. -/
def setReg (s : State) (x : Register) (value : UInt8) : State := { s with v := s.v.set x value }

/-- The state with the flag register set for a condition. -/
def setFlag (s : State) (condition : Bool) : State := s.setReg Register.flag (flagByte condition)

/-- Reading a register after writing one. -/
theorem reg_setReg (s : State) (x y : Register) (value : UInt8) :
    (s.setReg x value).reg y = if x = y then value else s.reg y := by
  simp only [reg, setReg, Fin.getElem_fin, Vector.getElem_set, Fin.ext_iff]

@[simp] theorem reg_setReg_self (s : State) (x : Register) (value : UInt8) :
    (s.setReg x value).reg x = value := by
  simp [reg_setReg]

end State

end Chip8
