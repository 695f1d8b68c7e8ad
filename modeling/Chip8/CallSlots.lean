import Chip8.CallStack
import Chip8.Window

/-! # Call slots

The room that a call stack takes up is fixed: one return address for each of the sixteen
calls that can be open, and how many of these slots are in use.  The slots in use are the
first ones, with the outermost call in front, and those behind them keep whatever was
left in them.

Nothing here is kept in bounds by its type.  An operation that would need a slot behind
the last one has no result; one that is refused says in what condition it leaves the
slots. -/

namespace Chip8

/-- Sixteen slots for return addresses. -/
structure CallSlots where
  slots : Vector UInt16 16
  /-- How many slots are in use. -/
  used : Nat
  deriving DecidableEq

namespace CallSlots

/-- No slot is in use. -/
def empty : CallSlots := { slots := Vector.replicate 16 0, used := 0 }

/-- How many calls are open. -/
def depth (s : CallSlots) : Nat := s.used

/-- The slots in use, the outermost call first. -/
def live (s : CallSlots) : List UInt16 := s.slots.toList.take s.used

/-- Put an address into the first slot that is not in use.  If there is none, nothing
    changes. -/
def push (s : CallSlots) (address : UInt16) : Except RangeFault Unit × CallSlots :=
  if h : s.used < 16 then
    (.ok (), { slots := s.slots.set s.used address, used := s.used + 1 })
  else
    (.error (.stackOverflow s.used), s)

/-- Free the last slot in use, and tell which address is in it.  If none is in use,
    nothing changes. -/
def pop (s : CallSlots) : Option (Except RangeFault UInt16 × CallSlots) :=
  match s.used with
  | 0 => some (.error .stackUnderflow, s)
  | last + 1 => if h : last < 16 then some (.ok s.slots[last], { s with used := last }) else none

end CallSlots

end Chip8
