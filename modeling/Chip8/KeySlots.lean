import Chip8.KeyLatch
import Chip8.Window

/-! # Key slots

The room that a key latch takes up is fixed: one byte for each of the sixteen keys that
can be pending, and how many of these slots are in use.  The slots in use are the first
ones, with the oldest press in front, and those behind them keep whatever was left in
them.

Nothing here is kept in bounds by its type.  An operation that would need a slot behind
the last one has no result. -/

namespace Chip8

/-- Held keys, and sixteen slots for the keys that are pending. -/
structure KeySlots where
  held : HeldKeys
  slots : Vector UInt8 16
  /-- How many slots are in use. -/
  used : Nat
  deriving DecidableEq

namespace KeySlots

/-- No key is held and no slot is in use. -/
def empty : KeySlots := { held := HeldKeys.none, slots := Vector.replicate 16 0, used := 0 }

/-- The slots in use, the oldest first. -/
def live (s : KeySlots) : List UInt8 := s.slots.toList.take s.used

/-- Free the slot of a key, if it has one: the slots in use behind it move down by one. -/
def forget (s : KeySlots) (byte : UInt8) : Option KeySlots :=
  if s.used ≤ 16 then
    match s.live.idxOf? byte with
    | none => some s
    | some position =>
      some { s with
        slots := s.slots.overwrite position (s.live.drop (position + 1))
        used := s.used - 1 }
  else
    none

/-- Put a key into the first slot that is not in use. -/
def store (s : KeySlots) (byte : UInt8) : Option KeySlots :=
  if h : s.used < 16 then
    some { s with slots := s.slots.set s.used byte, used := s.used + 1 }
  else
    none

/-- A key goes down: it is held, and its press is the newest. -/
def press (s : KeySlots) (byte : UInt8) : Option KeySlots :=
  match Key.ofByte? byte with
  | none => some s
  | some key => do
    let s ← { s with held := s.held.put key true }.forget byte
    s.store byte

/-- A key goes up. -/
def release (s : KeySlots) (byte : UInt8) : KeySlots :=
  match Key.ofByte? byte with
  | none => s
  | some key => { s with held := s.held.put key false }

/-- Take in a poll: the presses in order, then the held keys. -/
def update (s : KeySlots) (poll : KeyPoll) : Option KeySlots := do
  let s ← poll.pressed.foldlM press s
  pure { s with held := poll.held }

/-- Whether a byte names a key that is held. -/
def isHeld (s : KeySlots) (byte : UInt8) : Bool :=
  match Key.ofByte? byte with
  | none => false
  | some key => s.held.has key

/-- Whether a slot is in use. -/
def hasPending (s : KeySlots) : Bool := 0 < s.used

/-- Free the last slot in use and tell which key was in it; no key, if none is in use. -/
def take (s : KeySlots) : Option (Option UInt8 × KeySlots) :=
  match s.used with
  | 0 => some (none, s)
  | last + 1 => if h : last < 16 then some (some s.slots[last], { s with used := last }) else none

end KeySlots

end Chip8
