import Chip8.Fault

/-! # Call stack

The return addresses of the calls that a program is inside of, at most sixteen.
The stack is a list with the innermost call first, and the bound is part of the
type, so no operation has to preserve it by a separate argument. -/

namespace Chip8

/-- Return addresses, the latest first. -/
structure CallStack where
  returns : List UInt16
  depth_le : returns.length ≤ 16 := by decide
  deriving DecidableEq

namespace CallStack

/-- The deepest nesting of calls. -/
def capacity : Nat := 16

def empty : CallStack := ⟨[], by decide⟩

/-- How many calls are open. -/
def depth (s : CallStack) : Nat := s.returns.length

/-- Open a call that will return to `address`. -/
def push (s : CallStack) (address : UInt16) : Except RangeFault CallStack :=
  if h : s.returns.length < 16 then
    .ok ⟨address :: s.returns, by simp only [List.length_cons]; omega⟩
  else
    .error (.stackOverflow s.depth)

/-- Close the innermost call: its return address, and the calls still open. -/
def pop : CallStack → Except RangeFault (UInt16 × CallStack)
  | ⟨[], _⟩ => .error .stackUnderflow
  | ⟨address :: rest, h⟩ =>
    .ok (address, ⟨rest, by simp only [List.length_cons] at h; omega⟩)

/-- The stack after `addresses` were pushed in order, for as long as they fit. -/
def ofList (addresses : List UInt16) : CallStack :=
  addresses.foldl (fun s address => (s.push address).toOption.getD s) empty

@[ext] theorem ext {s t : CallStack} (h : s.returns = t.returns) : s = t := by
  cases s; cases t; cases h; rfl

theorem returns_push {s t : CallStack} {address : UInt16} (h : s.push address = .ok t) :
    t.returns = address :: s.returns := by
  unfold push at h
  split at h
  · cases h; rfl
  · cases h

theorem returns_pop {s t : CallStack} {address : UInt16} (h : s.pop = .ok (address, t)) :
    s.returns = address :: t.returns := by
  match s, h with
  | ⟨a :: rest, _⟩, h => cases h; rfl

end CallStack

end Chip8
