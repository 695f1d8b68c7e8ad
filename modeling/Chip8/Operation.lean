import Chip8.Machine

/-! # Operations

What can be asked of a machine from outside: to load a program, to make a step, to go
one back, to keep more or fewer states, to let the timers tick, and to take in what
happened at the keypad.

`Machine.perform` is one operation and `Machine.after` is a sequence of them.  An
operation that fails is part of a sequence like any other, with the machine that it
leaves behind. -/

namespace Chip8

/-- Something that happens at the keypad. -/
inductive KeyEvent where
  | press (key : UInt8)
  | release (key : UInt8)
  | poll (report : KeyPoll)

/-- Something that is asked of a machine. -/
inductive Operation where
  | load (image : List UInt8)
  | step
  | rewind
  /-- Keep at most `limit` states for rewinding. -/
  | limitHistory (limit : Nat)
  /-- Let one tick of the timers pass. -/
  | decay
  | key (event : KeyEvent)

namespace Machine

/-- The machine after something happened at the keypad. -/
def handle (m : Machine) : KeyEvent → Machine
  | .press key => m.press key
  | .release key => m.release key
  | .poll report => m.updateKeys report

/-- The machine after several things happened at the keypad. -/
def handleAll (m : Machine) (events : List KeyEvent) : Machine := events.foldl handle m

/-- The machine after an operation. -/
def perform (m : Machine) : Operation → Machine
  | .load image => (m.load image).2
  | .step => m.step.2
  | .rewind => m.rewind.2
  | .limitHistory limit => m.limitHistory limit
  | .decay => m.decay 1
  | .key event => m.handle event

/-- The machine after operations one after the other. -/
def after (m : Machine) (ops : List Operation) : Machine := ops.foldl perform m

@[simp] theorem after_nil (m : Machine) : m.after [] = m := rfl

@[simp] theorem after_cons (m : Machine) (op : Operation) (ops : List Operation) :
    m.after (op :: ops) = (m.perform op).after ops := rfl

/-- What every operation preserves holds after any sequence of them. -/
theorem after_induction {Holds : Machine → Prop}
    (hperform : ∀ m op, Holds m → Holds (m.perform op)) {m : Machine} (h : Holds m)
    (ops : List Operation) : Holds (m.after ops) := by
  induction ops generalizing m with
  | nil => exact h
  | cons op ops ih => exact ih (hperform m op h)

/-- What happens at the keypad changes nothing but the latch. -/
theorem handle_eq (m : Machine) (event : KeyEvent) :
    m.handle event = { m with state := { m.state with keys := (m.handle event).state.keys } } := by
  cases event <;> rfl

@[simp] theorem history_handle (m : Machine) (event : KeyEvent) :
    (m.handle event).history = m.history := by
  rw [handle_eq]

theorem handleAll_eq (m : Machine) (events : List KeyEvent) :
    m.handleAll events =
      { m with state := { m.state with keys := (m.handleAll events).state.keys } } := by
  induction events generalizing m with
  | nil => rfl
  | cons event events ih =>
    have hrest := ih (m.handle event)
    show (m.handle event).handleAll events =
      { m with state := { m.state with keys := ((m.handle event).handleAll events).state.keys } }
    generalize ((m.handle event).handleAll events).state.keys = keys at hrest ⊢
    rw [hrest, handle_eq]

@[simp] theorem timers_handleAll (m : Machine) (events : List KeyEvent) :
    (m.handleAll events).state.timers = m.state.timers := by
  rw [handleAll_eq]

end Machine

end Chip8
