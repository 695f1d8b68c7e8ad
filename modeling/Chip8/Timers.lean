/-! # Timers

Two countdowns of one byte.  Programs set both, read the delay timer, and sound
while the sound timer is not zero.  Neither goes below zero. -/

namespace Chip8

/-- The delay and the sound timer. -/
structure Timers where
  delay : UInt8 := 0
  sound : UInt8 := 0
  deriving DecidableEq

/-- One of the two timers. -/
inductive Timer where
  | delay
  | sound
  deriving DecidableEq, Repr

/-- What a timer shows. -/
def Timers.get (t : Timers) : Timer → UInt8
  | .delay => t.delay
  | .sound => t.sound

/-- A countdown after `ticks` ticks. -/
def countdown (ticks : Nat) (value : UInt8) : UInt8 := UInt8.ofNat (value.toNat - ticks)

/-- Both timers after `ticks` ticks. -/
def Timers.decay (t : Timers) (ticks : Nat) : Timers :=
  ⟨countdown ticks t.delay, countdown ticks t.sound⟩

@[simp] theorem toNat_countdown (ticks : Nat) (value : UInt8) :
    (countdown ticks value).toNat = value.toNat - ticks := by
  have := value.toNat_lt
  simp only [countdown, UInt8.toNat_ofNat']
  omega

/-- Ticks add up, however they are grouped. -/
theorem countdown_add (m n : Nat) (value : UInt8) :
    countdown (m + n) value = countdown n (countdown m value) := by
  apply UInt8.toNat_inj.1
  simp only [toNat_countdown]
  omega

@[simp] theorem countdown_zero (value : UInt8) : countdown 0 value = value := by
  apply UInt8.toNat_inj.1
  simp

@[simp] theorem Timers.decay_zero (t : Timers) : t.decay 0 = t := by
  simp [Timers.decay]

@[simp] theorem Timers.get_decay (t : Timers) (ticks : Nat) (timer : Timer) :
    (t.decay ticks).get timer = countdown ticks (t.get timer) := by
  cases timer <;> rfl

theorem Timers.decay_add (t : Timers) (m n : Nat) : t.decay (m + n) = (t.decay m).decay n := by
  simp [Timers.decay, countdown_add]

end Chip8
