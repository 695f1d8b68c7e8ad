import Chip8.Clock.Metronome
import Chip8.Clock.Scheduler

/-! # Clockwork

A clockwork is a scheduler whose three clocks are metronomes, so the time that one of them
owes can become too long for a duration.  Time is passed to the clocks one after the other:
to that of the instructions before any of them is run, to those of the timers and of the
frames only after a run without a fault.  An advance has no result as soon as one of these
clocks has none. -/

namespace Chip8

/-- Three clocks that count in durations. -/
structure Clockwork where
  cpu : Metronome
  timers : Metronome
  frames : Metronome
  deriving DecidableEq

namespace Clockwork

/-- A clockwork that runs `clock` instructions per second. -/
def ofClock (clock : UInt32) : Clockwork where
  cpu := .ofRate clock
  timers := .ofRate (UInt32.ofNat Scheduler.timerRate)
  frames := .ofRate (UInt32.ofNat Scheduler.frameRate)

/-- What is left after time has passed. -/
structure Advance where
  outcome : Except Fault Progress
  clockwork : Clockwork
  machine : Machine

/-- Run whatever comes due while time passes: first the instructions, then the ticks of the
    timers. -/
def advance? (c : Clockwork) (elapsed : Duration) (m : Machine) : Option Advance := do
  let (due, cpu) ← c.cpu.advance? elapsed
  let run := m.run due.toNat
  match run.stop with
  | .fault cause => some ⟨.error cause, { c with cpu }, run.machine⟩
  | .limit => finish? cpu run false
  | .awaitingKey => finish? cpu.reset run true
where
  /-- Let the time pass for the timers and the frames as well. -/
  finish? (cpu : Metronome) (run : Machine.Run) (awaitingKey : Bool) : Option Advance := do
    let (ticks, timers) ← c.timers.advance? elapsed
    let (due, frames) ← c.frames.advance? elapsed
    some
      ⟨.ok { steps := run.steps, timerTicks := ticks.toNat, frames := due.toNat, awaitingKey },
        { cpu, timers, frames }, run.machine.decay ticks.toNat⟩

/-- Live through one frame, as a scheduler does. -/
def frame? (c : Clockwork) (poll : KeyPoll) (elapsed : Duration) (m : Machine) :
    Option (Advance × List Signal) := do
  let result ← c.advance? elapsed (m.updateKeys poll)
  some (result, Scheduler.signals result.outcome result.machine)

/-- The scheduler that counts the same nanoseconds. -/
def toScheduler (c : Clockwork) : Scheduler where
  cpu := c.cpu.toTicker
  timers := c.timers.toTicker
  frames := c.frames.toTicker

theorem toScheduler_ofClock (clock : UInt32) :
    (ofClock clock).toScheduler = .ofClock clock.toNat := by
  simp only [toScheduler, ofClock, Scheduler.ofClock, Metronome.toTicker_ofRate]
  rfl

end Clockwork

end Chip8
