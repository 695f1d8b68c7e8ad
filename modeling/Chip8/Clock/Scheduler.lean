import Chip8.Clock.Ticker
import Chip8.Machine

/-! # Scheduler

Instructions, timers and frames run off three clocks that have nothing in common but
the time that passes.  Timers decay at sixty hertz however many instructions run in
between.

When a program waits for a key, the time that its further instructions were owed is
dropped, so they do not come in a burst later.  A fault ends an advance at once: the
instruction clock has moved, the other two have not. -/

namespace Chip8

/-- What an advance did. -/
structure Progress where
  /-- Instructions executed. -/
  steps : Nat
  /-- Ticks of the delay and sound timers. -/
  timerTicks : Nat
  /-- Frames that came due. -/
  frames : Nat
  /-- Whether the program was left waiting for a key. -/
  awaitingKey : Bool
  deriving DecidableEq, Repr

/-- Something that a frame makes the outside world do. -/
inductive Signal where
  /-- Show a frame. -/
  | display (frame : Frame)
  /-- Sound, or be silent. -/
  | sound (on : Bool)
  deriving DecidableEq

/-- Three clocks. -/
structure Scheduler where
  cpu : Ticker
  timers : Ticker
  frames : Ticker
  deriving DecidableEq

namespace Scheduler

/-- Instructions per second unless asked otherwise. -/
def defaultClock : Nat := 500

/-- The fastest instruction clock that is offered. -/
def maxClock : Nat := 1000000

/-- Ticks of the timers per second. -/
def timerRate : Nat := 60

/-- Frames per second. -/
def frameRate : Nat := 60

/-- A scheduler that runs `clock` instructions per second. -/
def ofClock (clock : Nat) : Scheduler :=
  { cpu := .ofRate clock, timers := .ofRate timerRate, frames := .ofRate frameRate }

/-- What is left after time has passed. -/
structure Advance where
  outcome : Except Fault Progress
  scheduler : Scheduler
  machine : Machine

/-- Run whatever comes due while `elapsed` nanoseconds pass: first the instructions,
    then the ticks of the timers. -/
def advance (s : Scheduler) (elapsed : Nat) (m : Machine) : Advance :=
  let (due, cpu) := s.cpu.advance elapsed
  let run := m.run due
  match run.stop with
  | .fault cause => ⟨.error cause, { s with cpu }, run.machine⟩
  | .limit => finish cpu run false
  | .awaitingKey => finish cpu.reset run true
where
  /-- Let the time pass for the timers and the frames as well. -/
  finish (cpu : Ticker) (run : Machine.Run) (awaitingKey : Bool) : Advance :=
    let (timerTicks, timers) := s.timers.advance elapsed
    let (due, frames) := s.frames.advance elapsed
    ⟨.ok { steps := run.steps, timerTicks, frames := due, awaitingKey },
      { cpu, timers, frames }, run.machine.decay timerTicks⟩

/-- What the outside world is made to do after an advance: show the frame if one came due,
    and sound exactly while the sound timer runs.  After a fault nothing is shown or
    sounded. -/
def signals (outcome : Except Fault Progress) (m : Machine) : List Signal :=
  match outcome with
  | .error _ => []
  | .ok progress =>
    let shown := if 0 < progress.frames then [.display m.frame] else []
    shown ++ [.sound m.soundActive]

/-- Live through one frame: take in the keys, let the time pass, and tell the outside
    world. -/
def frame (s : Scheduler) (poll : KeyPoll) (elapsed : Nat) (m : Machine) :
    Advance × List Signal :=
  let result := s.advance elapsed (m.updateKeys poll)
  (result, signals result.outcome result.machine)

end Scheduler

end Chip8
