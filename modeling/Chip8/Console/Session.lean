import Chip8.Clock.Scheduler
import Chip8.Console.Panel

/-! # Session

A session is a machine at which somebody sits.  It goes in turns: each turn sees what
happened at the keyboard and how much time has passed, and then rewinds, makes a
single step, rests or runs, as the controls say.  Rewinding goes before pausing, and
pausing before running.

A session ends at a fault or when it is asked to quit.  What it shows and sounds is
returned as a list of signals. -/

namespace Chip8

/-- Make one step and then let one tick of the timers pass, so that a program which
    waits for its delay timer can be stepped through. -/
def Machine.singleStep (m : Machine) : Except Fault Step × Machine :=
  match m.step with
  | (.error cause, m) => (.error cause, m)
  | (.ok done, m) => (.ok done, m.decay 1)

namespace Console

/-- A machine, its clocks and its panel. -/
structure Session where
  machine : Machine
  scheduler : Scheduler
  panel : Panel

/-- What came of a turn, or of several. -/
structure Turn where
  outcome : Except Fault Unit
  session : Session
  signals : List Signal

namespace Session

/-- How much faster time passes for the program during fast forward. -/
def fastForwardFactor : Nat := 4

/-- How many instructions a turn goes back while rewinding. -/
def rewindSteps : Nat := 8

/-- A session at a machine that runs `clock` instructions per second. -/
def new (machine : Machine) (clock : Nat) (paused : Bool) : Session :=
  { machine, scheduler := .ofClock clock, panel := { controls := { paused } } }

/-- A turn of rewinding. -/
def rewind (s : Session) : Turn :=
  let (_, machine) := s.machine.rewindUpTo rewindSteps
  ⟨.ok (), { s with machine }, [.display machine.frame, .sound false]⟩

/-- A turn of single stepping. -/
def singleStep (s : Session) : Turn :=
  let (report, panel) := s.panel.poll
  let panel := { panel with controls := { panel.controls with step := false } }
  let (outcome, machine) := (s.machine.updateKeys report).singleStep
  ⟨outcome.map fun _ => (), { s with machine, panel },
    [.sound false, .display machine.frame]⟩

/-- A turn of running for `elapsed` nanoseconds. -/
def play (s : Session) (elapsed : Nat) : Turn :=
  let (report, panel) := s.panel.poll
  let elapsed := if panel.controls.fastForward then fastForwardFactor * elapsed else elapsed
  let (result, signals) := s.scheduler.frame report elapsed s.machine
  ⟨result.outcome.map fun _ => (),
    { machine := result.machine, scheduler := result.scheduler, panel }, signals⟩

/-- What the controls ask for. -/
def obey (s : Session) (elapsed : Nat) : Turn :=
  if s.panel.controls.rewind then s.rewind
  else if s.panel.controls.paused then
    if s.panel.controls.step then s.singleStep else ⟨.ok (), s, [.sound false]⟩
  else s.play elapsed

/-- A turn: take in the events, do what the controls ask for, and be silent after a
    fault. -/
def turn (s : Session) (events : List Event) (elapsed : Nat) : Turn :=
  let result := { s with panel := s.panel.handleAll events }.obey elapsed
  match result.outcome with
  | .ok () => result
  | .error _ => { result with signals := result.signals ++ [.sound false] }

/-- Turns one after the other, each with its events and the time that has passed, until
    the session was asked to quit or the program is at fault. -/
def turns (s : Session) : List (List Event × Nat) → Turn
  | [] => ⟨.ok (), s, []⟩
  | (events, elapsed) :: rest =>
    if s.panel.controls.quit then ⟨.ok (), s, []⟩
    else
      let first := s.turn events elapsed
      match first.outcome with
      | .error _ => first
      | .ok () =>
        let later := first.session.turns rest
        { later with signals := first.signals ++ later.signals }

/-- A whole session, which begins by showing the frame that is there. -/
def run (s : Session) (input : List (List Event × Nat)) : Turn :=
  let result := s.turns input
  { result with signals := .display s.machine.frame :: result.signals }

end Session

end Console

end Chip8
