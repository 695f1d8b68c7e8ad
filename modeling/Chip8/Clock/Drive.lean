import Chip8.Clock.Scheduler
import Chip8.Operation

/-! # Driving a machine

A machine is driven through intervals of time by its scheduler.  An interval begins with
what happened at the keypad; then its time passes, and whatever comes due is run.

What the scheduler did in each interval is kept, and so are the instructions that were
executed, of which the scheduler itself keeps no more than the number. -/

namespace Chip8

/-- The instructions that a run of up to `limit` steps executes. -/
def Machine.executed : Nat → Machine → List Instruction
  | 0, _ => []
  | limit + 1, m =>
    match m.step with
    | (.ok (.executed i), m) => i :: executed limit m
    | _ => []

/-- What happened at the keypad, and the nanoseconds that passed after it. -/
structure Interval where
  events : List KeyEvent
  elapsed : Nat

/-- What came of driving a machine. -/
structure Drive where
  /-- What was done in each interval. -/
  outcomes : List (Except Fault Progress)
  /-- All instructions that were executed, the first one in front. -/
  executed : List Instruction
  scheduler : Scheduler
  machine : Machine

/-- Drive a machine through intervals one after the other.  A fault ends an interval but
    not the drive. -/
def Scheduler.drive (s : Scheduler) (m : Machine) : List Interval → Drive
  | [] => ⟨[], [], s, m⟩
  | ⟨events, elapsed⟩ :: rest =>
    let m := m.handleAll events
    let result := s.advance elapsed m
    let later := result.scheduler.drive result.machine rest
    { later with
      outcomes := result.outcome :: later.outcomes
      executed := m.executed (s.cpu.advance elapsed).1 ++ later.executed }

/-- As many instructions are executed as are counted. -/
theorem Machine.steps_runFrom (m : Machine) (done limit : Nat) :
    (runFrom done limit m).steps = done + (m.executed limit).length := by
  induction limit generalizing m done with
  | zero => rfl
  | succ limit ih =>
    simp only [runFrom, executed]
    rcases m.step with ⟨_ | _ | _, m'⟩
    · rfl
    · rw [ih, List.length_cons, Nat.add_right_comm, Nat.add_assoc]
    · rfl

end Chip8
