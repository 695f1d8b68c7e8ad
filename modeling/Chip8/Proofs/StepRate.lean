import Chip8.Proofs.StepFaults
import Chip8.Proofs.TimerPace

/-!
# The rate of instructions

A scheduler never makes up for a key wait: however long the wait was, the instructions that
are executed after it are paid for by the time that passes after it.  And in any calls that
follow each other, one instruction at most is paid for by time from before them.

Both come from an account of the time.  A call that ends without a fault executes no more
instructions than are due, so what they take and what is still owed after them is no more
than what was owed and what has passed (`Scheduler.owed_advance_of_ok`).  A call that ends in
a fault may take more time than it uses, but then the machine faults at every further step,
and nothing is executed any more.

## Key results

- `State.Faults.withIdle`: a fault does not go away by waiting or by pressing keys
- `Scheduler.owed_advance_of_ok`: the account of a call
- `Scheduler.period_stepsOf_le`: the account of any number of calls
- `Scheduler.no_catch_up`: the rate of instructions, after a key wait and at any time
-/

namespace Chip8

/-! ## Machines that cannot go on -/

/-- No rule for a fault looks at the timers or the keys. -/
theorem State.Faults.withIdle {s : State} {fault : Fault} (h : s.Faults fault) (timers : Timers)
    (keys : KeyLatch) : ({ s with timers, keys } : State).Faults fault := by
  cases h with
  | fetch h => exact .fetch h
  | decode hpc h => exact .decode hpc h
  | underflow hpc hword h => exact .underflow hpc hword h
  | overflow hpc hword h => exact .overflow hpc hword h
  | access hpc hword h => exact .access hpc hword h
  | font hpc hword hle h => exact .font hpc hword hle h

namespace Machine

/-- Whether the next step of a machine is a fault. -/
def Faulty (m : Machine) : Prop := ∃ fault, m.state.Faults fault

theorem Faulty.decay {m : Machine} (h : m.Faulty) (ticks : Nat) : (m.decay ticks).Faulty := by
  obtain ⟨fault, h⟩ := h
  exact ⟨fault, h.withIdle _ m.state.keys⟩

theorem Faulty.handleAll {m : Machine} (h : m.Faulty) (events : List KeyEvent) :
    (m.handleAll events).Faulty := by
  obtain ⟨fault, h⟩ := h
  rw [handleAll_eq]
  exact ⟨fault, h.withIdle m.state.timers _⟩

/-- A step that faults leaves the machine as it was, which faults again. -/
theorem faulty_of_step {m m' : Machine} {cause : Fault} (h : m.step = (.error cause, m')) :
    m' = m ∧ m.Faulty := by
  refine ⟨?_, cause, (m.step_faults_iff cause).1 (congrArg Prod.fst h)⟩
  rcases m.step_cases with ⟨_, -, hstep⟩ | ⟨_, _, -, -, hstep⟩ | ⟨_, -, -, hstep⟩ |
    ⟨_, _, _, -, -, -, hstep⟩
  · rw [hstep] at h
    exact (congrArg Prod.snd h).symm
  · rw [hstep] at h
    exact (congrArg Prod.snd h).symm
  · exact nomatch hstep.symm.trans h
  · exact nomatch hstep.symm.trans h

theorem Faulty.step {m : Machine} (h : m.Faulty) : ∃ cause, m.step = (.error cause, m) := by
  obtain ⟨cause, h⟩ := h
  have hfirst : m.step = (.error cause, m.step.2) :=
    Prod.ext ((m.step_faults_iff cause).2 h) rfl
  obtain ⟨hsame, -⟩ := faulty_of_step hfirst
  rw [hsame] at hfirst
  exact ⟨cause, hfirst⟩

/-- A machine that cannot go on executes nothing. -/
theorem Faulty.run {m : Machine} (h : m.Faulty) (limit : Nat) :
    (m.run limit).steps = 0 ∧ (m.run limit).machine = m := by
  obtain ⟨cause, hstep⟩ := h.step
  cases limit with
  | zero => exact ⟨rfl, rfl⟩
  | succ limit =>
    -- The first step is a fault already.
    simp only [Machine.run, runFrom, hstep]
    exact ⟨trivial, trivial⟩

/-- A run that ends in a fault leaves a machine that cannot go on. -/
theorem faulty_of_runFrom {m : Machine} {done limit : Nat} {cause : Fault}
    (h : (runFrom done limit m).stop = .fault cause) :
    (runFrom done limit m).machine.Faulty := by
  induction limit generalizing m done with
  | zero => cases h
  | succ limit ih =>
    simp only [runFrom] at h ⊢
    rcases hstep : m.step with ⟨_ | _ | _, m'⟩
    · obtain ⟨rfl, hfaulty⟩ := faulty_of_step hstep
      exact hfaulty
    · simp only [hstep] at h ⊢
      exact ih h
    · simp only [hstep] at h
      cases h

theorem length_executed_le (m : Machine) (limit : Nat) : (m.executed limit).length ≤ limit := by
  induction limit generalizing m with
  | zero => exact Nat.le_refl 0
  | succ limit ih =>
    simp only [executed]
    split
    · exact Nat.succ_le_succ (ih _)
    · exact Nat.zero_le _

end Machine

namespace Scheduler

/-! ## One call -/

/-- A call keeps the instruction period, and what is owed after it is no more than what its clock
    leaves over. -/
theorem cpu_advance (s : Scheduler) (elapsed : Nat) (m : Machine) :
    (s.advance elapsed m).scheduler.cpu.period = s.cpu.period ∧
      (s.advance elapsed m).scheduler.cpu.owed ≤ (s.cpu.advance elapsed).2.owed := by
  rcases s.advance_cases elapsed m with ⟨_, -, h⟩ | ⟨-, h⟩ | ⟨-, h⟩
  · rw [h]
    exact ⟨rfl, Nat.le_refl _⟩
  · rw [h]
    exact ⟨rfl, Nat.le_refl _⟩
  · -- A key wait drops it.
    rw [h]
    exact ⟨rfl, Nat.zero_le _⟩

/-- A call that ends without a fault counts the instructions of its run. -/
theorem steps_of_ok {s : Scheduler} {elapsed : Nat} {m : Machine} {p : Progress}
    (h : (s.advance elapsed m).outcome = .ok p) :
    p.steps = (m.run (s.cpu.advance elapsed).1).steps := by
  rcases s.advance_cases elapsed m with ⟨_, -, hadvance⟩ | ⟨-, hadvance⟩ | ⟨-, hadvance⟩
  · rw [hadvance] at h
    exact nomatch h
  · rw [hadvance] at h
    cases h
    rfl
  · rw [hadvance] at h
    cases h
    rfl

/-- What the instructions of a call take and what is owed after it was owed before or has
    passed. -/
theorem owed_advance_of_ok {s : Scheduler} {elapsed : Nat} {m : Machine} {p : Progress}
    (h : (s.advance elapsed m).outcome = .ok p) :
    s.cpu.period * p.steps + (s.advance elapsed m).scheduler.cpu.owed ≤ s.cpu.owed + elapsed := by
  -- A run executes no more than what is due, and its clock owes no more than is left over.
  have hdue : p.steps ≤ (s.cpu.advance elapsed).1 := by
    rw [steps_of_ok h, Machine.run, Machine.steps_runFrom, Nat.zero_add]
    exact m.length_executed_le _
  rw [← s.cpu.owed_advance elapsed]
  exact Nat.add_le_add (Nat.mul_le_mul_left _ hdue) (s.cpu_advance elapsed m).2

/-- A key wait drops all that is owed, whole periods and the rest. -/
theorem owed_advance_of_awaitingKey {s : Scheduler} {elapsed : Nat} {m : Machine} {p : Progress}
    (h : (s.advance elapsed m).outcome = .ok p) (hwait : p.awaitingKey = true) :
    (s.advance elapsed m).scheduler.cpu.owed = 0 := by
  rcases s.advance_cases elapsed m with ⟨_, -, hadvance⟩ | ⟨-, hadvance⟩ | ⟨-, hadvance⟩
  · rw [hadvance] at h
    exact nomatch h
  · rw [hadvance] at h
    cases h
    exact nomatch hwait
  · rw [hadvance]
    rfl

/-- A fault in a call leaves a machine that cannot go on. -/
theorem faulty_of_error {s : Scheduler} {elapsed : Nat} {m : Machine} {cause : Fault}
    (h : (s.advance elapsed m).outcome = .error cause) :
    (s.advance elapsed m).machine.Faulty := by
  rcases s.advance_cases elapsed m with ⟨_, hstop, hadvance⟩ | ⟨-, hadvance⟩ | ⟨-, hadvance⟩
  · rw [hadvance]
    exact Machine.faulty_of_runFrom hstop
  · rw [hadvance] at h
    exact nomatch h
  · rw [hadvance] at h
    exact nomatch h

/-- A machine that cannot go on executes nothing in a call that ends without a fault, and cannot
    go on after it. -/
theorem advance_of_faulty {s : Scheduler} {elapsed : Nat} {m : Machine} (hfaulty : m.Faulty)
    {p : Progress} (h : (s.advance elapsed m).outcome = .ok p) :
    p.steps = 0 ∧ (s.advance elapsed m).machine.Faulty := by
  obtain ⟨hsteps, hmachine⟩ := hfaulty.run (s.cpu.advance elapsed).1
  obtain ⟨-, -, hdecay⟩ := advance_of_ok h
  rw [hdecay, hmachine]
  exact ⟨(steps_of_ok h).trans hsteps, hfaulty.decay _⟩

/-! ## Any number of calls -/

/-- The calls of a drive that ended without a fault: the time that passed in each of them, and
    what it did. -/
def completed (intervals : List Interval) (outcomes : List (Except Fault Progress)) :
    List (Nat × Progress) :=
  (intervals.zip outcomes).filterMap fun (interval, outcome) =>
    outcome.toOption.map (interval.elapsed, ·)

/-- The time that passed in calls. -/
def timeOf (calls : List (Nat × Progress)) : Nat := (calls.map Prod.fst).sum

/-- The instructions that were executed in calls. -/
def stepsOf (calls : List (Nat × Progress)) : Nat := (calls.map fun call => call.2.steps).sum

@[simp] theorem completed_cons_ok (interval : Interval) (intervals : List Interval)
    (p : Progress) (outcomes : List (Except Fault Progress)) :
    completed (interval :: intervals) (.ok p :: outcomes) =
      (interval.elapsed, p) :: completed intervals outcomes := rfl

@[simp] theorem completed_cons_error (interval : Interval) (intervals : List Interval)
    (cause : Fault) (outcomes : List (Except Fault Progress)) :
    completed (interval :: intervals) (.error cause :: outcomes) =
      completed intervals outcomes := rfl

@[simp] theorem timeOf_cons (call : Nat × Progress) (calls : List (Nat × Progress)) :
    timeOf (call :: calls) = call.1 + timeOf calls := List.sum_cons

@[simp] theorem stepsOf_cons (call : Nat × Progress) (calls : List (Nat × Progress)) :
    stepsOf (call :: calls) = call.2.steps + stepsOf calls := List.sum_cons

/-- A machine that cannot go on executes nothing, however long it is driven. -/
theorem stepsOf_of_faulty (s : Scheduler) {m : Machine} (h : m.Faulty)
    (intervals : List Interval) :
    stepsOf (completed intervals (s.drive m intervals).outcomes) = 0 := by
  induction intervals generalizing s m with
  | nil => rfl
  | cons interval rest ih =>
    simp only [drive]
    cases houtcome : (s.advance interval.elapsed (m.handleAll interval.events)).outcome with
    -- After a fault every call finds the same fault, and none of them counts.
    | error cause => exact ih _ (faulty_of_error houtcome)
    | ok p =>
      obtain ⟨hsteps, hfaulty⟩ := advance_of_faulty (h.handleAll interval.events) houtcome
      rw [completed_cons_ok, stepsOf_cons, hsteps, ih _ hfaulty]

/-- What the instructions of any calls take was owed before them or has passed in them. -/
theorem period_stepsOf_le (s : Scheduler) (m : Machine) (intervals : List Interval) :
    let calls := completed intervals (s.drive m intervals).outcomes
    s.cpu.period * stepsOf calls ≤ s.cpu.owed + timeOf calls := by
  induction intervals generalizing s m with
  | nil => exact Nat.zero_le _
  | cons interval rest ih =>
    simp only [drive]
    cases houtcome : (s.advance interval.elapsed (m.handleAll interval.events)).outcome with
    | ok p =>
      have hfirst := owed_advance_of_ok houtcome
      have hrest := ih (s.advance interval.elapsed (m.handleAll interval.events)).scheduler
        (s.advance interval.elapsed (m.handleAll interval.events)).machine
      rw [(s.cpu_advance _ _).1] at hrest
      simp only [completed_cons_ok, stepsOf_cons, timeOf_cons, Nat.mul_add]
      omega
    | error cause =>
      -- The time of this call is not counted, but no later one executes anything.
      rw [completed_cons_error, stepsOf_of_faulty _ (faulty_of_error houtcome)]
      exact Nat.zero_le _

/-! ## The rate -/

/-- The schedulers that come about by calls with any machines, none of which owes as many
    instructions as are counted at most. -/
inductive Reached (clock : Nat) : Scheduler → Prop where
  | start : Reached clock (ofClock clock)
  | advance {s : Scheduler} (h : Reached clock s) {elapsed : Nat}
      (htime : (s.cpu.owed + elapsed) / s.cpu.period < Ticker.maxTicks) (m : Machine) :
      Reached clock (s.advance elapsed m).scheduler

/-- Between the calls less than a period is owed. -/
theorem Reached.owed_lt {clock : Nat} {s : Scheduler} (h : Reached clock s) :
    s.cpu.period = period clock ∧ s.cpu.owed < period clock := by
  induction h with
  | start => exact ⟨rfl, period_pos clock⟩
  | advance _ htime m ih =>
    obtain ⟨hperiod, howed⟩ := cpu_advance _ _ m
    have hlt := Nat.lt_of_le_of_lt howed (Ticker.owed_advance_lt htime)
    rw [ih.1] at hperiod hlt
    exact ⟨hperiod, hlt⟩

/-- In calls that follow each other, as many instructions are executed as their time has periods
    and one more at most.  After a key wait there is not even that one.  The timers and the
    frames do not notice the wait: their clocks are as after a call with any other machine. -/
theorem no_catch_up {clock : Nat} {s : Scheduler} (h : Reached clock s) (m : Machine) :
    (∀ intervals,
      let calls := completed intervals (s.drive m intervals).outcomes
      stepsOf calls ≤ 1 + timeOf calls / period clock) ∧
    ∀ elapsed p, (s.advance elapsed m).outcome = .ok p → p.awaitingKey = true →
      let after := s.advance elapsed m
      (∀ intervals,
        let calls := completed intervals (after.scheduler.drive after.machine intervals).outcomes
        stepsOf calls ≤ timeOf calls / period clock) ∧
      ∀ m' p', (s.advance elapsed m').outcome = .ok p' →
        p.timerTicks = p'.timerTicks ∧ p.frames = p'.frames ∧
          after.scheduler.timers = (s.advance elapsed m').scheduler.timers ∧
          after.scheduler.frames = (s.advance elapsed m').scheduler.frames := by
  obtain ⟨hperiod, howed⟩ := h.owed_lt
  have hpos := period_pos clock
  constructor
  · intro intervals calls
    have haccount : s.cpu.period * stepsOf calls ≤ s.cpu.owed + timeOf calls :=
      s.period_stepsOf_le m intervals
    rw [hperiod] at haccount
    -- What was owed before is less than one more instruction takes.
    rw [Nat.add_comm, ← Nat.add_div_right _ hpos, Nat.le_div_iff_mul_le hpos, Nat.mul_comm]
    omega
  · intro elapsed p hp hwait after
    constructor
    · intro intervals calls
      have haccount : after.scheduler.cpu.period * stepsOf calls ≤
          after.scheduler.cpu.owed + timeOf calls :=
        after.scheduler.period_stepsOf_le after.machine intervals
      have hkept : after.scheduler.cpu.period = period clock :=
        (s.cpu_advance elapsed m).1.trans hperiod
      -- Nothing is owed after the wait, so there is only the time that passes then.
      have hdropped : after.scheduler.cpu.owed = 0 := owed_advance_of_awaitingKey hp hwait
      rw [hkept, hdropped, Nat.zero_add] at haccount
      rw [Nat.le_div_iff_mul_le hpos, Nat.mul_comm]
      exact haccount
    · intro m' p' hp'
      -- Both calls let the same time pass for the same clocks.
      obtain ⟨htimers, hframes, -⟩ := advance_of_ok hp
      obtain ⟨htimers', hframes', -⟩ := advance_of_ok hp'
      obtain ⟨hticks, htimers⟩ := Prod.mk.inj (htimers.symm.trans htimers')
      obtain ⟨hdue, hframes⟩ := Prod.mk.inj (hframes.symm.trans hframes')
      exact ⟨hticks, hdue, htimers, hframes⟩

/-- A program that waits for a key, on a clock that owes almost a period when the wait begins.
    A key goes down after a tenth of a second.  The instruction of the wait is executed only
    once a whole period has passed after it; without the wait one nanosecond would have done. -/
theorem no_catch_up_of_wait :
    let load := fun image => ((Machine.new (.counter 0 1)).load image).2
    let circling := load [0x12, 0x00]
    let waiting := load [0xF0, 0x0A]
    let s := ((ofClock 500).advance 3999999 circling).scheduler
    let after := s.advance 100000000 waiting
    let calls := completed [⟨[.press 7], 1999999⟩, ⟨[], 1⟩]
      (after.scheduler.drive after.machine [⟨[.press 7], 1999999⟩, ⟨[], 1⟩]).outcomes
    Reached 500 s ∧ after.outcome = .ok ⟨0, 6, 6, true⟩ ∧
      calls = [(1999999, ⟨0, 0, 0, false⟩), (1, ⟨1, 0, 0, false⟩)] ∧
      stepsOf calls ≤ 2000000 / period 500 ∧
      completed [⟨[], 1⟩] (s.drive circling [⟨[], 1⟩]).outcomes = [(1, ⟨1, 0, 0, false⟩)] ∧
      1 ≤ 1 + 1 / period 500 := by
  intro load circling waiting s after calls
  have hreached : Reached 500 s := .advance .start (by decide) circling
  have hafter : after.outcome = .ok ⟨0, 6, 6, true⟩ := by decide +kernel
  have hcalls : calls = [(1999999, ⟨0, 0, 0, false⟩), (1, ⟨1, 0, 0, false⟩)] := by decide +kernel
  have hcircling : completed [⟨[], 1⟩] (s.drive circling [⟨[], 1⟩]).outcomes =
      [(1, ⟨1, 0, 0, false⟩)] := by decide +kernel
  obtain ⟨-, hwait⟩ := no_catch_up hreached waiting
  obtain ⟨hgroup, -⟩ := no_catch_up hreached circling
  have hone := hgroup [⟨[], 1⟩]
  have hlater : stepsOf calls ≤ timeOf calls / period 500 := (hwait _ _ hafter rfl).1 _
  simp only [hcircling] at hone
  refine ⟨hreached, hafter, hcalls, ?_, hcircling, hone⟩
  rw [hcalls] at hlater ⊢
  exact hlater

end Scheduler

end Chip8
