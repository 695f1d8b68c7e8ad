import Chip8.Clock.Drive
import Chip8.Proofs.ExecutionEffect
import Mathlib.Algebra.GroupWithZero.Nat

/-!
# The pace of the timers

The timers of a machine tick with the time that passes, and with nothing else.  The
numbers of timer ticks and frames in a drive are worked out here from the lengths of its
intervals alone, with no machine in sight (`Scheduler.ticks_drive`); two drives through
the same time thus agree on them, whatever their programs do.  Executing an instruction
changes a timer only if that is what the instruction is for, so a program that leaves a
timer alone finds it counted down by exactly these ticks.

## Key results

- `Ticker.sum_advanceAll`: the ticks of a ticker that is never late add up to all the time
  that has passed, in whole periods
- `Scheduler.advance_cases`: everything that an advance can do
- `Scheduler.ticks_drive`, `Scheduler.timer_drive`: the ticks in a drive, and what a timer
  shows after it
- `Scheduler.drive_pace`: two drives through the same time
-/

namespace Chip8

/-! ## Time in pieces -/

namespace Ticker

/-- Let time pass piece by piece: the ticks that are due after each piece, and the ticker
    after all of them. -/
def advanceAll (t : Ticker) : List Nat → List Nat × Ticker
  | [] => ([], t)
  | elapsed :: rest =>
    let (ticks, t) := t.advance elapsed
    let (later, t) := t.advanceAll rest
    (ticks :: later, t)

/-- After no piece are as many periods due as a ticker counts at most. -/
def OnTime (t : Ticker) : List Nat → Prop
  | [] => True
  | elapsed :: rest =>
    (t.owed + elapsed) / t.period < maxTicks ∧ (t.advance elapsed).2.OnTime rest

instance decidableOnTime : ∀ (t : Ticker) (durations : List Nat), Decidable (t.OnTime durations)
  | _, [] => inferInstanceAs (Decidable True)
  | t, elapsed :: rest =>
    have := decidableOnTime (t.advance elapsed).2 rest
    inferInstanceAs (Decidable (_ ∧ _))

theorem advanceAll_cons (t : Ticker) (elapsed : Nat) (rest : List Nat) :
    t.advanceAll (elapsed :: rest) =
      ((t.advance elapsed).1 :: ((t.advance elapsed).2.advanceAll rest).1,
        ((t.advance elapsed).2.advanceAll rest).2) := rfl

/-- Whatever the pieces, time that has passed is either ticked or still owed. -/
theorem owed_advanceAll (t : Ticker) (durations : List Nat) :
    t.period * (t.advanceAll durations).1.sum + (t.advanceAll durations).2.owed =
      t.owed + durations.sum := by
  induction durations generalizing t with
  | nil => simp [advanceAll]
  | cons elapsed rest ih =>
    -- The account of the first piece and that of the others have the same period.
    have hfirst := t.owed_advance elapsed
    have hrest := ih (t.advance elapsed).2
    rw [period_advance] at hrest
    simp only [advanceAll_cons, List.sum_cons, Nat.mul_add]
    omega

/-- When all periods that are due are counted, less than one is still owed. -/
theorem owed_advance_lt {t : Ticker} {elapsed : Nat}
    (h : (t.owed + elapsed) / t.period < maxTicks) : (t.advance elapsed).2.owed < t.period := by
  have hmod := Nat.mod_add_div (t.owed + elapsed) t.period
  have hlt := Nat.mod_lt (t.owed + elapsed) t.period_pos
  simp only [advance, Nat.min_eq_left (Nat.le_of_lt h)]
  omega

theorem owed_advanceAll_lt {t : Ticker} (howed : t.owed < t.period) {durations : List Nat}
    (h : t.OnTime durations) : (t.advanceAll durations).2.owed < t.period := by
  induction durations generalizing t with
  | nil => exact howed
  -- Less than a period is left behind by each piece, and the next one starts from that.
  | cons elapsed rest ih => exact ih (owed_advance_lt h.1) h.2

/-- A ticker that is always on time counts every whole period that has passed. -/
theorem sum_advanceAll {t : Ticker} (howed : t.owed < t.period) {durations : List Nat}
    (h : t.OnTime durations) :
    (t.advanceAll durations).1.sum = (t.owed + durations.sum) / t.period := by
  have hrest := owed_advanceAll_lt howed h
  rw [← owed_advanceAll, Nat.mul_add_div t.period_pos, Nat.div_eq_of_lt hrest, Nat.add_zero]

end Ticker

/-! ## Advances -/

namespace Scheduler

/-- An advance ends at a fault of the program, or the steps that are due are made, or the
    program waits for a key.  In the last two cases the time passes for the timers and the
    frames as well. -/
theorem advance_cases (s : Scheduler) (elapsed : Nat) (m : Machine) :
    let run := m.run (s.cpu.advance elapsed).1
    (∃ cause, run.stop = .fault cause ∧
      s.advance elapsed m =
        ⟨.error cause, { s with cpu := (s.cpu.advance elapsed).2 }, run.machine⟩) ∨
    (run.stop = .limit ∧
      s.advance elapsed m = advance.finish s elapsed (s.cpu.advance elapsed).2 run false) ∨
    (run.stop = .awaitingKey ∧
      s.advance elapsed m = advance.finish s elapsed (s.cpu.advance elapsed).2.reset run true) := by
  intro run
  cases hstop : run.stop with
  | fault cause => exact .inl ⟨cause, rfl, by simp only [advance, run, hstop]⟩
  | limit => exact .inr (.inl ⟨rfl, by simp only [advance, run, hstop]⟩)
  | awaitingKey => exact .inr (.inr ⟨rfl, by simp only [advance, run, hstop]⟩)

/-- After an advance without a fault, the clocks of the timers and of the frames have moved
    by the time that has passed, and the timers of the machine by the ticks of their clock. -/
theorem advance_of_ok {s : Scheduler} {elapsed : Nat} {m : Machine} {p : Progress}
    (h : (s.advance elapsed m).outcome = .ok p) :
    s.timers.advance elapsed = (p.timerTicks, (s.advance elapsed m).scheduler.timers) ∧
      s.frames.advance elapsed = (p.frames, (s.advance elapsed m).scheduler.frames) ∧
      (s.advance elapsed m).machine =
        (m.run (s.cpu.advance elapsed).1).machine.decay p.timerTicks := by
  -- The two ways to end without a fault pass the same time on to both clocks.
  rcases s.advance_cases elapsed m with ⟨cause, -, hadvance⟩ | ⟨-, hadvance⟩ | ⟨-, hadvance⟩
  · rw [hadvance] at h
    exact nomatch h
  · rw [hadvance] at h ⊢
    cases h
    exact ⟨rfl, rfl, rfl⟩
  · rw [hadvance] at h ⊢
    cases h
    exact ⟨rfl, rfl, rfl⟩

end Scheduler

/-! ## Timers of a machine -/

/-- A run of steps leaves a timer alone unless it executes an instruction that sets it. -/
theorem Machine.timer_runFrom {timer : Timer} {m : Machine} {limit : Nat}
    (h : ∀ x, .single timer.setter x ∉ m.executed limit) (done : Nat) :
    (runFrom done limit m).machine.state.timers.get timer = m.state.timers.get timer := by
  induction limit generalizing m done with
  | zero => rfl
  | succ limit ih =>
    -- Only a step that executes changes the state, and the run goes on after it.
    rcases m.step_cases with ⟨_, -, hstep⟩ | ⟨_, _, -, -, hstep⟩ | ⟨_, -, -, hstep⟩ |
      ⟨i, _, _, -, -, -, hstep⟩
    · simp only [runFrom, hstep]
    · simp only [runFrom, hstep]
    · simp only [runFrom, hstep]
    · simp only [executed, hstep, List.mem_cons, not_or] at h
      simp only [runFrom, hstep]
      rw [ih fun x => (h x).2]
      exact execute_timers (fun x heq => (h x).1 heq.symm) _ _

namespace Scheduler

/-- In an advance without a fault a timer that is not set is counted down by the ticks. -/
theorem timer_advance {s : Scheduler} {elapsed : Nat} {m : Machine} {p : Progress}
    (h : (s.advance elapsed m).outcome = .ok p) {timer : Timer}
    (hset : ∀ x, .single timer.setter x ∉ m.executed (s.cpu.advance elapsed).1) :
    (s.advance elapsed m).machine.state.timers.get timer =
      countdown p.timerTicks (m.state.timers.get timer) := by
  obtain ⟨-, -, hmachine⟩ := advance_of_ok h
  -- The run comes before all ticks, and it leaves the timer alone.
  rw [hmachine, ← Machine.timer_runFrom hset 0]
  exact Timers.get_decay _ _ _

/-! ## Drives -/

/-- The ticks in a drive without a fault are those of clocks through which the same time
    passes. -/
theorem ticks_drive {s : Scheduler} {m : Machine} {intervals : List Interval} {ps : List Progress}
    (h : (s.drive m intervals).outcomes = ps.map .ok) :
    ps.map Progress.timerTicks = (s.timers.advanceAll (intervals.map Interval.elapsed)).1 ∧
      ps.map Progress.frames = (s.frames.advanceAll (intervals.map Interval.elapsed)).1 := by
  induction intervals generalizing s m ps with
  | nil =>
    obtain rfl := List.map_eq_nil_iff.1 h.symm
    exact ⟨rfl, rfl⟩
  | cons interval rest ih =>
    obtain ⟨p, ps, rfl, hfirst, hlater⟩ := List.map_eq_cons_iff.1 h.symm
    -- Neither clock sees what the advance has done, so the later intervals find the same clocks.
    obtain ⟨htimers, hframes, -⟩ := advance_of_ok hfirst.symm
    obtain ⟨hticks, hdue⟩ := ih hlater.symm
    rw [List.map_cons, List.map_cons, List.map_cons, Ticker.advanceAll_cons,
      Ticker.advanceAll_cons, htimers, hframes, hticks, hdue]
    exact ⟨rfl, rfl⟩

/-- In a drive without a fault a timer that the program does not set is counted down by the
    ticks. -/
theorem timer_drive {s : Scheduler} {m : Machine} {intervals : List Interval} {ps : List Progress}
    (h : (s.drive m intervals).outcomes = ps.map .ok) {timer : Timer}
    (hset : ∀ x, .single timer.setter x ∉ (s.drive m intervals).executed) :
    (s.drive m intervals).machine.state.timers.get timer =
      countdown (ps.map Progress.timerTicks).sum (m.state.timers.get timer) := by
  induction intervals generalizing s m ps with
  | nil =>
    obtain rfl := List.map_eq_nil_iff.1 h.symm
    exact (countdown_zero _).symm
  | cons interval rest ih =>
    obtain ⟨p, ps, rfl, hfirst, hlater⟩ := List.map_eq_cons_iff.1 h.symm
    -- What is executed in the first interval, and in the later ones, is executed in the drive.
    have hexecuted := fun x => not_or.1 (mt List.mem_append.2 (hset x))
    have hlives := timer_advance hfirst.symm fun x => (hexecuted x).1
    -- The events at the keypad do not reach the timers.
    rw [Machine.timers_handleAll] at hlives
    have hrest := ih hlater.symm fun x => (hexecuted x).2
    rw [hlives, ← countdown_add] at hrest
    exact hrest

/-- Two drives without a fault through the same time, of any machines at any rates and with
    any keys, have the same ticks and frames in each interval, one for every sixtieth of a
    second in all.  In both, a timer that the program does not set is counted down by the
    ticks, and stops at zero. -/
theorem drive_pace {clock clock' : Nat} {m m' : Machine} {intervals intervals' : List Interval}
    {ps ps' : List Progress}
    (htime : intervals'.map Interval.elapsed = intervals.map Interval.elapsed)
    (hok : ((ofClock clock).drive m intervals).outcomes = ps.map .ok)
    (hok' : ((ofClock clock').drive m' intervals').outcomes = ps'.map .ok)
    (htimers : (Ticker.ofRate timerRate).OnTime (intervals.map Interval.elapsed))
    (hframes : (Ticker.ofRate frameRate).OnTime (intervals.map Interval.elapsed)) :
    let drive := (ofClock clock).drive m intervals
    let drive' := (ofClock clock').drive m' intervals'
    let ticks := (intervals.map Interval.elapsed).sum / 16666666
    ps'.map Progress.timerTicks = ps.map Progress.timerTicks ∧
      ps'.map Progress.frames = ps.map Progress.frames ∧
      (ps.map Progress.timerTicks).sum = ticks ∧ (ps.map Progress.frames).sum = ticks ∧
      (∀ timer : Timer, (∀ x, .single timer.setter x ∉ drive.executed) →
        (drive.machine.state.timers.get timer).toNat =
          (m.state.timers.get timer).toNat - (ps.map Progress.timerTicks).sum) ∧
      ∀ timer : Timer, (∀ x, .single timer.setter x ∉ drive'.executed) →
        (drive'.machine.state.timers.get timer).toNat =
          (m'.state.timers.get timer).toNat - (ps'.map Progress.timerTicks).sum := by
  intro drive drive' ticks
  have htimerPeriod : (Ticker.ofRate timerRate).period = 16666666 := by decide
  have hframePeriod : (Ticker.ofRate frameRate).period = 16666666 := by decide
  obtain ⟨hticks, hdue⟩ := ticks_drive hok
  obtain ⟨hticks', hdue'⟩ := ticks_drive hok'
  -- Both drives pass the same time on to clocks of the same rates.
  rw [htime] at hticks' hdue'
  refine ⟨hticks'.trans hticks.symm, hdue'.trans hdue.symm, ?_, ?_, fun timer hset => ?_,
    fun timer hset => ?_⟩
  · rw [hticks]
    -- A clock that is on time has ticked once for every whole period.
    refine (Ticker.sum_advanceAll (Ticker.period_pos _) htimers).trans ?_
    rw [htimerPeriod]
    exact congrArg (· / 16666666) (Nat.zero_add _)
  · rw [hdue]
    refine (Ticker.sum_advanceAll (Ticker.period_pos _) hframes).trans ?_
    rw [hframePeriod]
    exact congrArg (· / 16666666) (Nat.zero_add _)
  · rw [timer_drive hok hset, toNat_countdown]
  · rw [timer_drive hok' hset, toNat_countdown]

/-- A program that runs in a circle and one that waits for a key, which comes in the second
    interval, at different rates. -/
theorem drive_pace_of_wait :
    let load := fun image (timers : Timers) =>
      let m := ((Machine.new (.counter 0 1)).load image).2
      { m with state := { m.state with timers } }
    let circling := (ofClock 100).drive (load [0x12, 0x00] ⟨5, 1⟩)
      [⟨[], 20000000⟩, ⟨[], 20000000⟩]
    let waiting := (ofClock 60).drive (load [0xF0, 0x0A] ⟨9, 2⟩)
      [⟨[], 20000000⟩, ⟨[.press 7], 20000000⟩]
    circling.outcomes = [.ok ⟨2, 1, 1, false⟩, .ok ⟨2, 1, 1, false⟩] ∧
      waiting.outcomes = [.ok ⟨0, 1, 1, true⟩, .ok ⟨1, 1, 1, false⟩] ∧
      (circling.machine.state.timers.get .delay).toNat = 3 ∧
      (waiting.machine.state.timers.get .sound).toNat = 0 := by
  intro load circling waiting
  obtain ⟨hcircling, hdelay⟩ :
      circling.outcomes = [⟨2, 1, 1, false⟩, ⟨2, 1, 1, false⟩].map .ok ∧
        ∀ x, .single .setDelay x ∉ circling.executed := by decide +kernel
  obtain ⟨hwaiting, hsound⟩ :
      waiting.outcomes = [⟨0, 1, 1, true⟩, ⟨1, 1, 1, false⟩].map .ok ∧
        ∀ x, .single .setSound x ∉ waiting.executed := by decide +kernel
  obtain ⟨-, -, -, -, htimer, htimer'⟩ :=
    drive_pace (by decide) hcircling hwaiting (by decide) (by decide)
  exact ⟨hcircling, hwaiting, htimer .delay hdelay, htimer' .sound hsound⟩

end Scheduler

end Chip8
