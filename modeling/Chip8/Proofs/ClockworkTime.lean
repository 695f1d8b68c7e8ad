import Chip8.Clock.Clockwork
import Chip8.Clock.Drive
import Chip8.Proofs.ElapsedTime
import Chip8.Proofs.TimerPace

/-!
# Schedulers in durations

A scheduler counts nanoseconds in numbers, a clockwork in durations, of which there is a longest
one.  As far as the clocks of a clockwork have room for the time that passes, it does what the
scheduler does that counts the same nanoseconds.  Where one of them has none, the clockwork stops:
always for the clock of the instructions, and for the other two unless the program is at fault
before they are asked.

What is proved of a scheduler therefore holds of a clockwork wherever it has a result, and it has
one through any intervals that make up a duration together with what is owed.

## Key results

- `Metronome.advance?_eq_none_iff`: a metronome stops exactly where it has no room
- `Clockwork.advance?_eq_none_iff`: where a clockwork stops
- `Clockwork.toScheduler_of_advance?`, `toScheduler_of_frame?`: an advance and a frame are those of
  the scheduler
- `Clockwork.drive_of_drive?`, `Clockwork.exists_drive?`: any number of intervals
-/

namespace Chip8

variable {elapsed : Duration}

/-! ## One clock -/

namespace Metronome

variable {t u : Metronome} {ticks : UInt32}

/-- The time that is owed and some more make up a duration. -/
def Room (t : Metronome) (nanos : Nat) : Prop := t.owed.toNanos + nanos < Duration.limit

instance (t : Metronome) (nanos : Nat) : Decidable (t.Room nanos) :=
  inferInstanceAs (Decidable (_ < _))

theorem Room.mono {nanos more : Nat} (h : t.Room more) (hle : nanos ≤ more) : t.Room nanos :=
  Nat.lt_of_le_of_lt (Nat.add_le_add_left hle _) h

/-- A clock that owes nothing has room for any duration. -/
theorem room_reset (t : Metronome) {nanos : Nat} : t.reset.Room nanos ↔ nanos < Duration.limit := by
  rw [Room, reset, Duration.toNanos_zero, Nat.zero_add]

theorem room_ofRate (hz : UInt32) {nanos : Nat} :
    (ofRate hz).Room nanos ↔ nanos < Duration.limit := (ofRate hz).room_reset

/-- Where an advance has a result, there was room for it, and it is that of the ticker. -/
theorem room_and_advance_of_advance? (h : t.advance? elapsed = some (ticks, u)) :
    t.Room elapsed.toNanos ∧ t.toTicker.advance elapsed.toNanos = (ticks.toNat, u.toTicker) := by
  obtain ⟨owed, hadd, -⟩ := Option.bind_eq_some_iff.1 h
  have hroom : t.Room elapsed.toNanos := by
    rw [Room, ← Duration.add?_eq_some_iff.1 hadd]
    exact owed.toNanos_lt
  obtain ⟨ticks', u', hadvance, hticks, hu⟩ := exists_advance? hroom
  rw [h] at hadvance
  cases hadvance
  exact ⟨hroom, Prod.ext hticks.symm hu.symm⟩

theorem toTicker_of_advance? (h : t.advance? elapsed = some (ticks, u)) :
    t.toTicker.advance elapsed.toNanos = (ticks.toNat, u.toTicker) :=
  (room_and_advance_of_advance? h).2

theorem advance?_eq_none_iff : t.advance? elapsed = none ↔ ¬ t.Room elapsed.toNanos := by
  constructor
  · intro hnone hroom
    obtain ⟨_, _, hsome, -⟩ := exists_advance? hroom
    rw [hnone] at hsome
    exact nomatch hsome
  · intro hroom
    cases h : t.advance? elapsed with
    | none => rfl
    | some result => exact absurd (room_and_advance_of_advance? h).1 hroom

/-- An advance uses up no more room than its own time. -/
theorem Room.advance {nanos : Nat} (hroom : t.Room (elapsed.toNanos + nanos))
    (h : t.advance? elapsed = some (ticks, u)) : u.Room nanos := by
  -- What the ticks do not use up of the time is still owed, and it is all that is.
  have haccount := t.toTicker.owed_advance elapsed.toNanos
  rw [toTicker_of_advance? h] at haccount
  have howed : t.period.toNanos * ticks.toNat + u.owed.toNanos =
      t.owed.toNanos + elapsed.toNanos := haccount
  rw [Room] at hroom ⊢
  omega

end Metronome

/-! ## Three clocks -/

namespace Clockwork

variable {c : Clockwork} {m : Machine} {a : Advance}

/-- All three clocks have room for some time. -/
structure Room (c : Clockwork) (nanos : Nat) : Prop where
  cpu : c.cpu.Room nanos
  timers : c.timers.Room nanos
  frames : c.frames.Room nanos

theorem Room.mono {nanos more : Nat} (h : c.Room more) (hle : nanos ≤ more) : c.Room nanos :=
  ⟨h.cpu.mono hle, h.timers.mono hle, h.frames.mono hle⟩

/-- A new clockwork has room for any duration. -/
theorem room_ofClock (clock : UInt32) {nanos : Nat} :
    (ofClock clock).Room nanos ↔ nanos < Duration.limit :=
  ⟨fun h => (Metronome.room_ofRate _).1 h.cpu, fun h =>
    ⟨(Metronome.room_ofRate _).2 h, (Metronome.room_ofRate _).2 h, (Metronome.room_ofRate _).2 h⟩⟩

/-- What came of an advance, with clocks that count nanoseconds. -/
def Advance.toScheduler (a : Advance) : Scheduler.Advance :=
  ⟨a.outcome, a.clockwork.toScheduler, a.machine⟩

/-- How the time passes for the timers and the frames. -/
theorem exists_of_finish? {cpu : Metronome} {run : Machine.Run} {awaitingKey : Bool}
    (h : advance?.finish? c elapsed cpu run awaitingKey = some a) :
    ∃ ticks timers due frames, c.timers.advance? elapsed = some (ticks, timers) ∧
      c.frames.advance? elapsed = some (due, frames) ∧
      a = ⟨.ok ⟨run.steps, ticks.toNat, due.toNat, awaitingKey⟩, ⟨cpu, timers, frames⟩,
        run.machine.decay ticks.toNat⟩ := by
  obtain ⟨⟨ticks, timers⟩, htimers, h⟩ := Option.bind_eq_some_iff.1 h
  obtain ⟨⟨due, frames⟩, hframes, h⟩ := Option.bind_eq_some_iff.1 h
  exact ⟨ticks, timers, due, frames, htimers, hframes, (Option.some.inj h).symm⟩

/-- An advance has a result if the clock of the instructions has one and either the program is
    then at fault, or the other two clocks have one as well. -/
theorem advance?_cases (h : c.advance? elapsed m = some a) :
    ∃ due cpu, c.cpu.advance? elapsed = some (due, cpu) ∧
      let run := m.run due.toNat
      ((∃ cause, run.stop = .fault cause ∧ a = ⟨.error cause, { c with cpu }, run.machine⟩) ∨
        (run.stop = .limit ∧ advance?.finish? c elapsed cpu run false = some a) ∨
        (run.stop = .awaitingKey ∧ advance?.finish? c elapsed cpu.reset run true = some a)) := by
  obtain ⟨⟨due, cpu⟩, hcpu, h⟩ := Option.bind_eq_some_iff.1 h
  refine ⟨due, cpu, hcpu, ?_⟩
  dsimp only at h ⊢
  cases hstop : (m.run due.toNat).stop with
  | fault cause =>
    rw [hstop] at h
    exact .inl ⟨cause, rfl, (Option.some.inj h).symm⟩
  | limit =>
    rw [hstop] at h
    exact .inr (.inl ⟨rfl, h⟩)
  | awaitingKey =>
    rw [hstop] at h
    exact .inr (.inr ⟨rfl, h⟩)

theorem toScheduler_of_finish? {cpu : Metronome} {run : Machine.Run} {awaitingKey : Bool}
    (h : advance?.finish? c elapsed cpu run awaitingKey = some a) :
    Scheduler.advance.finish c.toScheduler elapsed.toNanos cpu.toTicker run awaitingKey =
      a.toScheduler := by
  obtain ⟨ticks, timers, due, frames, htimers, hframes, rfl⟩ := exists_of_finish? h
  have htimers' := Metronome.toTicker_of_advance? htimers
  have hframes' := Metronome.toTicker_of_advance? hframes
  simp only [Scheduler.advance.finish, toScheduler, Advance.toScheduler, htimers', hframes']

/-- Where an advance has a result, it is that of the scheduler. -/
theorem toScheduler_of_advance? (h : c.advance? elapsed m = some a) :
    c.toScheduler.advance elapsed.toNanos m = a.toScheduler := by
  obtain ⟨due, cpu, hcpu, hrun⟩ := advance?_cases h
  have hcpu' : c.toScheduler.cpu.advance elapsed.toNanos = (due.toNat, cpu.toTicker) :=
    Metronome.toTicker_of_advance? hcpu
  rcases hrun with ⟨cause, hstop, rfl⟩ | ⟨hstop, hfinish⟩ | ⟨hstop, hfinish⟩
  · simp only [Scheduler.advance, hcpu', hstop]
    rfl
  · simp only [Scheduler.advance, hcpu', hstop]
    exact toScheduler_of_finish? hfinish
  · simp only [Scheduler.advance, hcpu', hstop]
    refine Eq.trans ?_ (toScheduler_of_finish? hfinish)
    -- On a reset nothing is owed, whatever the clock is made of.
    simp only [Metronome.reset, Metronome.toTicker, Ticker.reset, Duration.toNanos_zero]

/-- Where a frame has a result, it is that of the scheduler. -/
theorem toScheduler_of_frame? {poll : KeyPoll} {signals : List Signal}
    (h : c.frame? poll elapsed m = some (a, signals)) :
    c.toScheduler.frame poll elapsed.toNanos m = (a.toScheduler, signals) := by
  obtain ⟨result, hadvance, h⟩ := Option.bind_eq_some_iff.1 h
  cases h
  rw [Scheduler.frame, toScheduler_of_advance? hadvance]
  rfl

theorem finish?_eq_none_iff {cpu : Metronome} {run : Machine.Run} {awaitingKey : Bool} :
    advance?.finish? c elapsed cpu run awaitingKey = none ↔
      ¬ (c.timers.Room elapsed.toNanos ∧ c.frames.Room elapsed.toNanos) := by
  rw [not_and_or, ← Metronome.advance?_eq_none_iff, ← Metronome.advance?_eq_none_iff]
  unfold advance?.finish?
  cases c.timers.advance? elapsed with
  | none => simp
  | some ticks =>
    cases c.frames.advance? elapsed with
    | none => simp
    | some due => simp

/-- An advance has no result exactly where the clock of the instructions has no room for the time,
    or the program is not at fault and one of the other two clocks has none. -/
theorem advance?_eq_none_iff :
    c.advance? elapsed m = none ↔
      ¬ c.cpu.Room elapsed.toNanos ∨
        (∃ p, (c.toScheduler.advance elapsed.toNanos m).outcome = .ok p) ∧
          ¬ (c.timers.Room elapsed.toNanos ∧ c.frames.Room elapsed.toNanos) := by
  cases hcpu : c.cpu.advance? elapsed with
  | none =>
    have hroom := Metronome.advance?_eq_none_iff.1 hcpu
    simp only [advance?, hcpu, hroom, not_false_eq_true, true_or, iff_true]
    rfl
  | some result =>
    obtain ⟨due, cpu⟩ := result
    obtain ⟨hroom, hcpu'⟩ := Metronome.room_and_advance_of_advance? hcpu
    have hcpu'' : c.toScheduler.cpu.advance elapsed.toNanos = (due.toNat, cpu.toTicker) := hcpu'
    -- Both sides now hang on how the run of the instructions ends.
    simp only [advance?, hcpu, hroom, Option.bind_eq_bind, Option.bind_some, not_true_eq_false,
      false_or, Scheduler.advance, hcpu'']
    cases (m.run due.toNat).stop with
    | fault cause => simp
    | limit =>
      rw [finish?_eq_none_iff]
      exact (and_iff_right ⟨_, rfl⟩).symm
    | awaitingKey =>
      rw [finish?_eq_none_iff]
      exact (and_iff_right ⟨_, rfl⟩).symm

/-- With room for the time an advance has a result. -/
theorem exists_advance? (h : c.Room elapsed.toNanos) (m : Machine) :
    ∃ a, c.advance? elapsed m = some a := by
  -- Neither reason to have no result is left.
  rw [← Option.ne_none_iff_exists', ne_eq, advance?_eq_none_iff]
  rintro (hcpu | ⟨-, hothers⟩)
  · exact hcpu h.cpu
  · exact hothers ⟨h.timers, h.frames⟩

/-- An advance uses up no more room than its own time. -/
theorem Room.advance {nanos : Nat} (hroom : c.Room (elapsed.toNanos + nanos))
    (h : c.advance? elapsed m = some a) : a.clockwork.Room nanos := by
  have hlater := hroom.mono (Nat.le_add_left nanos elapsed.toNanos)
  obtain ⟨due, cpu, hcpu, hrun⟩ := advance?_cases h
  have hcpuRoom := hroom.cpu.advance hcpu
  rcases hrun with ⟨cause, -, rfl⟩ | ⟨-, hfinish⟩ | ⟨-, hfinish⟩
  · -- At a fault the other two clocks are as they were.
    exact ⟨hcpuRoom, hlater.timers, hlater.frames⟩
  · obtain ⟨_, _, _, _, htimers, hframes, rfl⟩ := exists_of_finish? hfinish
    exact ⟨hcpuRoom, hroom.timers.advance htimers, hroom.frames.advance hframes⟩
  · obtain ⟨_, _, _, _, htimers, hframes, rfl⟩ := exists_of_finish? hfinish
    -- While a key is awaited the clock of the instructions owes nothing.
    have hreset : cpu.reset.Room nanos :=
      cpu.room_reset.2 (Nat.lt_of_le_of_lt (Nat.le_add_left _ _) hlater.cpu)
    exact ⟨hreset, hroom.timers.advance htimers, hroom.frames.advance hframes⟩

/-! ## Drives -/

/-- What happened at the keypad, and the duration that passed after it. -/
structure Span where
  events : List KeyEvent
  elapsed : Duration

/-- The interval of as many nanoseconds. -/
def Span.toInterval (span : Span) : Interval := ⟨span.events, span.elapsed.toNanos⟩

/-- Drive a machine through spans one after the other: what was done in each of them, and the
    clockwork and the machine in the end. -/
def drive? (c : Clockwork) (m : Machine) :
    List Span → Option (List (Except Fault Progress) × Clockwork × Machine)
  | [] => some ([], c, m)
  | span :: rest => do
    let a ← c.advance? span.elapsed (m.handleAll span.events)
    let (later, c, m) ← a.clockwork.drive? a.machine rest
    some (a.outcome :: later, c, m)

/-- Where a drive has a result, it is that of the scheduler. -/
theorem drive_of_drive? {c c' : Clockwork} {m m' : Machine} {spans : List Span}
    {outcomes : List (Except Fault Progress)} (h : c.drive? m spans = some (outcomes, c', m')) :
    let drive := c.toScheduler.drive m (spans.map Span.toInterval)
    drive.outcomes = outcomes ∧ drive.scheduler = c'.toScheduler ∧ drive.machine = m' := by
  induction spans generalizing c m outcomes with
  | nil =>
    cases h
    exact ⟨rfl, rfl, rfl⟩
  | cons span rest ih =>
    obtain ⟨a, hadvance, h⟩ := Option.bind_eq_some_iff.1 h
    obtain ⟨⟨later, c'', m''⟩, hrest, h⟩ := Option.bind_eq_some_iff.1 h
    cases h
    obtain ⟨houtcomes, hscheduler, hmachine⟩ := ih hrest
    have hfirst : c.toScheduler.advance span.toInterval.elapsed
        (m.handleAll span.toInterval.events) = a.toScheduler := toScheduler_of_advance? hadvance
    simp only [List.map_cons, Scheduler.drive, hfirst]
    exact ⟨congrArg (a.outcome :: ·) houtcomes, hscheduler, hmachine⟩

/-- With room for all of the time a drive has a result. -/
theorem exists_drive? {spans : List Span}
    (h : c.Room (Duration.total (spans.map Span.elapsed))) (m : Machine) :
    ∃ outcomes c' m', c.drive? m spans = some (outcomes, c', m') := by
  induction spans generalizing c m with
  | nil => exact ⟨[], c, m, rfl⟩
  | cons span rest ih =>
    rw [List.map_cons, Duration.total_cons] at h
    have hfirst := h.mono (Nat.le_add_right _ _)
    obtain ⟨a, hadvance⟩ := exists_advance? hfirst (m.handleAll span.events)
    -- What the first span leaves is room for the others.
    obtain ⟨later, c', m', hrest⟩ := ih (h.advance hadvance) a.machine
    refine ⟨a.outcome :: later, c', m', ?_⟩
    simp only [drive?, hadvance, hrest, Option.bind_eq_bind, Option.bind_some]

end Clockwork

end Chip8
