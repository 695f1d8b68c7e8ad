import Chip8.Proofs.TimerPace

/-!
# Time in one piece and in slices

When time passes in one piece, all instructions that come due are executed before the
timers tick; when it passes in slices, the ticks fall in between.  A program that neither
reads nor sets a timer cannot tell the two apart.  This is shown here in three parts: the
tickers count the same periods either way, an instruction that does not use the timers
does the same on a machine whose timers are some ticks ahead, and a whole run does so by
induction.

The saved states are left out of the comparison: they show the timers as they were
when each of them was saved.

## Key results

- `Ticker.advanceAll_eq_advance`: a ticker through slices and through their sum
- `execute_withTimers`: an instruction that does not use the timers, at other timers
- `Machine.Steps.ahead`: the same for any number of instructions
- `Scheduler.drive_slices`: time in slices does what it does in one piece
-/

namespace Chip8

/-! ## Tickers -/

namespace Ticker

theorem ext {t u : Ticker} (hperiod : t.period = u.period) (howed : t.owed = u.owed) : t = u := by
  cases t
  cases u
  cases hperiod
  cases howed
  rfl

theorem period_advanceAll (t : Ticker) (durations : List Nat) :
    (t.advanceAll durations).2.period = t.period := by
  induction durations generalizing t with
  | nil => rfl
  | cons elapsed rest ih => rw [advanceAll_cons, ih, period_advance]

/-- A ticker that counts all periods of a time counts all periods of its slices. -/
theorem onTime_of_sum {t : Ticker} {durations : List Nat}
    (h : (t.owed + durations.sum) / t.period < maxTicks) : t.OnTime durations := by
  induction durations generalizing t with
  | nil => trivial
  | cons elapsed rest ih =>
    rw [List.sum_cons] at h
    have hfirst : (t.owed + elapsed) / t.period ≤ (t.owed + (elapsed + rest.sum)) / t.period :=
      Nat.div_le_div_right (by omega)
    -- What is owed after the first slice is no more than it was, and the slice.
    have howed := t.owed_advance elapsed
    have hrest : ((t.advance elapsed).2.owed + rest.sum) / t.period ≤
        (t.owed + (elapsed + rest.sum)) / t.period := Nat.div_le_div_right (by omega)
    exact ⟨by omega, ih (by rw [period_advance]; omega)⟩

/-- Less than a period is owed after slices that are on time, if there are any or less was
    owed before. -/
theorem owed_advanceAll_lt_of_ne_nil {t : Ticker} {durations : List Nat}
    (hstart : durations = [] → t.owed < t.period) (h : t.OnTime durations) :
    (t.advanceAll durations).2.owed < t.period := by
  cases durations with
  | nil => exact hstart rfl
  | cons elapsed rest => exact owed_advanceAll_lt (owed_advance_lt h.1) h.2

/-- A ticker that counts all periods counts as many in slices as in one piece, and owes the
    same in the end. -/
theorem advanceAll_eq_advance {t : Ticker} {durations : List Nat}
    (hstart : durations = [] → t.owed < t.period)
    (h : (t.owed + durations.sum) / t.period < maxTicks) :
    (t.advanceAll durations).1.sum = (t.advance durations.sum).1 ∧
      (t.advanceAll durations).2 = (t.advance durations.sum).2 := by
  have hslices := t.owed_advanceAll durations
  have hwhole := t.owed_advance durations.sum
  have hlt := owed_advanceAll_lt_of_ne_nil hstart (onTime_of_sum h)
  -- Both leave less than a period over, so they agree in the quotient and the remainder.
  have hticks : (t.advanceAll durations).1.sum = (t.advance durations.sum).1 := by
    have hdiv : (t.advance durations.sum).1 = (t.owed + durations.sum) / t.period :=
      Nat.min_eq_left (Nat.le_of_lt h)
    rw [hdiv, ← hslices, Nat.mul_add_div t.period_pos, Nat.div_eq_of_lt hlt, Nat.add_zero]
  refine ⟨hticks, ext (t.period_advanceAll durations) ?_⟩
  rw [hticks] at hslices
  omega

end Ticker

/-! ## Instructions at other timers -/

/-- Whether an instruction reads or sets a timer. -/
def Instruction.usesTimers : Instruction → Bool
  | single .readDelay _ | single .setDelay _ | single .setSound _ => true
  | _ => false

/-- A state with other timers. -/
def State.withTimers (s : State) (timers : Timers) : State := { s with timers }

/-- An attempt does the same at other timers if its continuation does. -/
theorem attempt_withTimers {α : Type} {s : State} {timers : Timers} {answer : Except RangeFault α}
    {goOn goOn' : α → Next × State}
    (hgoOn : ∀ a, goOn' a = ((goOn a).1, (goOn a).2.withTimers timers)) :
    attempt (s.withTimers timers) answer goOn' =
      ((attempt s answer goOn).1, (attempt s answer goOn).2.withTimers timers) := by
  cases answer with
  | error cause => rfl
  | ok a => simp only [attempt, hgoOn]

private theorem AddressOp.execute_withTimers (op : AddressOp) (addr : UInt16) (s : State)
    (timers : Timers) :
    op.execute addr (s.withTimers timers) =
      ((op.execute addr s).1, (op.execute addr s).2.withTimers timers) := by
  cases op with
  | call => exact attempt_withTimers fun _ => rfl
  | _ => rfl

private theorem SingleOp.execute_withTimers {op : SingleOp} {x : Register}
    (h : (Instruction.single op x).usesTimers = false) (s : State) (timers : Timers) :
    op.execute x (s.withTimers timers) =
      ((op.execute x s).1, (op.execute x s).2.withTimers timers) := by
  cases op with
  | readDelay => exact nomatch h
  | setDelay => exact nomatch h
  | setSound => exact nomatch h
  | waitKey =>
    have hkeys : (s.withTimers timers).keys = s.keys := rfl
    simp only [SingleOp.execute, hkeys]
    split <;> rfl
  | bcd => exact attempt_withTimers fun _ => rfl
  | store => exact attempt_withTimers fun _ => rfl
  | read => exact attempt_withTimers fun _ => rfl
  | _ => rfl

/-- An instruction that does not use the timers does the same at other timers, and leaves
    them as they are. -/
theorem execute_withTimers {i : Instruction} (h : i.usesTimers = false) (s : State)
    (timers : Timers) (r : RandomSource) :
    execute i (s.withTimers timers) r =
      ⟨(execute i s r).outcome, (execute i s r).state.withTimers timers,
        (execute i s r).random⟩ := by
  cases i with
  | clear => rfl
  | ret =>
    have hstack : (s.withTimers timers).stack = s.stack := rfl
    simp only [execute, hstack]
    cases s.stack.pop <;> rfl
  | address op addr =>
    exact congrArg (Effect.undrawn r) (AddressOp.execute_withTimers op addr s timers)
  | byte op x kk => cases op <;> rfl
  | pair op x y => cases op <;> rfl
  | draw x y height =>
    have hdraw : executeDraw x y height (s.withTimers timers) =
        ((executeDraw x y height s).1, (executeDraw x y height s).2.withTimers timers) :=
      attempt_withTimers fun _ => rfl
    exact congrArg (Effect.undrawn r) hdraw
  | single op x => exact congrArg (Effect.undrawn r) (SingleOp.execute_withTimers h s timers)

theorem timers_execute {i : Instruction} (h : i.usesTimers = false) (s : State)
    (r : RandomSource) : (execute i s r).state.timers = s.timers :=
  congrArg (·.state.timers) (execute_withTimers h s s.timers r)

/-! ## Steps at other timers -/

namespace Machine

/-- Instructions that are executed one after the other, from one machine to another. -/
inductive Steps : Machine → List Instruction → Machine → Prop where
  | nil (m : Machine) : Steps m [] m
  | cons {m m' m'' : Machine} {i : Instruction} {rest : List Instruction}
      (hstep : m.step = (.ok (.executed i), m')) (hrest : Steps m' rest m'') :
      Steps m (i :: rest) m''

/-- A run that is not stopped early executes as many instructions as it may. -/
theorem steps_of_runFrom {m : Machine} {done limit : Nat}
    (h : (runFrom done limit m).stop = .limit) :
    Steps m (m.executed limit) (runFrom done limit m).machine ∧
      (m.executed limit).length = limit := by
  induction limit generalizing m done with
  | zero => exact ⟨.nil m, rfl⟩
  | succ limit ih =>
    simp only [runFrom, executed] at h ⊢
    rcases hstep : m.step with ⟨_ | _ | _, m'⟩
    · simp only [hstep] at h
      cases h
    · simp only [hstep] at h ⊢
      obtain ⟨hsteps, hlength⟩ := ih h
      exact ⟨.cons hstep hsteps, by rw [List.length_cons, hlength]⟩
    · simp only [hstep] at h
      cases h

/-- A run goes through instructions that can be executed one after the other. -/
theorem Steps.runFrom {m m' : Machine} {instructions : List Instruction}
    (h : Steps m instructions m') (done : Nat) :
    Machine.runFrom done instructions.length m =
        ⟨done + instructions.length, .limit, m'⟩ ∧
      m.executed instructions.length = instructions := by
  induction h generalizing done with
  | nil m => exact ⟨rfl, rfl⟩
  | cons hstep hrest ih =>
    obtain ⟨hrun, hexecuted⟩ := ih (done + 1)
    simp only [List.length_cons, Machine.runFrom, executed, hstep, hrun, hexecuted]
    rw [Nat.add_right_comm, Nat.add_assoc]
    exact ⟨rfl, trivial⟩

/-- The first ones of several instructions are executed first. -/
theorem Steps.of_append {m m'' : Machine} {first rest : List Instruction}
    (h : Steps m (first ++ rest) m'') : ∃ m', Steps m first m' ∧ Steps m' rest m'' := by
  induction first generalizing m with
  | nil => exact ⟨m, .nil m, h⟩
  | cons i first ih =>
    cases h with
    | cons hstep hrest =>
      obtain ⟨m', hfirst, hlater⟩ := ih hrest
      exact ⟨m', .cons hstep hfirst, hlater⟩

/-- What a step comes to when the instruction that it fetches can be executed. -/
theorem step_eq_executed {m : Machine} {i : Instruction} {next : Next} {pc : UInt16}
    (hfetch : m.state.fetch = .ok i) (hout : (execute i m.state m.random).outcome = .ok next)
    (htarget : next.target? m.state.pc = some pc) :
    m.step =
      (.ok (.executed i),
        { m with
          state := { (execute i m.state m.random).state with pc }
          history := m.history.save m.state
          random := (execute i m.state m.random).random }) := by
  simp only [step, hfetch, hout, htarget]

/-- A machine whose timers are some ticks ahead of those of another one, and which is like it
    but for the saved states. -/
def Ahead (ticks : Nat) (m m' : Machine) : Prop :=
  m' = { m.decay ticks with history := m'.history }

theorem Ahead.refl (m : Machine) : m.Ahead 0 m := by
  show m = { m.decay 0 with history := m.history }
  simp only [decay, Timers.decay_zero]

/-- Further ticks add to those that a machine is ahead. -/
theorem Ahead.decay {ticks : Nat} {m m' : Machine} (h : m.Ahead ticks m') (more : Nat) :
    m.Ahead (ticks + more) (m'.decay more) := by
  rw [h]
  simp only [Ahead, Machine.decay, Timers.decay_add]

/-- A machine that is ahead executes the same instruction, if that does not use the timers,
    and stays ahead. -/
theorem Ahead.step {ticks : Nat} {m m₁ m' : Machine} (h : m.Ahead ticks m') {i : Instruction}
    (hi : i.usesTimers = false) (hstep : m.step = (.ok (.executed i), m₁)) :
    ∃ m₁', m'.step = (.ok (.executed i), m₁') ∧ m₁.Ahead ticks m₁' := by
  obtain ⟨next, pc, hfetch, hout, htarget, hnext⟩ := step_of_executed (congrArg Prod.fst hstep)
  have hstate : m'.state = m.state.withTimers (m.state.timers.decay ticks) := by
    rw [h]
    rfl
  have hrandom : m'.random = m.random := by
    rw [h]
    rfl
  have hloaded : m'.loaded = m.loaded := by
    rw [h]
    rfl
  have hexecute : execute i m'.state m'.random =
      ⟨(execute i m.state m.random).outcome,
        (execute i m.state m.random).state.withTimers (m.state.timers.decay ticks),
        (execute i m.state m.random).random⟩ := by
    rw [hstate, hrandom]
    exact execute_withTimers hi _ _ _
  have hfetch' : m'.state.fetch = .ok i := by
    rw [hstate]
    exact hfetch
  have hout' : (execute i m'.state m'.random).outcome = .ok next := by
    rw [hexecute]
    exact hout
  have htarget' : next.target? m'.state.pc = some pc := by
    rw [hstate]
    exact htarget
  refine ⟨_, step_eq_executed hfetch' hout' htarget', ?_⟩
  -- The timers are where they were after the step, so the ticks can as well come behind it.
  have htimers := timers_execute hi m.state m.random
  rw [hstep] at hnext
  cases hnext
  simp only [Ahead, Machine.decay, hexecute, htimers, hloaded]
  rfl

/-- So it goes with any number of instructions. -/
theorem Steps.ahead {m m₁ m' : Machine} {instructions : List Instruction}
    (hsteps : Steps m instructions m₁) (hfree : ∀ i ∈ instructions, i.usesTimers = false)
    {ticks : Nat} (h : m.Ahead ticks m') :
    ∃ m₁', Steps m' instructions m₁' ∧ m₁.Ahead ticks m₁' := by
  induction hsteps generalizing m' with
  | nil m => exact ⟨m', .nil m', h⟩
  | cons hstep hrest ih =>
    obtain ⟨m₂, hstep', hnext⟩ := h.step (hfree _ List.mem_cons_self) hstep
    obtain ⟨m₁', hrest', hlast⟩ := ih (fun i hmem => hfree i (List.mem_cons_of_mem _ hmem)) hnext
    exact ⟨m₁', .cons hstep' hrest', hlast⟩

end Machine

/-! ## Advances in slices -/

namespace Scheduler

/-- An advance in which all instructions that are due can be executed one after the other. -/
theorem advance_of_steps {s : Scheduler} {elapsed : Nat} {m m' : Machine}
    {instructions : List Instruction} (h : m.Steps instructions m')
    (hlength : instructions.length = (s.cpu.advance elapsed).1) :
    s.advance elapsed m =
        ⟨.ok ⟨(s.cpu.advance elapsed).1, (s.timers.advance elapsed).1,
            (s.frames.advance elapsed).1, false⟩,
          ⟨(s.cpu.advance elapsed).2, (s.timers.advance elapsed).2, (s.frames.advance elapsed).2⟩,
          m'.decay (s.timers.advance elapsed).1⟩ ∧
      m.executed (s.cpu.advance elapsed).1 = instructions := by
  obtain ⟨hrun, hexecuted⟩ := h.runFrom 0
  rw [hlength, Nat.zero_add] at hrun
  rw [hlength] at hexecuted
  refine ⟨?_, hexecuted⟩
  simp only [advance, Machine.run, hrun, advance.finish]

/-- Intervals in which nothing happens at the keypad. -/
def slices (durations : List Nat) : List Interval := durations.map fun elapsed => ⟨[], elapsed⟩

/-- A machine that is ahead is driven through slices of time.  Where the other one executes as
    many instructions as come due, none of which uses the timers, it executes the same ones,
    and the ticks of the slices add to those that it is ahead. -/
theorem drive_of_steps {s : Scheduler} {m m₁ m' : Machine} {durations : List Nat}
    {instructions : List Instruction} (hsteps : m.Steps instructions m₁)
    (hlength : instructions.length = (s.cpu.advanceAll durations).1.sum)
    (hfree : ∀ i ∈ instructions, i.usesTimers = false) {ticks : Nat} (h : m.Ahead ticks m') :
    ∃ ps : List Progress,
      (s.drive m' (slices durations)).outcomes = ps.map .ok ∧
        ps.map Progress.steps = (s.cpu.advanceAll durations).1 ∧
        (s.drive m' (slices durations)).executed = instructions ∧
        (s.drive m' (slices durations)).scheduler =
          ⟨(s.cpu.advanceAll durations).2, (s.timers.advanceAll durations).2,
            (s.frames.advanceAll durations).2⟩ ∧
        m₁.Ahead (ticks + (s.timers.advanceAll durations).1.sum)
          (s.drive m' (slices durations)).machine := by
  induction durations generalizing s m m' instructions ticks with
  | nil =>
    obtain rfl := List.length_eq_zero_iff.1 hlength
    cases hsteps
    exact ⟨[], rfl, rfl, rfl, rfl, h⟩
  | cons elapsed rest ih =>
    rw [Ticker.advanceAll_cons, List.sum_cons] at hlength
    -- The instructions of the first slice come first, then those of the rest.
    obtain ⟨first, later, rfl, hfirst, hlater⟩ :
        ∃ first later, instructions = first ++ later ∧
          first.length = (s.cpu.advance elapsed).1 ∧
          later.length = ((s.cpu.advance elapsed).2.advanceAll rest).1.sum :=
      ⟨instructions.take (s.cpu.advance elapsed).1, instructions.drop (s.cpu.advance elapsed).1,
        (List.take_append_drop _ _).symm, by rw [List.length_take]; omega,
        by rw [List.length_drop]; omega⟩
    obtain ⟨m₂, hbefore, hbehind⟩ := hsteps.of_append
    obtain ⟨m₂', hsteps', hahead⟩ :=
      hbefore.ahead (fun i hmem => hfree i (List.mem_append_left _ hmem)) h
    obtain ⟨hadvance, hexecuted⟩ := advance_of_steps hsteps' hfirst
    let p : Progress := ⟨(s.cpu.advance elapsed).1, (s.timers.advance elapsed).1,
      (s.frames.advance elapsed).1, false⟩
    let s' : Scheduler :=
      ⟨(s.cpu.advance elapsed).2, (s.timers.advance elapsed).2, (s.frames.advance elapsed).2⟩
    let later' := s'.drive (m₂'.decay p.timerTicks) (slices rest)
    have hdrive : s.drive m' (slices (elapsed :: rest)) =
        { later' with outcomes := .ok p :: later'.outcomes, executed := first ++ later'.executed } := by
      have hkeys : m'.handleAll [] = m' := rfl
      simp only [slices, List.map_cons, drive, hkeys, hadvance, hexecuted]
      rfl
    obtain ⟨ps, houtcomes, hcounts, hrest, hscheduler, hlast⟩ :=
      ih (s := s') hbehind hlater (fun i hmem => hfree i (List.mem_append_right _ hmem))
        (hahead.decay p.timerTicks)
    rw [hdrive]
    refine ⟨p :: ps, congrArg _ houtcomes, congrArg _ hcounts, congrArg _ hrest, hscheduler, ?_⟩
    rw [Ticker.advanceAll_cons, List.sum_cons, ← Nat.add_assoc]
    exact hlast

/-- No ticker owes a whole period, as it is with a new scheduler and after every advance in
    which none of them is late. -/
def Settled (s : Scheduler) : Prop :=
  s.cpu.owed < s.cpu.period ∧ s.timers.owed < s.timers.period ∧ s.frames.owed < s.frames.period

/-- Once a time has passed, no ticker owes as many periods as it counts at most. -/
def OnTime (s : Scheduler) (elapsed : Nat) : Prop :=
  (s.cpu.owed + elapsed) / s.cpu.period < Ticker.maxTicks ∧
    (s.timers.owed + elapsed) / s.timers.period < Ticker.maxTicks ∧
    (s.frames.owed + elapsed) / s.frames.period < Ticker.maxTicks

theorem settled_ofClock (clock : Nat) : (ofClock clock).Settled :=
  ⟨Ticker.period_pos _, Ticker.period_pos _, Ticker.period_pos _⟩

/-- An advance that is on time settles the scheduler, whatever came of it. -/
theorem Settled.advance {s : Scheduler} (h : s.Settled) {elapsed : Nat} (hontime : s.OnTime elapsed)
    (m : Machine) : (s.advance elapsed m).scheduler.Settled := by
  obtain ⟨hcpu, htimers, hframes⟩ := hontime
  -- After a fault the other two tickers were not asked.
  rcases s.advance_cases elapsed m with ⟨cause, -, hadvance⟩ | ⟨-, hadvance⟩ | ⟨-, hadvance⟩
  · rw [hadvance]
    exact ⟨Ticker.owed_advance_lt hcpu, h.2⟩
  · rw [hadvance]
    exact ⟨Ticker.owed_advance_lt hcpu, Ticker.owed_advance_lt htimers,
      Ticker.owed_advance_lt hframes⟩
  · rw [hadvance]
    exact ⟨Ticker.period_pos _, Ticker.owed_advance_lt htimers, Ticker.owed_advance_lt hframes⟩

/-- Let all instructions that come due in a time be executed when it passes in one piece, and
    let none of them use the timers.  Then the time can as well pass in slices.  All slices
    succeed, and they end with the same tickers and with the same machine, up to the states
    that it can be rewound to; and in all they make the same progress.

    That the time passes in no slice at all, so that nothing is asked of the scheduler, is
    only the same if none of its tickers owes a whole period to begin with. -/
theorem drive_slices {s : Scheduler} {m : Machine} (durations : List Nat)
    (hstart : durations = [] → s.Settled) (hontime : s.OnTime durations.sum)
    (hrun : (m.run (s.cpu.advance durations.sum).1).stop = .limit)
    (hfree : ∀ i ∈ m.executed (s.cpu.advance durations.sum).1, i.usesTimers = false) :
    let whole := s.advance durations.sum m
    let sliced := s.drive m (slices durations)
    ∃ (p : Progress) (ps : List Progress),
      whole.outcome = .ok p ∧ sliced.outcomes = ps.map .ok ∧
        sliced.scheduler = whole.scheduler ∧
        sliced.machine = { whole.machine with history := sliced.machine.history } ∧
        (ps.map Progress.steps).sum = p.steps ∧
        (ps.map Progress.timerTicks).sum = p.timerTicks ∧
        (ps.map Progress.frames).sum = p.frames ∧
        sliced.executed = m.executed (s.cpu.advance durations.sum).1 := by
  intro whole sliced
  obtain ⟨hcpu, htimers, hframes⟩ := hontime
  obtain ⟨hcpuTicks, hcpuEnd⟩ :=
    Ticker.advanceAll_eq_advance (fun hnil => (hstart hnil).1) hcpu
  obtain ⟨htimersTicks, htimersEnd⟩ :=
    Ticker.advanceAll_eq_advance (fun hnil => (hstart hnil).2.1) htimers
  obtain ⟨hframesTicks, hframesEnd⟩ :=
    Ticker.advanceAll_eq_advance (fun hnil => (hstart hnil).2.2) hframes
  obtain ⟨hsteps, hlength⟩ := Machine.steps_of_runFrom hrun
  obtain ⟨hwhole, -⟩ := advance_of_steps hsteps hlength
  obtain ⟨ps, houtcomes, hcounts, hexecuted, hscheduler, hahead⟩ :=
    drive_of_steps hsteps (hlength.trans hcpuTicks.symm) hfree (.refl m)
  -- What the timers and the frames count does not hang on the instructions.
  obtain ⟨hticks, hdue⟩ := ticks_drive houtcomes
  have hdurations : (slices durations).map Interval.elapsed = durations := by
    simp [slices, Function.comp_def]
  rw [hdurations] at hticks hdue
  refine ⟨_, ps, congrArg Advance.outcome hwhole, houtcomes, ?_, ?_, ?_, ?_, ?_, hexecuted⟩
  · rw [hscheduler, hcpuEnd, htimersEnd, hframesEnd]
    exact (congrArg Advance.scheduler hwhole).symm
  · rw [Nat.zero_add, htimersTicks] at hahead
    have hmachine : whole.machine = _ := congrArg Advance.machine hwhole
    rw [hmachine]
    exact hahead
  · rw [hcounts, hcpuTicks]
  · rw [hticks, htimersTicks]
  · rw [hdue, hframesTicks]

/-- Fifty milliseconds in four slices of different lengths, on a machine that draws random
    numbers in a loop while its delay timer runs down. -/
theorem drive_slices_of_random_loop :
    let loaded := ((Machine.new (.counter 0 1)).load [0xC1, 0xFF, 0x12, 0x00]).2
    let m := { loaded with state := { loaded.state with timers := ⟨9, 2⟩ } }
    let durations := [7000000, 0, 29000001, 13999999]
    let whole := (ofClock 100).advance durations.sum m
    let sliced := (ofClock 100).drive m (slices durations)
    durations.sum = 50000000 ∧ whole.outcome = .ok ⟨5, 3, 3, false⟩ ∧
      sliced.outcomes =
        [.ok ⟨0, 0, 0, false⟩, .ok ⟨0, 0, 0, false⟩, .ok ⟨3, 2, 2, false⟩,
          .ok ⟨2, 1, 1, false⟩] ∧
      sliced.machine.state = whole.machine.state ∧ sliced.machine.state.timers = ⟨6, 0⟩ := by
  intro loaded m durations whole sliced
  have hontime : (ofClock 100).OnTime durations.sum := by
    unfold OnTime
    decide +kernel
  obtain ⟨hrun, hfree, houtcome, houtcomes, htimers⟩ :
      (m.run ((ofClock 100).cpu.advance durations.sum).1).stop = .limit ∧
        (∀ i ∈ m.executed ((ofClock 100).cpu.advance durations.sum).1, i.usesTimers = false) ∧
        whole.outcome = .ok ⟨5, 3, 3, false⟩ ∧
        sliced.outcomes =
          [.ok ⟨0, 0, 0, false⟩, .ok ⟨0, 0, 0, false⟩, .ok ⟨3, 2, 2, false⟩,
            .ok ⟨2, 1, 1, false⟩] ∧
        sliced.machine.state.timers = ⟨6, 0⟩ := by decide +kernel
  obtain ⟨_, _, -, -, -, hmachine, -⟩ :=
    drive_slices durations (fun _ => settled_ofClock 100) hontime hrun hfree
  have hstate := congrArg Machine.state hmachine
  exact ⟨rfl, houtcome, houtcomes, hstate, htimers⟩

end Scheduler

end Chip8
