import Chip8.Proofs.CallReturn
import Chip8.Proofs.ClockworkTime
import Chip8.Proofs.KeyDelivery

/-!
# A stalled key wait

A program that waits for a key is stalled until one goes down.  Steps, ticks of the timers, time
that a clockwork lets pass and keys that go up are then all the same to it: they change what the
timers show and which keys are held, and nothing else.  As soon as keys go down, the wait is over
with the next step, and the latest of them is the one that the program is told of.

A wait can be long, and each duration is added to what a clock owes.  A clockwork that has no room
for the sum stops in the middle of a wait, and that is the only thing that can end one without a
key.

## Key results

- `Machine.Stalled.step`, `Machine.Stalled.advance`: a step and an advance of a stalled machine
- `Machine.Stalled.advance?_eq_none_iff`: where a clockwork stops during a wait
- `Machine.handle_of_pressedKeys_eq_nil`: what happens at the keypad when no key goes down
- `Clockwork.exists_serve?`, `Clockwork.stalled_of_serve?`: quiet requests during a wait
- `Machine.Stalled.resume`: the step after a key went down
- `Clockwork.stalls_until_press`: the whole of a wait
-/

namespace Chip8

/-! ## Requests -/

/-- Something that is asked of a machine, or of the clockwork that drives it. -/
inductive Request where
  | perform (op : Operation)
  | advance (elapsed : Duration)

namespace Request

/-- Whether a request can be made of a machine without a key going down in it: a step, a tick of
    the timers, something else at the keypad, or time that passes. -/
def Quiet : Request → Prop
  | .perform .step => True
  | .perform .decay => True
  | .perform (.key event) => event.pressedKeys = []
  | .perform _ => False
  | .advance _ => True

/-- How many nanoseconds pass with a request. -/
def nanos : Request → Nat
  | .perform _ => 0
  | .advance elapsed => elapsed.toNanos

/-- How many nanoseconds pass with several requests. -/
def total (requests : List Request) : Nat := (requests.map nanos).sum

@[simp] theorem total_cons (request : Request) (rest : List Request) :
    total (request :: rest) = request.nanos + total rest := by
  rw [total, List.map_cons, List.sum_cons, total]

end Request

/-- The clockwork and the machine after requests one after the other, if no clock runs out of
    room. -/
def Clockwork.serve? (c : Clockwork) (m : Machine) : List Request → Option (Clockwork × Machine)
  | [] => some (c, m)
  | .perform op :: rest => c.serve? (m.perform op) rest
  | .advance elapsed :: rest => do
    let a ← c.advance? elapsed m
    a.clockwork.serve? a.machine rest

/-! ## Stalled machines -/

/-- The instruction at the program counter waits for a key, and no key is pending. -/
structure Machine.Stalled (m : Machine) (x : Register) : Prop where
  fetch : m.state.fetch = .ok (.single .waitKey x)
  pending : m.state.keys.pending = []

/-- A machine whose timers show something else and whose held keys are others. -/
def Machine.withIdle (m : Machine) (timers : Timers) (held : HeldKeys) : Machine :=
  { m with state := { m.state with timers, keys := { m.state.keys with held } } }

section
variable {m : Machine} {x : Register}

namespace Machine

/-- Neither timers nor held keys are what a key wait waits for. -/
theorem Stalled.withIdle (h : m.Stalled x) (timers : Timers) (held : HeldKeys) :
    (m.withIdle timers held).Stalled x :=
  ⟨h.fetch, h.pending⟩

theorem Stalled.step (h : m.Stalled x) : m.step = (.ok .awaitingKey, m) :=
  step_of_pending_nil h.fetch h.pending

/-- However many steps are due, none is made. -/
theorem Stalled.run (h : m.Stalled x) (limit : Nat) :
    (m.run limit).steps = 0 ∧ (m.run limit).machine = m ∧
      ∀ cause, (m.run limit).stop ≠ .fault cause := by
  cases limit with
  | zero =>
    refine ⟨rfl, rfl, fun cause hstop => ?_⟩
    cases hstop
  | succ limit =>
    rw [Machine.run, runFrom, h.step]
    refine ⟨rfl, rfl, fun cause hstop => ?_⟩
    cases hstop

/-- While time passes only the timers of a stalled machine move. -/
theorem Stalled.advance (h : m.Stalled x) (s : Scheduler) (elapsed : Nat) :
    ∃ p, (s.advance elapsed m).outcome = .ok p ∧ p.steps = 0 ∧
      (s.advance elapsed m).machine = m.decay p.timerTicks := by
  obtain ⟨hsteps, hmachine, hnofault⟩ := h.run (s.cpu.advance elapsed).1
  have hok : ∃ p, (s.advance elapsed m).outcome = .ok p ∧ p.steps = 0 := by
    -- A stalled machine does not fail, so only the other two ways are left.
    rcases s.advance_cases elapsed m with ⟨cause, hstop, -⟩ | ⟨-, hadvance⟩ | ⟨-, hadvance⟩
    · exact absurd hstop (hnofault cause)
    · exact ⟨_, by rw [hadvance]; rfl, hsteps⟩
    · exact ⟨_, by rw [hadvance]; rfl, hsteps⟩
  obtain ⟨p, hp, hzero⟩ := hok
  obtain ⟨-, -, hmoved⟩ := Scheduler.advance_of_ok hp
  rw [hmachine] at hmoved
  exact ⟨p, hp, hzero, hmoved⟩

/-- While a machine is stalled, an advance that has a result makes no step. -/
theorem Stalled.of_advance? (h : m.Stalled x) {c : Clockwork} {elapsed : Duration}
    {a : Clockwork.Advance} (hadvance : c.advance? elapsed m = some a) :
    ∃ p, a.outcome = .ok p ∧ p.steps = 0 ∧ a.machine = m.decay p.timerTicks := by
  obtain ⟨p, hp, hsteps, hmachine⟩ := h.advance c.toScheduler elapsed.toNanos
  rw [Clockwork.toScheduler_of_advance? hadvance] at hp hmachine
  exact ⟨p, hp, hsteps, hmachine⟩

/-- While a machine is stalled, an advance has no result exactly where a clock has no room. -/
theorem Stalled.advance?_eq_none_iff (h : m.Stalled x) {c : Clockwork} {elapsed : Duration} :
    c.advance? elapsed m = none ↔ ¬ c.Room elapsed.toNanos := by
  obtain ⟨p, hp, -⟩ := h.advance c.toScheduler elapsed.toNanos
  constructor
  · intro hnone hroom
    obtain ⟨a, hsome⟩ := Clockwork.exists_advance? hroom m
    rw [hnone] at hsome
    exact nomatch hsome
  · intro hroom
    -- There is no fault, so all three clocks are asked.
    rw [Clockwork.advance?_eq_none_iff, and_iff_right ⟨p, hp⟩, ← not_and_or]
    exact fun hall => hroom ⟨hall.1, hall.2.1, hall.2.2⟩

/-- An event in which no key goes down changes only which keys are held. -/
theorem handle_of_pressedKeys_eq_nil {event : KeyEvent} (h : event.pressedKeys = []) :
    m.handle event = m.withIdle m.state.timers (m.handle event).state.keys.held := by
  -- No key came to the front of those that are pending.
  have hpending := m.pending_handle event
  rw [h, List.foldl_nil] at hpending
  have hkeys : (m.handle event).state.keys =
      { m.state.keys with held := (m.handle event).state.keys.held } := KeyLatch.ext rfl hpending
  exact (m.handle_eq event).trans
    (congrArg (fun keys => { m with state := { m.state with keys } }) hkeys)

/-- A quiet operation leaves a stalled machine as it is, up to timers and held keys. -/
theorem Stalled.perform (h : m.Stalled x) {op : Operation} (hquiet : (Request.perform op).Quiet) :
    ∃ timers held, m.perform op = m.withIdle timers held := by
  cases op with
  | step => exact ⟨m.state.timers, m.state.keys.held, congrArg Prod.snd h.step⟩
  | decay => exact ⟨_, m.state.keys.held, rfl⟩
  | key event => exact ⟨_, _, handle_of_pressedKeys_eq_nil hquiet⟩
  | load image => exact hquiet.elim
  | rewind => exact hquiet.elim
  | limitHistory limit => exact hquiet.elim

end Machine

namespace Clockwork

/-- Where quiet requests have a result, they leave a stalled machine as it is, up to timers and
    held keys. -/
theorem stalled_of_serve? (h : m.Stalled x) {c c' : Clockwork} {m' : Machine}
    {requests : List Request} (hquiet : ∀ r ∈ requests, r.Quiet)
    (hserve : c.serve? m requests = some (c', m')) :
    ∃ timers held, m' = m.withIdle timers held := by
  induction requests generalizing c m with
  | nil =>
    cases hserve
    exact ⟨m'.state.timers, m'.state.keys.held, rfl⟩
  | cons request rest ih =>
    rw [List.forall_mem_cons] at hquiet
    -- The machine waits as before after the first request, and what differs from it in timers and
    -- held keys differs from the first one in no more.
    cases request with
    | perform op =>
      obtain ⟨timers, held, hfirst⟩ := h.perform hquiet.1
      rw [serve?, hfirst] at hserve
      obtain ⟨timers', held', hlast⟩ := ih (h.withIdle timers held) hquiet.2 hserve
      exact ⟨timers', held', hlast⟩
    | advance elapsed =>
      obtain ⟨a, hadvance, hrest⟩ := Option.bind_eq_some_iff.1 hserve
      obtain ⟨p, -, -, hfirst⟩ := h.of_advance? hadvance
      have hidle := h.withIdle (m.state.timers.decay p.timerTicks) m.state.keys.held
      rw [hfirst] at hrest
      obtain ⟨timers', held', hlast⟩ := ih hidle hquiet.2 hrest
      exact ⟨timers', held', hlast⟩

/-- With room for all of their time requests have a result, whatever they are. -/
theorem exists_serve? {c : Clockwork} {requests : List Request} (m : Machine)
    (hroom : c.Room (Request.total requests)) : ∃ c' m', c.serve? m requests = some (c', m') := by
  induction requests generalizing c m with
  | nil => exact ⟨c, m, rfl⟩
  | cons request rest ih =>
    -- The first request takes its part of the room and leaves enough for the rest.
    rw [Request.total_cons] at hroom
    cases request with
    | perform op => exact ih (m.perform op) (hroom.mono (Nat.le_add_left _ _))
    | advance elapsed =>
      obtain ⟨a, hadvance⟩ := exists_advance? (hroom.mono (Nat.le_add_right _ _)) m
      obtain ⟨c', m', hrest⟩ := ih a.machine (hroom.advance hadvance)
      exact ⟨c', m', by rw [serve?, hadvance]; exact hrest⟩

end Clockwork

/-! ## The end of a wait -/

namespace Machine

/-- In several events each key that goes down comes to the front of the pending keys. -/
theorem pending_handleAll (m : Machine) (events : List KeyEvent) :
    (m.handleAll events).state.keys.pending =
      (events.flatMap KeyEvent.pressedKeys).foldl KeyLatch.toFront m.state.keys.pending := by
  induction events generalizing m with
  | nil => rfl
  | cons event events ih =>
    rw [List.flatMap_cons, List.foldl_append, ← pending_handle]
    exact ih (m.handle event)

/-- The key that went down last is the first one that is pending. -/
theorem exists_pending_handleAll (m : Machine) {events : List KeyEvent} {key : Key}
    (h : (events.flatMap KeyEvent.pressedKeys).getLast? = some key) :
    ∃ rest, (m.handleAll events).state.keys.pending = key :: rest := by
  obtain ⟨earlier, hkeys⟩ := List.getLast?_eq_some_iff.1 h
  rw [pending_handleAll, hkeys, List.foldl_append]
  exact ⟨_, rfl⟩

/-- Once keys went down, the next step takes the last of them into the register and goes on. -/
theorem Stalled.resume (h : m.Stalled x) {events : List KeyEvent} {key : Key}
    (hkey : (events.flatMap KeyEvent.pressedKeys).getLast? = some key) :
    let m' := m.handleAll events
    m'.step.1 = .ok (.executed (.single .waitKey x)) ∧
      m'.step.2.state.v = (m.state.setReg x key.toByte).v ∧
      m'.step.2.state.pc.toNat = m.state.pc.toNat + 2 := by
  intro m'
  have hm' : m' = { m with state := { m.state with keys := m'.state.keys } } :=
    m.handleAll_eq events
  obtain ⟨rest, hpending⟩ := m.exists_pending_handleAll hkey
  have hfetch : m'.state.fetch = .ok (.single .waitKey x) := by
    rw [hm']
    exact h.fetch
  obtain ⟨keys, -, -, hstep⟩ := step_of_pending_cons hfetch hpending
  have hexecuted : m'.step.1 = .ok (.executed (.single .waitKey x)) := by rw [hstep]
  have hpc := toNat_pc_add_two hexecuted
  refine ⟨hexecuted, ?_, ?_⟩
  · rw [hstep, hm']
    rfl
  · rw [hstep]
    refine hpc.trans ?_
    rw [hm']

end Machine

end

/-- Let the instruction at the program counter wait for a key, and none be pending, and let
    requests be made with which no key goes down.

    With room for their time they have a result.  After them, and so after each of them, a step
    still waits.  However much time passes then, nothing is executed and nothing fails, unless a
    clock has no room for it.  Up to the timers and the held keys the machine is the one from
    before.  And once keys go down, the next step executes the wait: it takes the last of them into
    the register and goes on behind the instruction. -/
theorem Clockwork.stalls_until_press {m : Machine} {x : Register}
    (hfetch : m.state.fetch = .ok (.single .waitKey x)) (hpending : m.state.keys.pending = [])
    (c : Clockwork) {requests : List Request} (hquiet : ∀ r ∈ requests, r.Quiet) :
    (c.Room (Request.total requests) → ∃ c' m', c.serve? m requests = some (c', m')) ∧
      ∀ c' m', c.serve? m requests = some (c', m') →
        m'.step = (.ok .awaitingKey, m') ∧
          (∀ elapsed,
            (c'.advance? elapsed m' = none ↔ ¬ c'.Room elapsed.toNanos) ∧
              ∀ a, c'.advance? elapsed m' = some a → ∃ p, a.outcome = .ok p ∧ p.steps = 0) ∧
          (∃ timers held, m' = m.withIdle timers held) ∧ m'.state.keys.pending = [] ∧
          ∀ events key, (events.flatMap KeyEvent.pressedKeys).getLast? = some key →
            let m'' := (m'.handleAll events).step
            m''.1 = .ok (.executed (.single .waitKey x)) ∧
              m''.2.state.v = (m.state.setReg x key.toByte).v ∧
              m''.2.state.pc.toNat = m.state.pc.toNat + 2 := by
  have h : m.Stalled x := ⟨hfetch, hpending⟩
  refine ⟨exists_serve? m, fun c' m' hserve => ?_⟩
  obtain ⟨timers, held, hm'⟩ := stalled_of_serve? h hquiet hserve
  have h' : m'.Stalled x := by
    rw [hm']
    exact h.withIdle timers held
  refine ⟨h'.step, fun elapsed => ⟨h'.advance?_eq_none_iff, fun a hadvance => ?_⟩,
    ⟨timers, held, hm'⟩, h'.pending, fun events key hkey => ?_⟩
  · obtain ⟨p, hp, hsteps, -⟩ := h'.of_advance? hadvance
    exact ⟨p, hp, hsteps⟩
  · -- The registers and the program counter have stayed.
    have hresume := h'.resume hkey
    have hv : (m'.state.setReg x key.toByte).v = (m.state.setReg x key.toByte).v := by
      rw [hm']
      rfl
    have hpc : m'.state.pc = m.state.pc := by
      rw [hm']
      rfl
    rw [hv, hpc] at hresume
    exact hresume

/-- A wait of a little more than a frame, in which a key goes up and the report of a poll names one
    that does not exist.  Then three go down, of which the last one does not exist either. -/
theorem Clockwork.stalls_until_press_of_wait :
    let m := ((Machine.new (.counter 0 1)).load [0xF3, 0x0A]).2
    let frame : Duration := ⟨0, 20000000, by decide⟩
    let requests : List Request :=
      [.perform .step, .advance frame, .perform (.key (.release 3)), .perform .decay,
        .perform (.key (.poll { held := HeldKeys.none, pressed := [77] }))]
    ∃ c' m', (ofClock 500).serve? m requests = some (c', m') ∧
      m'.step = (.ok .awaitingKey, m') ∧
      (m'.handleAll [.press 7, .press 10, .press 99]).step.2.state.v =
        #v[0, 0, 0, 10, 0, 0, 0, 0, 0, 0, 0, 0, 0, 0, 0, 0] := by
  intro m frame requests
  have hquiet : ∀ r ∈ requests, r.Quiet := by
    simp only [requests, List.forall_mem_cons]
    exact ⟨trivial, trivial, rfl, trivial, rfl, List.forall_mem_nil _⟩
  have hroom : (ofClock 500).Room (Request.total requests) := (room_ofClock _).2 (by decide)
  have hfetch : m.state.fetch = .ok (.single .waitKey 3) := by decide +kernel
  have hpending : m.state.keys.pending = [] := by decide +kernel
  obtain ⟨hexists, hall⟩ := stalls_until_press hfetch hpending (ofClock 500) hquiet
  obtain ⟨c', m', hserve⟩ := hexists hroom
  obtain ⟨hstep, -, -, -, hresume⟩ := hall c' m' hserve
  obtain ⟨-, hv, -⟩ := hresume [.press 7, .press 10, .press 99] 10 (by decide)
  refine ⟨c', m', hserve, hstep, ?_⟩
  rw [hv]
  decide +kernel

/-- A wait in which a nanosecond passes, and then the longest duration.  Each of them can pass
    alone, but the clocks have no room for the second one after the first. -/
theorem Clockwork.longest_wait_has_no_result :
    let m := ((Machine.new (.counter 0 0)).load [0xF0, 0x0A]).2
    let nanosecond : Request := .advance ⟨0, 1, by decide⟩
    let longest : Request := .advance ⟨18446744073709551615, 999999999, by decide⟩
    m.state.fetch = .ok (.single .waitKey 0) ∧ m.state.keys.pending = [] ∧
      (∀ r ∈ [nanosecond, longest], r.Quiet) ∧
      ((ofClock 500).serve? m [nanosecond]).isSome ∧ ((ofClock 500).serve? m [longest]).isSome ∧
      (ofClock 500).serve? m [nanosecond, longest] = none := by
  intro m nanosecond longest
  have hquiet : ∀ r ∈ [nanosecond, longest], r.Quiet := by
    simp only [nanosecond, longest, List.forall_mem_cons]
    exact ⟨trivial, trivial, List.forall_mem_nil _⟩
  have hnone : ((ofClock 500).serve? m [nanosecond, longest]).isNone := by decide +kernel
  exact ⟨by decide +kernel, by decide +kernel, hquiet, by decide +kernel, by decide +kernel,
    Option.isNone_iff_eq_none.1 hnone⟩

end Chip8
