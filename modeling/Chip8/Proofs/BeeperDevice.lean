import Chip8.Console.Course
import Chip8.Console.Beeper

/-!
# The beeper and the sound timer

A session that plays asks its beeper to sound for as long as the sound timer runs.  One that goes
back, rests or makes a single step asks it to be silent, and so does every session at a fault.  The
beeper calls its audio device only when the device has to change.

A beeper knows what its device does (`Beeper.playing_calls`), whatever it is asked, and the last
request of every round fits how the round has ended (`Round.soundRequests_signals`).  So the device
plays after a round exactly if the program has been running and its sound timer has not run out.

## Key results

- `Beeper.playing_calls`: the device does what the beeper takes it to do
- `Beeper.calls_alternate`: no call is made twice in a row
- `Round.soundRequests_signals`: the last request of a round
- `playingAfter_deviceCalls`: whether the device plays after a round
- `beeper_follows_sound_timer`: when the device plays in the course of a session
-/

namespace Chip8

/-- What a signal asks of the beeper. -/
def Signal.sound? : Signal → Option Bool
  | .sound on => some on
  | .display _ => none

namespace Console

/-- What signals ask of the beeper, in order. -/
def soundRequests (signals : List Signal) : List Bool := signals.filterMap Signal.sound?

theorem soundRequests_append (signals more : List Signal) :
    soundRequests (signals ++ more) = soundRequests signals ++ soundRequests more :=
  List.filterMap_append

/-- Whether a device plays when it was called. -/
def DeviceCall.plays : DeviceCall → Bool
  | .resume => true
  | .pause => false

theorem DeviceCall.eq_of_plays {call : DeviceCall} {on : Bool} (h : call.plays = on) :
    call = if on then .resume else .pause := by
  subst h
  cases call <;> rfl

/-- Whether a device that plays or not does so after calls. -/
def playingAfter (playing : Bool) (calls : List DeviceCall) : Bool :=
  calls.foldl (fun _ call => call.plays) playing

/-! ## Beepers -/

namespace Beeper

/-- The beeper after requests. -/
def turnAll (b : Beeper) (requests : List Bool) : Beeper :=
  requests.foldl (fun b on => (b.turn on).1) b

/-- A request that changes nothing calls no device; any other calls it, and does so as asked. -/
theorem turn_cases (b : Beeper) (on : Bool) :
    on = b.sounding ∧ b.turn on = (b, none) ∨
      on = (!b.sounding) ∧ ∃ call, call.plays = on ∧ b.turn on = (⟨on⟩, some call) := by
  unfold turn
  split
  case isTrue hsame => exact .inl ⟨hsame.symm, rfl⟩
  case isFalse hother =>
    refine .inr ⟨Bool.eq_not.2 (Ne.symm hother), _, ?_, rfl⟩
    cases on <;> rfl

/-- A beeper does what it is asked. -/
theorem sounding_turn (b : Beeper) (on : Bool) : (b.turn on).1.sounding = on := by
  obtain ⟨hsame, hturn⟩ | ⟨-, call, -, hturn⟩ := b.turn_cases on
  · rw [hturn, hsame]
  · rw [hturn]

/-- A beeper does what it was asked last. -/
theorem sounding_turnAll_append_singleton (b : Beeper) (requests : List Bool) (on : Bool) :
    (b.turnAll (requests ++ [on])).sounding = on := by
  rw [turnAll, List.foldl_append]
  exact sounding_turn _ on

/-- The device does what the beeper takes it to do. -/
theorem playing_calls (b : Beeper) (requests : List Bool) :
    playingAfter b.sounding (b.calls requests) = (b.turnAll requests).sounding := by
  induction requests generalizing b with
  | nil => rfl
  | cons on rest ih =>
    obtain ⟨-, hturn⟩ | ⟨-, call, hplays, hturn⟩ := b.turn_cases on
    · simp only [calls, turnAll, List.foldl_cons, hturn]
      exact ih b
    · -- The device was called because it was not doing this.
      simp only [calls, turnAll, List.foldl_cons, hturn]
      show playingAfter call.plays (calls ⟨on⟩ rest) = _
      rw [hplays]
      exact ih ⟨on⟩

/-- The calls for requests that come one after the other. -/
theorem calls_append (b : Beeper) (requests more : List Bool) :
    b.calls (requests ++ more) = b.calls requests ++ (b.turnAll requests).calls more := by
  induction requests generalizing b with
  | nil => rfl
  | cons on rest ih =>
    simp only [List.cons_append, calls, ih, List.append_assoc]
    rfl

/-- The calls alternate, from the one that changes the device. -/
theorem calls_alternate (b : Beeper) (requests : List Bool) (n : Nat) {call : DeviceCall}
    (h : (b.calls requests)[n]? = some call) :
    call.plays = if n % 2 = 0 then !b.sounding else b.sounding := by
  induction requests generalizing b n with
  | nil => exact nomatch h
  | cons on rest ih =>
    obtain ⟨-, hturn⟩ | ⟨hother, first, hplays, hturn⟩ := b.turn_cases on
    · simp only [calls, hturn] at h
      exact ih b n h
    · simp only [calls, hturn] at h
      cases n with
      | zero =>
        obtain rfl := Option.some.inj h
        rw [hplays]
        exact hother
      | succ n =>
        -- The calls after the first one are those of a beeper that has changed.
        have hlater := ih ⟨on⟩ n h
        rw [hlater, hother]
        rcases Nat.mod_two_eq_zero_or_one n with hn | hn
        · simp [hn, Nat.add_mod]
        · simp [hn, Nat.add_mod]

end Beeper

/-! ## Rounds of a session -/

/-- A program that runs asks for sound if its sound timer runs, and for nothing at a fault. -/
theorem Session.soundRequests_play (s : Session) (elapsed : Nat) :
    soundRequests (s.play elapsed).signals =
      match (s.play elapsed).outcome with
      | .ok () => [(s.play elapsed).session.machine.soundActive]
      | .error _ => [] := by
  unfold play Scheduler.frame Scheduler.signals
  simp only
  generalize s.scheduler.advance _ _ = result
  obtain ⟨outcome, scheduler, machine⟩ := result
  cases outcome with
  | error cause => rfl
  | ok progress =>
    by_cases hframes : 0 < progress.frames
    · simp only [hframes, if_true]
      rfl
    · simp only [hframes, if_false]
      rfl

private theorem isOk_iff {outcome : Except Fault Unit} :
    outcome.isOk = true ↔ outcome = .ok () := by
  cases outcome <;> simp [Except.isOk, Except.toBool]

/-- Whether the program has been running, without a fault, and the sound timer runs. -/
def Round.sounds (r : Round) : Bool :=
  r.activity = .playing && r.result.outcome.isOk && r.result.session.machine.soundActive

/-- The last request of a round fits how the round has ended. -/
theorem Round.soundRequests_signals (r : Round) :
    ∃ requests, soundRequests r.result.signals = requests ++ [r.sounds] := by
  have hresult := r.result_eq
  unfold sounds
  cases hactivity : r.activity with
  | rewinding =>
    rw [hresult, hactivity]
    exact ⟨[], rfl⟩
  | resting =>
    rw [hresult, hactivity]
    exact ⟨[], rfl⟩
  | stepping =>
    rw [hresult, hactivity]
    -- Whether the step is at fault or not, there is no sound.
    simp only [Session.singleStep]
    cases (r.informed.machine.updateKeys r.informed.panel.poll.1).singleStep.1 with
    | ok done => exact ⟨[], rfl⟩
    | error cause => exact ⟨[false], rfl⟩
  | playing =>
    rw [hresult, hactivity]
    have hplay := r.informed.soundRequests_play r.elapsed
    simp only
    generalize r.informed.play r.elapsed = turn at hplay
    -- After a fault the program has asked for nothing, and silence is asked for in its place.
    refine ⟨[], ?_⟩
    obtain ⟨cause | done, session, signals⟩ := turn
    all_goals
      rw [soundRequests_append, hplay]
      rfl

/-- What the device of a beeper that is silent at first receives in the course of rounds. -/
def deviceCalls (rounds : List Round) : List DeviceCall :=
  Beeper.calls {} (soundRequests (rounds.flatMap fun r => r.result.signals))

/-- The device has received its calls so far, and may receive more. -/
theorem deviceCalls_append (rounds more : List Round) :
    deviceCalls rounds <+: deviceCalls (rounds ++ more) := by
  rw [deviceCalls, deviceCalls, List.flatMap_append, soundRequests_append, Beeper.calls_append]
  exact List.prefix_append _ _

/-- After a round the device plays exactly if the round sounds. -/
theorem playingAfter_deviceCalls (earlier : List Round) (r : Round) :
    playingAfter false (deviceCalls (earlier ++ [r])) = r.sounds := by
  obtain ⟨requests, hrequests⟩ := r.soundRequests_signals
  -- Of all that was asked for, the last request is that of this round.
  have hmirror := Beeper.playing_calls {} (soundRequests
    ((earlier ++ [r]).flatMap fun r => r.result.signals))
  rw [deviceCalls]
  refine hmirror.trans ?_
  rw [List.flatMap_append, List.flatMap_singleton, soundRequests_append, hrequests,
    ← List.append_assoc, Beeper.sounding_turnAll_append_singleton]

theorem Round.sounds_iff (r : Round) :
    r.sounds = true ↔ r.activity = .playing ∧ r.result.outcome = .ok () ∧
      r.result.session.machine.state.timers.sound ≠ 0 := by
  simp only [sounds, Machine.soundActive, Bool.and_eq_true, decide_eq_true_eq, isOk_iff,
    and_assoc, UInt8.pos_iff_ne_zero]

/-- The device of a beeper that is silent at first, in the course of any session: after a round it
    plays exactly if the program has been running in the round, was not at fault, and its sound
    timer has not run out.  So it is silent when the session was paused or went back, or when the
    program was at fault.  The calls of the device alternate, and the first one makes it play. -/
theorem beeper_follows_sound_timer (s : Session) (input : List (List Event × Nat)) :
    Beeper.calls {} (soundRequests (s.run input).signals) = deviceCalls (s.course input) ∧
      (∀ earlier r later, s.course input = earlier ++ r :: later →
        deviceCalls (earlier ++ [r]) <+: deviceCalls (s.course input) ∧
          (playingAfter false (deviceCalls (earlier ++ [r])) = true ↔
            r.activity = .playing ∧ r.result.outcome = .ok () ∧
              r.result.session.machine.state.timers.sound ≠ 0) ∧
          (r.activity ≠ .playing ∨ r.result.outcome ≠ .ok () →
            playingAfter false (deviceCalls (earlier ++ [r])) = false)) ∧
      ∀ n call, (deviceCalls (s.course input))[n]? = some call →
        call = if n % 2 = 0 then .resume else .pause := by
  refine ⟨?_, fun earlier r later hcourse => ⟨?_, ?_, fun hother => ?_⟩, fun n call hcall => ?_⟩
  · show Beeper.calls {} (soundRequests (s.turns input).signals) = _
    rw [s.turns_eq]
    rfl
  · rw [hcourse, List.append_cons earlier r later]
    exact deviceCalls_append _ _
  · rw [playingAfter_deviceCalls]
    exact r.sounds_iff
  · rw [playingAfter_deviceCalls, Bool.eq_false_iff]
    intro hsounds
    obtain ⟨hplaying, hok, -⟩ := r.sounds_iff.1 hsounds
    exact hother.elim (absurd hplaying) (absurd hok)
  · have hplays := Beeper.calls_alternate {} _ n hcall
    split at hplays
    case isTrue heven => rw [if_pos heven, DeviceCall.eq_of_plays hplays]; rfl
    case isFalse hodd => rw [if_neg hodd, DeviceCall.eq_of_plays hplays]; rfl

/-- A program sets its sound timer and goes on; then the session is paused. -/
theorem beeper_follows_sound_timer_of_pause :
    ∃ playing paused,
      (Session.new ((Machine.new (.counter 0 1)).load [0x60, 0x05, 0xF0, 0x18, 0x12, 0x04]).2
          500 false).course
          [([], 20000000), ([.down (some (.letter 'P')) false], 20000000)] = [playing, paused] ∧
        playingAfter false (deviceCalls [playing]) = true ∧
        playingAfter false (deviceCalls [playing, paused]) = false := by
  let playing : Round :=
    ⟨Session.new ((Machine.new (.counter 0 1)).load [0x60, 0x05, 0xF0, 0x18, 0x12, 0x04]).2
      500 false, [], 20000000⟩
  let paused : Round := ⟨playing.result.session, [.down (some (.letter 'P')) false], 20000000⟩
  obtain ⟨hdone, hsound, hrunning, hactivity⟩ :
      playing.result.outcome.isOk = true ∧
        playing.result.session.machine.state.timers.sound ≠ 0 ∧
        playing.result.session.panel.controls.quit = false ∧ paused.activity = .resting := by
    decide +kernel
  have hok := isOk_iff.1 hdone
  have hcourse : playing.session.course
      [([], 20000000), ([.down (some (.letter 'P')) false], 20000000)] = [playing, paused] := by
    rw [Session.course_cons rfl hok, Session.course_singleton hrunning]
  obtain ⟨-, hround, -⟩ := beeper_follows_sound_timer playing.session
    [([], 20000000), ([.down (some (.letter 'P')) false], 20000000)]
  refine ⟨playing, paused, hcourse, ?_, ?_⟩
  · exact (hround [] playing [paused] hcourse).2.1.2 ⟨by decide +kernel, hok, hsound⟩
  · exact (hround [playing] paused [] hcourse).2.2 (.inl (by rw [hactivity]; decide))

end Console

end Chip8
