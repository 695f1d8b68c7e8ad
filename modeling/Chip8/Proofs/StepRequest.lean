import Chip8.Console.Course

/-!
# Requests for single steps

Somebody who has paused a session asks for single steps with the step key.  This file keeps a record
of a session, in which every event is entered when it is handled and every single step when it is
made, and compares to it what a paused turn does.

A request stands from when the step key goes down until a step is made, paused or not.  So a request
that was made before the pause, or in an earlier one, is met as soon as the session is paused.  If
the step key goes down in pauses only, and each request is met before its pause ends, a step is
always one that was asked for in the present pause.

## Key results

- `Event.control?_eq_down_iff`: which key works a control
- `Panel.step_handle`, `Panel.paused_handle`: what an event does to a request and to the pause
- `requested_append_singleton`: whether a request stands, entry by entry
- `Round.controls_result`: what a round does to the controls
- `Records.round`: the controls agree with the record
- `Requested.inPause`: a request that was made in the pause that it is met in
- `single_step_iff_requested`: when a paused turn makes a step
- `single_step_of_earlier_request`: a request that was not made in the pause
-/

namespace Chip8.Console

/-! ## Control keys -/

namespace Event

/-- The step key goes down. -/
def stepKeyDown : Event := .down (some (.letter 'N')) false

/-- The pause key goes down. -/
def pauseKeyDown : Event := .down (some (.letter 'P')) false

/-- The control that is worked in an event, and whether its key goes down.  Closing the window is
    like the key for it. -/
def control? : Event → Option (Control × Bool)
  | .quit => some (.quit, true)
  | .down (some key) false => key.control?.map (·, true)
  | .up (some key) => key.control?.map (·, false)
  | _ => none

end Event

namespace KeyboardKey

/-- No key stands for one of the keypad and for a control. -/
theorem control?_of_keypad? {key : KeyboardKey} {k : Key} (h : key.keypad? = some k) :
    key.control? = none := by
  unfold keypad? at h
  -- The letters and digits of the keypad are no controls, and every other key is not on it.
  split at h <;> simp_all [control?]

/-- The key for a control. -/
def ofControl : Control → KeyboardKey
  | .fastForward => .space
  | .rewind => .backspace
  | .pause => .letter 'P'
  | .step => .letter 'N'
  | .quit => .escape

theorem control?_eq_some_iff {key : KeyboardKey} {control : Control} :
    key.control? = some control ↔ key = ofControl control := by
  constructor
  · intro h
    unfold control? at h
    split at h
    case h_6 => cases h
    all_goals
      obtain rfl := Option.some.inj h
      rfl
  · rintro rfl
    cases control <;> rfl

end KeyboardKey

namespace Event

/-- Except for closing the window, a control is worked with its key only. -/
theorem control?_eq_down_iff {event : Event} {control : Control} (hquit : control ≠ .quit) :
    event.control? = some (control, true) ↔ event = .down (some (.ofControl control)) false := by
  match event with
  | .down (some key) false => simp [control?, KeyboardKey.control?_eq_some_iff]
  | .quit => simpa [control?] using hquit.symm
  | .other | .down none _ | .up none | .down (some _) true | .up (some _) => simp [control?]

theorem control?_eq_step_iff {event : Event} :
    event.control? = some (.step, true) ↔ event = stepKeyDown :=
  control?_eq_down_iff (by decide)

theorem control?_eq_pause_iff {event : Event} :
    event.control? = some (.pause, true) ↔ event = pauseKeyDown :=
  control?_eq_down_iff (by decide)

end Event

namespace Panel

/-- The controls take in what concerns them, and nothing else. -/
theorem controls_handle (p : Panel) (event : Event) :
    (p.handle event).controls =
      match event.control? with
      | some (control, isDown) => p.controls.handle control isDown
      | none => p.controls := by
  have hkey : ∀ (key : KeyboardKey) (isDown : Bool), (p.handleKey key isDown).controls =
      match key.control?.map (·, isDown) with
      | some (control, isDown) => p.controls.handle control isDown
      | none => p.controls := by
    intro key isDown
    unfold handleKey
    -- What is on the keypad is no control, so a key is one or the other.
    cases hkeypad : key.keypad? with
    | some k => rw [KeyboardKey.control?_of_keypad? hkeypad]; rfl
    | none => cases key.control? <;> rfl
  match event with
  | .quit | .other | .down none _ | .up none | .down (some _) true => rfl
  | .down (some key) false => exact hkey key true
  | .up (some key) => exact hkey key false

/-- A step is asked for from when the step key goes down. -/
theorem step_handle (p : Panel) (event : Event) :
    (p.handle event).controls.step = true ↔ event = .stepKeyDown ∨ p.controls.step = true := by
  rw [controls_handle, ← Event.control?_eq_step_iff]
  rcases event.control? with _ | ⟨_ | _ | _ | _ | _, _ | _⟩ <;> simp [Controls.handle]

/-- The pause key turns the pause on and off when it goes down. -/
theorem paused_handle (p : Panel) (event : Event) :
    (p.handle event).controls.paused =
      if event = .pauseKeyDown then !p.controls.paused else p.controls.paused := by
  rw [controls_handle]
  simp only [← Event.control?_eq_pause_iff]
  rcases event.control? with _ | ⟨_ | _ | _ | _ | _, _ | _⟩ <;> simp [Controls.handle]

end Panel

/-! ## Records of a session -/

/-- What is entered in the record of a session. -/
inductive Happening where
  | handled (event : Event)
  /-- A single step was made. -/
  | stepped
  deriving DecidableEq

/-- What happens in a round: its events are handled, and then a single step may be made. -/
def Round.happenings (r : Round) : List Happening :=
  r.events.map .handled ++ if r.activity = .stepping then [.stepped] else []

/-- What has happened when a round has handled its events, after the rounds before it. -/
def Round.past (r : Round) (earlier : List Round) : List Happening :=
  earlier.flatMap Round.happenings ++ r.events.map .handled

/-- Whether a session is paused after what has happened, when it began paused or not. -/
def pausedAfter (paused : Bool) (past : List Happening) : Bool :=
  past.foldl (fun paused h => if h = .handled .pauseKeyDown then !paused else paused) paused

/-- The step key has gone down, and no step has been made since. -/
def Requested (past : List Happening) : Prop :=
  ∃ before after, past = before ++ .handled .stepKeyDown :: after ∧ .stepped ∉ after

/-- The step key has gone down while the session was paused, which it has been ever since, and no
    step has been made since. -/
def RequestedInPause (paused : Bool) (past : List Happening) : Prop :=
  ∃ before after, past = before ++ .handled .stepKeyDown :: after ∧ .stepped ∉ after ∧
    pausedAfter paused before = true ∧ .handled .pauseKeyDown ∉ after

/-- The step key goes down only while the session is paused, and the pause does not end between a
    request and its step. -/
def RequestsInPause (paused : Bool) (past : List Happening) : Prop :=
  ∀ before after, past = before ++ .handled .stepKeyDown :: after →
    pausedAfter paused before = true ∧
      ∀ between rest, after = between ++ .handled .pauseKeyDown :: rest → .stepped ∈ between

theorem pausedAfter_append_singleton (paused : Bool) (past : List Happening) (h : Happening) :
    pausedAfter paused (past ++ [h]) =
      if h = .handled .pauseKeyDown then !pausedAfter paused past else pausedAfter paused past := by
  rw [pausedAfter, List.foldl_append]
  rfl

theorem requested_append_singleton {past : List Happening} {h : Happening} :
    Requested (past ++ [h]) ↔ h = .handled .stepKeyDown ∨ h ≠ .stepped ∧ Requested past := by
  constructor
  · rintro ⟨before, after, heq, hafter⟩
    -- The request is the last entry, or the last entry comes after it.
    rcases List.eq_nil_or_concat after with rfl | ⟨after, last, rfl⟩
    · obtain ⟨-, hlast⟩ := List.append_inj' heq rfl
      exact .inl (List.cons.inj hlast).1
    · rw [List.concat_eq_append] at heq hafter
      rw [← List.cons_append, ← List.append_assoc] at heq
      obtain ⟨rfl, hlast⟩ := List.append_inj' heq rfl
      obtain rfl := (List.cons.inj hlast).1
      rw [List.mem_append, not_or] at hafter
      exact .inr ⟨fun h => hafter.2 (List.mem_singleton.2 h.symm), before, after, rfl, hafter.1⟩
  · rintro (rfl | ⟨hne, before, after, rfl, hafter⟩)
    · exact ⟨past, [], rfl, List.not_mem_nil⟩
    · refine ⟨before, after ++ [h], by simp, ?_⟩
      rw [List.mem_append, not_or]
      exact ⟨hafter, fun h => hne (List.mem_singleton.1 h).symm⟩

/-- If steps are asked for in a pause only, a request that stands was made in the present one. -/
theorem Requested.inPause {paused : Bool} {past : List Happening} (h : Requested past)
    (hpast : RequestsInPause paused past) : RequestedInPause paused past := by
  -- A pause that ended after the request would have met it by a step.
  obtain ⟨before, after, heq, hafter⟩ := h
  obtain ⟨hpaused, hlater⟩ := hpast before after heq
  refine ⟨before, after, heq, hafter, hpaused, fun hmem => ?_⟩
  obtain ⟨between, rest, rfl⟩ := List.append_of_mem hmem
  exact hafter (List.mem_append_left _ (hlater between rest rfl))

/-! ## The controls and the record -/

/-- The controls agree with the record of a session that began paused or not. -/
structure Records (controls : Controls) (paused : Bool) (past : List Happening) : Prop where
  step : controls.step = true ↔ Requested past
  paused : controls.paused = pausedAfter paused past

namespace Records

variable {paused : Bool} {past : List Happening}

theorem handle {p : Panel} (h : Records p.controls paused past) (event : Event) :
    Records (p.handle event).controls paused (past ++ [.handled event]) where
  step := by
    rw [Panel.step_handle, h.step, requested_append_singleton]
    simp
  paused := by
    rw [Panel.paused_handle, h.paused, pausedAfter_append_singleton]
    simp

theorem handleAll {p : Panel} (h : Records p.controls paused past) (events : List Event) :
    Records (p.handleAll events).controls paused (past ++ events.map .handled) := by
  induction events generalizing p past with
  | nil =>
    rw [List.map_nil, List.append_nil]
    exact h
  | cons event events ih =>
    have hrest := ih (h.handle event)
    rwa [List.append_assoc] at hrest

/-- A step that was made is not asked for any longer. -/
theorem stepped {controls : Controls} (h : Records controls paused past) :
    Records { controls with step := false } paused (past ++ [.stepped]) where
  step := by
    rw [requested_append_singleton]
    simp
  paused := by
    rw [pausedAfter_append_singleton]
    exact h.paused

end Records

/-- A round leaves the controls as its events did, but for a request that it has met. -/
theorem Round.controls_result (r : Round) :
    r.result.session.panel.controls =
      if r.activity = .stepping then { r.panel.controls with step := false }
      else r.panel.controls := by
  rw [r.result_eq]
  cases r.activity <;> rfl

theorem Records.round {paused : Bool} {past : List Happening} {r : Round}
    (h : Records r.session.panel.controls paused past) :
    Records r.result.session.panel.controls paused (past ++ r.happenings) := by
  have hhandled := h.handleAll r.events
  rw [r.controls_result, Round.happenings, ← List.append_assoc]
  split
  · exact hhandled.stepped
  · rw [List.append_nil]
    exact hhandled

/-- When a round has handled its events, the controls agree with what has happened. -/
theorem Records.of_course {machine : Machine} {clock : Nat} {paused : Bool}
    {input : List (List Event × Nat)} {earlier later : List Round} {r : Round}
    (h : (Session.new machine clock paused).course input = earlier ++ r :: later) :
    Records r.panel.controls paused (r.past earlier) := by
  -- The record keeps up with the controls through the rounds before, and then through the events.
  have hbefore : Records r.session.panel.controls paused (earlier.flatMap Round.happenings) := by
    refine Session.course_induction
      (motive := fun rounds s => Records s.panel.controls paused (rounds.flatMap Round.happenings))
      ⟨?_, rfl⟩ (fun rounds r hr => ?_) h
    · simp [Session.new, Requested]
    · rw [List.flatMap_append, List.flatMap_singleton]
      exact hr.round
  exact hbefore.handleAll r.events

/-! ## Paused turns -/

/-- While the session is paused, and not rewinding, a step is all that the controls can ask for. -/
theorem Controls.activity_eq_stepping_iff {c : Controls}
    (hpaused : c.activity = .stepping ∨ c.activity = .resting) :
    c.activity = .stepping ↔ c.step = true := by
  unfold activity at hpaused ⊢
  cases hrewind : c.rewind
  · cases hpause : c.paused
    · simp [hrewind, hpause] at hpaused
    · cases hstep : c.step <;> simp
  · simp [hrewind] at hpaused

/-- A turn that is made while the session is paused, and not rewinding, makes a single step
    exactly if a request stands: the step key has gone down, in a pause or not, and no step was
    made since.  Then the keypad is polled and one instruction and one tick of the timers follow;
    otherwise the machine is left as it was.

    If all requests are made in a pause, and met before it ends, the request was made in the
    present pause. -/
theorem single_step_iff_requested {machine : Machine} {clock : Nat} {paused : Bool}
    {input : List (List Event × Nat)} {earlier later : List Round} {r : Round}
    (h : (Session.new machine clock paused).course input = earlier ++ r :: later)
    (hpaused : r.activity = .stepping ∨ r.activity = .resting) :
    (r.activity = .stepping ↔ Requested (r.past earlier)) ∧
      (RequestsInPause paused (r.past earlier) →
        (r.activity = .stepping ↔ RequestedInPause paused (r.past earlier))) ∧
      (r.activity = .stepping →
        r.result.outcome =
            (r.session.machine.updateKeys r.panel.poll.1).singleStep.1.map (fun _ => ()) ∧
          r.result.session.machine =
            (r.session.machine.updateKeys r.panel.poll.1).singleStep.2) ∧
      (r.activity = .resting →
        r.result.outcome = .ok () ∧ r.result.session.machine = r.session.machine) := by
  have hrecords : Records r.panel.controls paused (r.past earlier) := .of_course h
  have hstep : r.activity = .stepping ↔ Requested (r.past earlier) := by
    rw [← hrecords.step]
    exact Controls.activity_eq_stepping_iff hpaused
  refine ⟨hstep, fun hinPause => ?_, fun hactivity => ?_, fun hactivity => ?_⟩
  · rw [hstep]
    refine ⟨fun hrequested => hrequested.inPause hinPause, ?_⟩
    rintro ⟨before, after, heq, hafter, -, -⟩
    exact ⟨before, after, heq, hafter⟩
  · rw [r.result_eq, hactivity]
    exact ⟨rfl, rfl⟩
  · rw [r.result_eq, hactivity]
    exact ⟨rfl, rfl⟩

/-- A session that begins paused makes a step when the step key goes down, and did not before. -/
theorem single_step_iff_requested_of_step_key :
    ∃ idle r,
      (Session.new ((Machine.new (.counter 0 1)).load [0x60, 0x01]).2 500 true).course
          [([], 0), ([.stepKeyDown], 0)] = [idle, r] ∧
        idle.activity = .resting ∧ r.activity = .stepping ∧
        RequestedInPause true (r.past [idle]) ∧ r.result.session.machine.state.pc = 0x202 := by
  let idle : Round :=
    ⟨Session.new ((Machine.new (.counter 0 1)).load [0x60, 0x01]).2 500 true, [], 0⟩
  let r : Round := ⟨idle.result.session, [.stepKeyDown], 0⟩
  have hcourse : idle.session.course [([], 0), ([.stepKeyDown], 0)] = [idle] ++ r :: [] := by
    rw [Session.course_cons rfl rfl, Session.course_singleton rfl]
    rfl
  have hinPause : RequestsInPause true (r.past [idle]) := by
    intro before after heq
    -- The key is all that there is in the record.
    cases before with
    | nil =>
      obtain ⟨-, rfl⟩ := List.cons.inj heq
      exact ⟨rfl, by simp⟩
    | cons _ before => exact absurd (List.cons.inj heq).2.symm (by simp)
  obtain ⟨-, hiff, hstepping, -⟩ := single_step_iff_requested hcourse (.inl rfl)
  refine ⟨idle, r, hcourse, rfl, rfl, (hiff hinPause).1 rfl, ?_⟩
  rw [(hstepping rfl).2]
  decide +kernel

/-- A session plays, and before the next turn the step key goes down and then the pause key.  The
    turn makes a step, though none was asked for since the session is paused. -/
theorem single_step_of_earlier_request :
    ∃ r,
      (Session.new ((Machine.new (.counter 0 1)).load [0x60, 0x01]).2 500 false).course
          [([.stepKeyDown, .pauseKeyDown], 0)] = [r] ∧
        r.activity = .stepping ∧ ¬ RequestedInPause false (r.past []) ∧
        r.session.machine.state.pc = 0x200 ∧ r.result.session.machine.state.pc = 0x202 := by
  refine ⟨_, Session.course_singleton rfl _ _, rfl, ?_, rfl, ?_⟩
  · rintro ⟨before, after, heq, -, hpaused, -⟩
    -- When the step key goes down, the pause has not begun.
    cases before with
    | nil => exact Bool.false_ne_true hpaused
    | cons _ before =>
      cases before with
      | nil => exact absurd (List.cons.inj (List.cons.inj heq).2).1 (by decide)
      | cons _ before => exact absurd (List.cons.inj (List.cons.inj heq).2).2.symm (by simp)
  · decide +kernel

end Chip8.Console
