import Chip8.Console.Panel
import Chip8.Proofs.KeyDelivery
import Mathlib.Logic.Function.Iterate

/-!
# Polling the keypad

The panel collects the keys that go down, and the latch of a machine learns of them when the panel
is polled.  Here a latch that is fed by polls is compared to a live one, to which every key goes
down and up at once.  The live latch is ahead of the other one by exactly the presses that the
panel has collected, so whenever the panel has been polled they are the same.  To a program it
makes no difference how often that is done, nor how the events are handed to the panel.

## Key results

- `Panel.keypad_handle`: what an event does to the keypad
- `KeyLatch.held_feed`, `KeyLatch.pending_feed`: what an event does to a live latch
- `Intake.InStep.act`, `Intake.InStep.run`: how far the live latch is ahead
- `Intake.polls_match_live`: after a poll it is not
-/

namespace Chip8

/-- A key that is down does not go down anew. -/
theorem HeldKeys.put_eq_self {held : HeldKeys} {key : Key} (h : held.has key = true) :
    held.put key true = held := by
  rw [put, ← h]
  exact Vector.set_getElem_self _

namespace Console

/-! ## What goes down and up -/

namespace Event

/-- The key of the keypad that goes down or up in an event, and whether it goes down.  Repeats do
    not count. -/
def move? : Event → Option (Key × Bool)
  | .down (some key) false => key.keypad?.map (·, true)
  | .up (some key) => key.keypad?.map (·, false)
  | _ => none

/-- The key that goes down in an event and was not down before it. -/
def press? (held : HeldKeys) (event : Event) : Option Key :=
  match event.move? with
  | some (key, true) => if held.has key then none else some key
  | _ => none

/-- The keys that are down after an event. -/
def heldAfter (held : HeldKeys) (event : Event) : HeldKeys :=
  match event.move? with
  | some (key, isDown) => held.put key isDown
  | none => held

end Event

namespace Panel

/-- A key of the keyboard concerns the keypad only if it stands for one of its keys. -/
theorem keypad_handleKey (p : Panel) (key : KeyboardKey) (isDown : Bool) :
    (p.handleKey key isDown).keypad =
      match key.keypad?.map (·, isDown) with
      | some (k, true) => p.keypad.press k
      | some (k, false) => p.keypad.release k
      | none => p.keypad := by
  unfold handleKey
  cases key.keypad? with
  | some k => cases isDown <;> rfl
  | none => cases key.control? <;> rfl

/-- The keypad takes in what goes down and up, and nothing else. -/
theorem keypad_handle (p : Panel) (event : Event) :
    (p.handle event).keypad =
      { held := event.heldAfter p.keypad.held
        pressed := p.keypad.pressed ++ (event.press? p.keypad.held).toList } := by
  -- An event moves a key or none; a repeated key-down, and one of no key, move none.
  have hmove : (p.handle event).keypad =
      match event.move? with
      | some (key, true) => p.keypad.press key
      | some (key, false) => p.keypad.release key
      | none => p.keypad := by
    match event with
    | .quit | .other | .down none _ | .up none | .down (some _) true => rfl
    | .down (some key) false => exact p.keypad_handleKey key true
    | .up (some key) => exact p.keypad_handleKey key false
  rw [hmove]
  unfold Event.heldAfter Event.press?
  -- Nothing moves, a key goes up, or one goes down, which counts unless it is held.
  rcases event.move? with _ | ⟨key, _ | _⟩
  · simp
  · simp [Keypad.release]
  · by_cases hheld : p.keypad.held.has key = true
    · simp [hheld, Keypad.press]
    · simp [hheld, Keypad.press]

end Panel

/-! ## What is done with a keyboard -/

/-- Something that is done with a panel and a latch: events are handed to the panel, or the panel
    is polled for the latch, and after that keys are taken from the latch a number of times. -/
inductive Action where
  | events (batch : List Event)
  | poll (takes : Nat)

/-- What a live latch sees: an event, or that a key is taken from it. -/
inductive Moment where
  | event (event : Event)
  | take
  deriving DecidableEq

/-- What a live latch sees of an action. -/
def Action.moments : Action → List Moment
  | .events batch => batch.map .event
  | .poll takes => List.replicate takes .take

/-- The key that goes down at a moment and was not down before it. -/
def Moment.press? (held : HeldKeys) : Moment → Option Key
  | .event e => e.press? held
  | .take => none

end Console

open Console

namespace KeyLatch

/-- The latch after a key was taken from it, if there was one. -/
def drop (l : KeyLatch) : KeyLatch :=
  match l.take with
  | some (_, l) => l
  | none => l

/-- Let an event happen to a latch at once: a key that is not held goes down, or a key goes up. -/
def feed (l : KeyLatch) (event : Event) : KeyLatch :=
  match event.move? with
  | some (key, true) => if l.held.has key then l else l.press key.toByte
  | some (key, false) => l.release key.toByte
  | none => l

/-- Let a moment happen to a latch at once. -/
def live (l : KeyLatch) : Moment → KeyLatch
  | .event event => l.feed event
  | .take => l.drop

/-- The keys that go down while moments happen to a latch at once. -/
def presses (l : KeyLatch) : List Moment → List Key
  | [] => []
  | moment :: rest => (moment.press? l.held).toList ++ (l.live moment).presses rest

theorem held_feed (l : KeyLatch) (event : Event) :
    (l.feed event).held = event.heldAfter l.held := by
  unfold feed Event.heldAfter
  rcases event.move? with _ | ⟨key, _ | _⟩
  · rfl
  · simp [release]
  · -- A key that is held already goes down to no effect.
    by_cases hheld : l.held.has key = true
    · simp [hheld, HeldKeys.put_eq_self]
    · simp [hheld, press]

theorem pending_feed (l : KeyLatch) (event : Event) :
    (l.feed event).pending = (event.press? l.held).toList.foldl toFront l.pending := by
  unfold feed Event.press?
  rcases event.move? with _ | ⟨key, _ | _⟩
  · rfl
  · exact l.pending_release _
  · by_cases hheld : l.held.has key = true
    · simp [hheld]
    · simp [hheld, toFront]

theorem held_drop (l : KeyLatch) : l.drop.held = l.held := by
  unfold drop
  cases htake : l.take with
  | some taken => exact (pending_of_take htake).2
  | none => rfl

theorem held_iterate_drop (l : KeyLatch) (takes : Nat) : (drop^[takes] l).held = l.held := by
  induction takes generalizing l with
  | zero => rfl
  | succ takes ih => rw [Function.iterate_succ_apply, ih, held_drop]

theorem foldl_live_take (l : KeyLatch) (takes : Nat) :
    (List.replicate takes .take).foldl live l = drop^[takes] l := by
  induction takes generalizing l with
  | zero => rfl
  | succ takes ih =>
    rw [List.replicate_succ, List.foldl_cons, ih, Function.iterate_succ_apply]
    rfl

/-- No key goes down when keys are taken. -/
theorem presses_take (l : KeyLatch) (takes : Nat) :
    l.presses (List.replicate takes .take) = [] := by
  induction takes generalizing l with
  | zero => rfl
  | succ takes ih =>
    rw [List.replicate_succ, presses, ih]
    rfl

theorem presses_append (l : KeyLatch) (earlier later : List Moment) :
    l.presses (earlier ++ later) = l.presses earlier ++ (earlier.foldl live l).presses later := by
  induction earlier generalizing l with
  | nil => rfl
  | cons moment earlier ih =>
    rw [List.cons_append, presses, presses, ih, List.append_assoc, List.foldl_cons]

end KeyLatch

namespace Console

/-! ## A latch that is fed by polls -/

/-- A panel, and the latch that learns of its keys. -/
structure Intake where
  panel : Panel
  latch : KeyLatch

namespace Intake

/-- What is reported to the latch in an action, and the panel and the latch after it. -/
def act (s : Intake) : Action → List UInt8 × Intake
  | .events batch => ([], { s with panel := s.panel.handleAll batch })
  | .poll takes =>
    let (report, panel) := s.panel.poll
    (report.pressed, { panel, latch := KeyLatch.drop^[takes] (s.latch.update report) })

/-- All that is reported to the latch in several actions, and the panel and the latch after
    them. -/
def run (s : Intake) : List Action → List UInt8 × Intake
  | [] => ([], s)
  | action :: rest =>
    let (report, s) := s.act action
    let (later, s) := s.run rest
    (report ++ later, s)

theorem run_cons (s : Intake) (action : Action) (rest : List Action) :
    s.run (action :: rest) =
      ((s.act action).1 ++ ((s.act action).2.run rest).1, ((s.act action).2.run rest).2) := rfl

/-- A live latch is ahead of the one that is fed by polls by the presses that are collected. -/
structure InStep (s : Intake) (live : KeyLatch) : Prop where
  held : live.held = s.panel.keypad.held
  pending : live.pending = s.panel.keypad.pressed.foldl KeyLatch.toFront s.latch.pending

variable {s : Intake} {live : KeyLatch}

/-- Events are collected in the order in which they happen to the live latch. -/
theorem InStep.handleAll (h : s.InStep live) (batch : List Event) :
    let panel := s.panel.handleAll batch
    let moments := batch.map Moment.event
    InStep { s with panel } (moments.foldl KeyLatch.live live) ∧
      panel.keypad.pressed = s.panel.keypad.pressed ++ live.presses moments := by
  induction batch generalizing s live with
  | nil => exact ⟨h, (List.append_nil _).symm⟩
  | cons event batch ih =>
    have hkeypad := s.panel.keypad_handle event
    -- The event reaches the live latch at once, and the collected keys as the last of them.
    have hfirst : InStep { s with panel := s.panel.handle event } (live.feed event) := by
      constructor
      · rw [KeyLatch.held_feed, h.held, hkeypad]
      · rw [KeyLatch.pending_feed, h.held, h.pending, hkeypad, List.foldl_append]
    obtain ⟨hrest, hpressed⟩ := ih hfirst
    refine ⟨hrest, hpressed.trans ?_⟩
    -- The event's own press comes between those collected before and those of the others.
    rw [hkeypad, ← h.held, List.append_assoc, List.map_cons, KeyLatch.presses]
    rfl

/-- When the panel is polled the latch catches up with the live one. -/
theorem InStep.update (h : s.InStep live) : s.latch.update s.panel.poll.1 = live := by
  apply KeyLatch.ext
  · exact h.held.symm
  · -- The bytes that are reported name the keys that were collected.
    have hbytes : (s.panel.keypad.pressed.map Key.toByte).filterMap Key.ofByte? =
        s.panel.keypad.pressed := by
      have hinverse : Key.ofByte? ∘ Key.toByte = some := funext Key.ofByte?_toByte
      rw [List.filterMap_map, hinverse, List.filterMap_some]
    rw [KeyLatch.pending_update, KeyLatch.pending_foldl_press, h.pending]
    exact congrArg (List.foldl KeyLatch.toFront s.latch.pending) hbytes

/-- After a poll, keys are taken from the same latch. -/
theorem InStep.latch_poll (h : s.InStep live) (takes : Nat) :
    (s.act (.poll takes)).2.latch = (Action.poll takes).moments.foldl KeyLatch.live live := by
  rw [Action.moments, KeyLatch.foldl_live_take, ← h.update]
  rfl

/-- The live latch stays ahead by what is collected, and what is reported or still collected is
    all that has gone down. -/
theorem InStep.act (h : s.InStep live) (action : Action) :
    (s.act action).2.InStep (action.moments.foldl KeyLatch.live live) ∧
      (s.act action).1 ++ (s.act action).2.panel.keypad.pressed.map Key.toByte =
        (s.panel.keypad.pressed ++ live.presses action.moments).map Key.toByte := by
  cases action with
  | events batch =>
    -- Nothing is reported yet; what goes down is only collected.
    obtain ⟨hstep, hpressed⟩ := h.handleAll batch
    exact ⟨hstep, congrArg (List.map Key.toByte) hpressed⟩
  | poll takes =>
    -- The poll reports all that was collected, so nothing keeps the live latch ahead.
    have hlatch := h.latch_poll takes
    refine ⟨⟨?_, congrArg KeyLatch.pending hlatch.symm⟩, ?_⟩
    · rw [Action.moments, KeyLatch.foldl_live_take, KeyLatch.held_iterate_drop, h.held]
      rfl
    · rw [Action.moments, KeyLatch.presses_take, List.append_nil]
      exact List.append_nil _

/-- The same holds of several actions. -/
theorem InStep.run (h : s.InStep live) (actions : List Action) :
    (s.run actions).2.InStep ((actions.flatMap Action.moments).foldl KeyLatch.live live) ∧
      (s.run actions).1 ++ (s.run actions).2.panel.keypad.pressed.map Key.toByte =
        (s.panel.keypad.pressed ++ live.presses (actions.flatMap Action.moments)).map
          Key.toByte := by
  induction actions generalizing s live with
  | nil =>
    rw [List.flatMap_nil, KeyLatch.presses, List.append_nil]
    exact ⟨h, rfl⟩
  | cons action rest ih =>
    -- That the latches stay in step is what carries the induction.
    obtain ⟨hfirst, hreport⟩ := h.act action
    obtain ⟨hrest, hlater⟩ := ih hfirst
    rw [List.flatMap_cons, List.foldl_append, run_cons, KeyLatch.presses_append]
    refine ⟨hrest, ?_⟩
    -- The reports of the first action and of the others are those of all actions, one after
    -- another.
    rw [List.append_assoc, hlater, List.map_append, ← List.append_assoc, hreport,
      ← List.map_append, List.append_assoc]

theorem run_append (s : Intake) (earlier later : List Action) :
    s.run (earlier ++ later) =
      ((s.run earlier).1 ++ ((s.run earlier).2.run later).1, ((s.run earlier).2.run later).2) := by
  induction earlier generalizing s with
  | nil => rfl
  | cons action earlier ih => rw [List.cons_append, run_cons, run_cons, ih, List.append_assoc]

/-- After a last poll the latch is the live one, and all that went down has been reported. -/
theorem InStep.run_poll (h : s.InStep live) (actions : List Action) (takes : Nat) :
    let polled := actions ++ [Action.poll takes]
    (s.run polled).2.latch = (polled.flatMap Action.moments).foldl KeyLatch.live live ∧
      (s.run polled).1 =
        (s.panel.keypad.pressed ++ live.presses (polled.flatMap Action.moments)).map
          Key.toByte := by
  intro polled
  obtain ⟨hlast, -⟩ := h.run actions
  obtain ⟨-, hreport⟩ := h.run polled
  -- The poll comes last, after a run that has kept the latches in step.
  have hrun : (s.run polled).2 = ((s.run actions).2.act (.poll takes)).2 := by
    rw [run_append]
    rfl
  constructor
  · rw [hrun, hlast.latch_poll, List.flatMap_append, List.foldl_append, List.flatMap_singleton]
  · -- Nothing is left to be reported.
    rw [← hreport, hrun]
    exact (List.append_nil _).symm

/-- Start with nothing held and nothing pending, let events be handed to the panel in any batches
    and the panel be polled at any time, and let keys be taken from the latch after polls only.

    After every poll, and after every key that is taken then, the latch is the same as if each key
    had gone down and up at once.  The polls have reported each key that went down once, in the
    order in which they did.  And the same events with the same keys taken between them give
    the same latch and the same reports, however else they are handed over and polled. -/
theorem polls_match_live (controls : Controls) (actions : List Action) (takes : Nat) :
    let polled := actions ++ [Action.poll takes]
    let moments := polled.flatMap Action.moments
    let start : Intake := { panel := { controls }, latch := .empty }
    (start.run polled).2.latch = moments.foldl KeyLatch.live .empty ∧
      (start.run polled).1 = (KeyLatch.empty.presses moments).map Key.toByte ∧
      ∀ (others : List Action) (takes' : Nat),
        (others ++ [Action.poll takes']).flatMap Action.moments = moments →
          (start.run (others ++ [Action.poll takes'])).2.latch = (start.run polled).2.latch ∧
            (start.run (others ++ [Action.poll takes'])).1 = (start.run polled).1 := by
  intro polled moments start
  have hstart : start.InStep .empty := ⟨rfl, rfl⟩
  obtain ⟨hlatch, hreports⟩ := hstart.run_poll actions takes
  refine ⟨hlatch, hreports, fun others takes' hmoments => ?_⟩
  -- Both runs end in the same live latch, which knows nothing of batches and polls.
  obtain ⟨hlatch', hreports'⟩ := hstart.run_poll others takes'
  rw [hmoments] at hlatch' hreports'
  exact ⟨hlatch'.trans hlatch.symm, hreports'.trans hreports.symm⟩

/-- A key that goes down twice between two polls is reported twice, and is pending once. -/
example :
    let down := Event.down (some (.letter 'Q')) false
    let up := Event.up (some (.letter 'Q'))
    let polled := Intake.run { panel := {}, latch := .empty } [.events [down, up, down], .poll 0]
    polled.1 = [4, 4] ∧ polled.2.latch.pending = [4] := by
  decide

end Intake

end Console

end Chip8
