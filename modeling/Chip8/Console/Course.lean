import Chip8.Console.Session

/-! # The course of a session

What a turn is spent on is up to the controls: somebody goes back, makes a single step, rests or
plays.  A round is a turn that was made, together with what there was at its beginning, and the
course of a session is the list of its rounds.

Nothing happens in a session outside of its rounds (`Session.turns_eq`), and what each round
preserves holds throughout (`Session.course_induction`). -/

namespace Chip8.Console

/-- What a turn is spent on. -/
inductive Activity where
  | rewinding
  /-- The session is paused, and a single step was asked for. -/
  | stepping
  /-- The session is paused. -/
  | resting
  | playing
  deriving DecidableEq, Repr

/-- What the controls ask for. -/
def Controls.activity (c : Controls) : Activity :=
  if c.rewind then .rewinding
  else if c.paused then
    if c.step then .stepping else .resting
  else .playing

/-- A turn that was made: the session at its beginning, what happened at the window, and the
    nanoseconds that had passed. -/
structure Round where
  session : Session
  events : List Event
  elapsed : Nat

namespace Round

/-- The panel when the events have been taken in. -/
def panel (r : Round) : Panel := r.session.panel.handleAll r.events

/-- The session when the events have been taken in. -/
def informed (r : Round) : Session := { r.session with panel := r.panel }

/-- What the turn was spent on. -/
def activity (r : Round) : Activity := r.panel.controls.activity

/-- What came of the turn. -/
def result (r : Round) : Turn := r.session.turn r.events r.elapsed

end Round

namespace Session

/-- The turns that a session makes of its input, in order. -/
def course (s : Session) : List (List Event × Nat) → List Round
  | [] => []
  | (events, elapsed) :: rest =>
    if s.panel.controls.quit then []
    else
      let round : Round := ⟨s, events, elapsed⟩
      match round.result.outcome with
      | .error _ => [round]
      | .ok () => round :: round.result.session.course rest

/-- A turn does what it is spent on. -/
theorem obey_eq (s : Session) (elapsed : Nat) :
    s.obey elapsed =
      match s.panel.controls.activity with
      | .rewinding => s.rewind
      | .stepping => s.singleStep
      | .resting => ⟨.ok (), s, [.sound false]⟩
      | .playing => s.play elapsed := by
  unfold obey Controls.activity
  split
  · rfl
  split
  · split <;> rfl
  · rfl

/-- A session that is given one batch of events makes one turn. -/
theorem course_singleton {s : Session} (h : s.panel.controls.quit = false) (events : List Event)
    (elapsed : Nat) : s.course [(events, elapsed)] = [⟨s, events, elapsed⟩] := by
  simp only [course, h, Bool.false_eq_true, if_false]
  split <;> rfl

/-- A turn without a fault is the first round, and the others are those of the session after it. -/
theorem course_cons {s : Session} (h : s.panel.controls.quit = false) {events : List Event}
    {elapsed : Nat} (hok : (Round.result ⟨s, events, elapsed⟩).outcome = .ok ())
    (rest : List (List Event × Nat)) :
    s.course ((events, elapsed) :: rest) =
      ⟨s, events, elapsed⟩ :: (Round.result ⟨s, events, elapsed⟩).session.course rest := by
  simp only [course, h, Bool.false_eq_true, if_false, hok]

/-- The turns of a session end with its last round, and have the signals of all of them. -/
theorem turns_eq (s : Session) (input : List (List Event × Nat)) :
    s.turns input =
      let last := ((s.course input).getLast?.map Round.result).getD ⟨.ok (), s, []⟩
      { last with signals := (s.course input).flatMap fun r => r.result.signals } := by
  induction input generalizing s with
  | nil => rfl
  | cons turn rest ih =>
    obtain ⟨events, elapsed⟩ := turn
    unfold turns course
    split
    · rfl
    · have hturn : s.turn events elapsed = Round.result ⟨s, events, elapsed⟩ := rfl
      simp only [hturn, ih]
      generalize (⟨s, events, elapsed⟩ : Round) = r
      cases houtcome : r.result.outcome with
      | error cause => simp
      | ok done =>
        -- The last round is this one only if there is no other after it.
        generalize r.result.session.course rest = later
        cases hlast : later.getLast? with
        | none => simp [List.getLast?_cons, hlast, houtcome]
        | some last => simp [List.getLast?_cons, hlast]

/-- What holds when a session begins, and is preserved by every round, holds at the beginning of
    each of its rounds.  It may speak of the rounds so far. -/
theorem course_induction {motive : List Round → Session → Prop} {s : Session}
    (hstart : motive [] s)
    (hround : ∀ earlier r, motive earlier r.session → motive (earlier ++ [r]) r.result.session)
    {input : List (List Event × Nat)} {earlier later : List Round} {r : Round}
    (h : s.course input = earlier ++ r :: later) : motive earlier r.session := by
  induction input generalizing s motive earlier with
  | nil => exact absurd h.symm (by simp [course])
  | cons turn rest ih =>
    obtain ⟨events, elapsed⟩ := turn
    unfold course at h
    split at h
    · exact absurd h.symm (by simp)
    · -- The round is the first one, or one of those after it.
      cases earlier with
      | nil =>
        have hfirst : r = ⟨s, events, elapsed⟩ := by
          simp only at h
          split at h <;> exact (List.cons.inj h).1.symm
        rw [hfirst]
        exact hstart
      | cons first earlier =>
        simp only at h
        split at h
        · exact absurd (List.cons.inj h).2.symm (by simp)
        · obtain ⟨rfl, hrest⟩ := List.cons.inj h
          exact ih (motive := fun rounds => motive (_ :: rounds)) (hround [] _ hstart)
            (fun rounds r => hround (_ :: rounds) r) hrest

end Session

/-- What comes of a round is what its turn is spent on, and silence after a fault. -/
theorem Round.result_eq (r : Round) :
    r.result =
      let turn : Turn :=
        match r.activity with
        | .rewinding => r.informed.rewind
        | .stepping => r.informed.singleStep
        | .resting => ⟨.ok (), r.informed, [.sound false]⟩
        | .playing => r.informed.play r.elapsed
      { turn with
        signals := turn.signals ++
          match turn.outcome with
          | .ok () => []
          | .error _ => [.sound false] } := by
  have hturn : r.result =
      match (r.informed.obey r.elapsed).outcome with
      | .ok () => r.informed.obey r.elapsed
      | .error _ =>
        { r.informed.obey r.elapsed with
          signals := (r.informed.obey r.elapsed).signals ++ [.sound false] } := rfl
  have hinformed : r.informed.panel.controls.activity = r.activity := rfl
  rw [hturn, Session.obey_eq, hinformed]
  generalize (match r.activity with
    | .rewinding => r.informed.rewind
    | .stepping => r.informed.singleStep
    | .resting => (⟨.ok (), r.informed, [.sound false]⟩ : Turn)
    | .playing => r.informed.play r.elapsed) = turn
  obtain ⟨_ | _, _, _⟩ := turn
  · rfl
  · simp

end Chip8.Console
