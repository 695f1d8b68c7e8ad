import Chip8.Console.Keyboard

/-! # Panel

The panel collects what happened at the keyboard until somebody looks: which keys of
the keypad are down and which went down since the last poll, and what the person at
the keyboard wants of the interpreter.

Presses are remembered however long nobody polls, so none is lost while the program
is paused. -/

namespace Chip8.Console

/-- The keypad between two polls. -/
structure Keypad where
  held : HeldKeys := HeldKeys.none
  /-- Keys that went down since the last poll, oldest first. -/
  pressed : List Key := []
  deriving DecidableEq

namespace Keypad

/-- A key goes down.  One that is down already is not pressed anew. -/
def press (p : Keypad) (key : Key) : Keypad :=
  { held := p.held.put key true
    pressed := if p.held.has key then p.pressed else p.pressed ++ [key] }

/-- A key goes up. -/
def release (p : Keypad) (key : Key) : Keypad := { p with held := p.held.put key false }

/-- Report what happened since the last poll. -/
def poll (p : Keypad) : KeyPoll × Keypad :=
  ({ held := p.held, pressed := p.pressed.map Key.toByte }, { p with pressed := [] })

end Keypad

/-- What the person at the keyboard wants of the interpreter. -/
structure Controls where
  fastForward : Bool := false
  rewind : Bool := false
  paused : Bool := false
  /-- A single step was asked for. -/
  step : Bool := false
  quit : Bool := false
  deriving DecidableEq, Repr

/-- A control key goes down or up.  Fast forward and rewind last for as long as their
    keys are down; the others act when their key goes down. -/
def Controls.handle (c : Controls) (control : Control) (down : Bool) : Controls :=
  match control with
  | .fastForward => { c with fastForward := down }
  | .rewind => { c with rewind := down }
  | .pause => if down then { c with paused := !c.paused } else c
  | .step => if down then { c with step := true } else c
  | .quit => if down then { c with quit := true } else c

/-- The keypad and the controls. -/
structure Panel where
  keypad : Keypad := {}
  controls : Controls := {}
  deriving DecidableEq

namespace Panel

/-- A key of the keyboard goes down or up. -/
def handleKey (p : Panel) (key : KeyboardKey) (down : Bool) : Panel :=
  match key.keypad? with
  | some k => { p with keypad := if down then p.keypad.press k else p.keypad.release k }
  | none =>
    match key.control? with
    | some c => { p with controls := p.controls.handle c down }
    | none => p

/-- Something happened at the window.  Repeats and unknown keys do not count. -/
def handle (p : Panel) : Event → Panel
  | .quit => { p with controls := { p.controls with quit := true } }
  | .down (some key) false => p.handleKey key true
  | .up (some key) => p.handleKey key false
  | _ => p

/-- Several things happened, one after the other. -/
def handleAll (p : Panel) (events : List Event) : Panel := events.foldl handle p

/-- Poll the keypad. -/
def poll (p : Panel) : KeyPoll × Panel :=
  let (report, keypad) := p.keypad.poll
  (report, { p with keypad })

end Panel

end Chip8.Console
