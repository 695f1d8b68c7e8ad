import Chip8.Clock.Ticker
import Chip8.Console.Keyboard

/-! # Keyboard scripts

A script says in advance what will happen at the keyboard.  Each line is a turn, and
its words are events: `+KEY` for a key that goes down, `*KEY` for one that repeats,
`-KEY` for one that goes up, and `quit`.  Turns are a frame apart, and after the last
of them the window is closed. -/

namespace Chip8.Console

/-- The event that a word of a script stands for. -/
def Event.ofWord (word : String) : Event :=
  match word.toList with
  | '+' :: name => .down (some (KeyboardKey.ofName (String.ofList name))) false
  | '*' :: name => .down (some (KeyboardKey.ofName (String.ofList name))) true
  | '-' :: name => .up (some (KeyboardKey.ofName (String.ofList name)))
  | ['q', 'u', 'i', 't'] => .quit
  | _ => .other

/-- Turns for batches of events: no time has passed at the first, a frame has at each
    later one, and past the last the window is closed. -/
def pacedTurns (frameTime : Nat) (batches : List (List Event)) : List (List Event × Nat) :=
  (batches ++ [[Event.quit]]).zipIdx.map fun (events, turn) =>
    (events, if turn = 0 then 0 else frameTime)

/-- The batches of events of a script. -/
def scriptEvents (lines : List String) : List (List Event) :=
  lines.map fun line =>
    ((line.toList.splitOn ' ').filter (!·.isEmpty)).map fun word =>
      Event.ofWord (String.ofList word)

end Chip8.Console
