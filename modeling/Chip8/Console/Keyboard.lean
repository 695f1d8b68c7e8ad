import Chip8.KeyLatch

/-! # Keyboard

The keypad is laid out on the left four columns of the keyboard:

    1 2 3 C        1 2 3 4
    4 5 6 D        Q W E R
    7 8 9 E        A S D F
    A 0 B F        Z X C V

A few other keys control the interpreter instead of the program. -/

namespace Chip8.Console

/-- A key of the keyboard. -/
inductive KeyboardKey where
  | digit (d : Fin 10)
  /-- A letter, in upper case. -/
  | letter (c : Char)
  | space
  | backspace
  | escape
  /-- Any other key, by its name. -/
  | other (name : String)
  deriving DecidableEq, Repr

/-- A key by its name: a digit, a letter in upper case, or a word. -/
def KeyboardKey.ofName (name : String) : KeyboardKey :=
  match name.toList with
  | [c] =>
    if h : 48 ≤ c.toNat ∧ c.toNat < 58 then .digit ⟨c.toNat - 48, by omega⟩
    else if c.isUpper then .letter c
    else .other name
  | _ =>
    if name = "Space" then .space
    else if name = "Backspace" then .backspace
    else if name = "Escape" then .escape
    else .other name

/-- The key of the keypad that a key of the keyboard stands for. -/
def KeyboardKey.keypad? : KeyboardKey → Option Key
  | digit 1 => some 0x1
  | digit 2 => some 0x2
  | digit 3 => some 0x3
  | digit 4 => some 0xC
  | letter 'Q' => some 0x4
  | letter 'W' => some 0x5
  | letter 'E' => some 0x6
  | letter 'R' => some 0xD
  | letter 'A' => some 0x7
  | letter 'S' => some 0x8
  | letter 'D' => some 0x9
  | letter 'F' => some 0xE
  | letter 'Z' => some 0xA
  | letter 'X' => some 0x0
  | letter 'C' => some 0xB
  | letter 'V' => some 0xF
  | _ => none

/-- What a control key asks of the interpreter. -/
inductive Control where
  | fastForward
  | rewind
  | pause
  | step
  | quit
  deriving DecidableEq, Repr

/-- What a key of the keyboard asks of the interpreter, if it is a control key. -/
def KeyboardKey.control? : KeyboardKey → Option Control
  | space => some .fastForward
  | backspace => some .rewind
  | letter 'P' => some .pause
  | letter 'N' => some .step
  | escape => some .quit
  | _ => none

/-- Something that happened at the window. -/
inductive Event where
  /-- The window was closed. -/
  | quit
  /-- A key went down, or is held and repeats.  Some keys are unknown. -/
  | down (key : Option KeyboardKey) (repeats : Bool)
  /-- A key went up. -/
  | up (key : Option KeyboardKey)
  /-- Anything else. -/
  | other
  deriving DecidableEq, Repr

end Chip8.Console
