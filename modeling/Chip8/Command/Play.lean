import Chip8.Command.Invocation
import Chip8.Command.Outcome
import Chip8.Console.Session
import Chip8.Text.Decimal
import Chip8.Text.Numeral

/-! # The player command

Loads a program and runs it in a session until the session ends.  With `--dump` it
then prints the registers, also after a fault. -/

namespace Chip8.Command

open Text Console

/-- What the player was asked to do. -/
structure PlaySettings where
  rom : String
  /-- Instructions per second. -/
  clock : Nat
  /-- How many dots a pixel is wide and high on the screen. -/
  scale : Nat
  /-- How many instructions can be rewound. -/
  history : Nat
  paused : Bool
  mute : Bool
  dump : Bool
  deriving DecidableEq, Repr

namespace PlaySettings

/-- How large a pixel is unless asked otherwise. -/
def defaultScale : Nat := 10

/-- The options of the player. -/
def specs : List OptionSpec :=
  [{ name := "clock", short := 'c', default? := decimal Scheduler.defaultClock },
   { name := "scale", short := 's', default? := decimal defaultScale },
   { name := "history", default? := decimal Machine.defaultHistory },
   { name := "paused", short := 'p' },
   { name := "mute", short := 'm' },
   { name := "dump", short := 'd' }]

/-- Read a number in decimal.  Zero may carry a minus sign. -/
def number? (limit : Nat) : List Char → Option Nat
  | '-' :: digits => (digits? 10 digits).filter (· = 0)
  | text => numeral? 10 limit text

/-- Read the arguments of the player. -/
def ofArguments? (arguments? : ArgumentReader) (arguments : List String) :
    Option PlaySettings := do
  let invocation ← arguments? specs 1 arguments
  let rom ← invocation.positionals.head?
  let clock ← (invocation.value? "clock" (number? (Scheduler.maxClock + 1))).filter (1 ≤ ·)
  let scale ← invocation.value? "scale" (number? UInt32.size)
  let history ← invocation.value? "history" (numeral? 10 UInt64.size)
  some
    { rom, clock, scale, history, paused := invocation.has "paused", mute := invocation.has "mute",
      dump := invocation.has "dump" }

/-- The width and the height of the window, in dots. -/
def windowSize (s : PlaySettings) : Nat × Nat :=
  (Frame.width * s.scale % UInt32.size, Frame.height * s.scale % UInt32.size)

/-- The session that the settings ask for, at a given machine. -/
def session (s : PlaySettings) (m : Machine) : Session := .new m s.clock s.paused

/-- A machine with a program, as the settings ask for it. -/
def machine (s : PlaySettings) (random : RandomSource) (image : List UInt8) :
    Except Fault Machine :=
  match ((Machine.new random).limitHistory s.history).load image with
  | (.error cause, _) => .error cause
  | (.ok (), m) => .ok m

/-- How the player ends after a session. -/
def outcome (s : PlaySettings) (last : Turn) : Outcome :=
  let output := if s.dump then last.session.machine.registers.json ++ "\n" else ""
  match last.outcome with
  | .ok () => .success output
  | .error cause => { Outcome.failure cause.message with output }

/-- Play an image, with all that will happen at the keyboard given in advance. -/
def play (s : PlaySettings) (random : RandomSource) (input : List (List Event × Nat))
    (image : List UInt8) : Outcome :=
  match s.machine random image with
  | .error cause => .failure cause.message
  | .ok m => s.outcome ((s.session m).run input)

end PlaySettings

/-- Run the player. -/
def play {m : Type → Type} [Monad m] (arguments? : ArgumentReader) (read : FileReader m)
    (random : RandomSource) (input : List (List Event × Nat)) (arguments : List String) :
    m Outcome := do
  match PlaySettings.ofArguments? arguments? arguments with
  | none =>
    pure (.usage "play [--clock HZ] [--scale N] [--history N] [--paused] [--mute] [--dump] ROM")
  | some settings =>
    match ← read settings.rom with
    | none => pure (.unreadable settings.rom)
    | some image => pure (settings.play random input image)

end Chip8.Command
