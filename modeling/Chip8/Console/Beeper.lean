/-! # Beeper

The beeper plays a constant tone while it is told to sound.  Its device is resumed
and paused only on a change, so the calls that reach the device alternate. -/

namespace Chip8.Console

/-- What the audio device is told to do. -/
inductive DeviceCall where
  | resume
  | pause
  deriving DecidableEq, Repr

/-- A beeper, and whether it is sounding. -/
structure Beeper where
  sounding : Bool := false
  deriving DecidableEq, Repr

/-- Sound or be silent: the beeper after that, and the call that its device receives, if
    it receives one. -/
def Beeper.turn (b : Beeper) (on : Bool) : Beeper × Option DeviceCall :=
  if b.sounding = on then (b, none)
  else (⟨on⟩, some (if on then .resume else .pause))

/-- The calls that a device receives for a sequence of requests. -/
def Beeper.calls (b : Beeper) : List Bool → List DeviceCall
  | [] => []
  | on :: rest =>
    let (b, call) := b.turn on
    call.toList ++ b.calls rest

end Chip8.Console
