import Chip8.Execution
import Chip8.History
import Chip8.Instruction.Code
import Chip8.RegisterDump

/-! # Machine

A machine is a state together with the states it can be rewound to, its source of
random bytes, and whether a program was loaded.  Operations that can fail return
the machine that is left behind beside their outcome.

A step fetches, decodes and executes one instruction, on a copy of the state.  Only
when all of that succeeded is the old state saved and the new one taken over; after a
fault, or a key wait without a key press, the copy is dropped. -/

namespace Chip8

/-- What a step did. -/
inductive Step where
  /-- An instruction took effect and the program counter moved on. -/
  | executed (i : Instruction)
  /-- The instruction waits for a key press and will be tried again. -/
  | awaitingKey
  deriving DecidableEq, Repr

/-- An interpreter with a program. -/
structure Machine where
  state : State
  history : History
  random : RandomSource
  loaded : Bool

/-- Fetch and decode the instruction at the program counter. -/
def State.fetch (s : State) : Except Fault Instruction :=
  match s.memory.pair s.pc.toNat with
  | .error cause => .error (.range cause)
  | .ok (high, low) =>
    match Instruction.decode? (Word.ofBytes high low) with
    | none => .error (.undecodable (Word.ofBytes high low))
    | some i => .ok i

/-- Why a run of steps came to its end. -/
inductive Stop where
  /-- As many steps as were asked for have been made. -/
  | limit
  | awaitingKey
  | fault (cause : Fault)
  deriving DecidableEq, Repr

namespace Machine

/-- How many states are kept for rewinding unless asked otherwise. -/
def defaultHistory : Nat := 600

/-- A new machine without a program. -/
def new (random : RandomSource) : Machine :=
  { state := .initial, history := .empty defaultHistory, random, loaded := false }

/-- Keep at most `limit` states for rewinding. -/
def limitHistory (m : Machine) (limit : Nat) : Machine :=
  { m with history := m.history.resize limit }

/-- Place a program in memory.  This can be done once. -/
def load (m : Machine) (image : List UInt8) : Except Fault Unit × Machine :=
  if m.loaded then
    (.error (.load .alreadyLoaded), m)
  else
    match m.state.memory.load image with
    | .error cause => (.error (.load cause), m)
    | .ok memory => (.ok (), { m with state := { m.state with memory }, loaded := true })

/-- Make one step.  The instruction works on a copy of the state, but on the random
    source itself. -/
def step (m : Machine) : Except Fault Step × Machine :=
  match m.state.fetch with
  | .error fault => (.error fault, m)
  | .ok i =>
    let effect := execute i m.state m.random
    match effect.outcome with
    | .error cause => (.error (.range cause), { m with random := effect.random })
    | .ok next =>
      match next.target? m.state.pc with
      | none => (.ok .awaitingKey, { m with random := effect.random })
      | some pc =>
        (.ok (.executed i),
          { m with
            state := { effect.state with pc }
            history := m.history.save m.state
            random := effect.random })

/-- What came of a run of steps. -/
structure Run where
  /-- How many instructions were executed. -/
  steps : Nat
  stop : Stop
  machine : Machine

/-- Make up to `limit` further steps, `done` of them having been made. -/
def runFrom (done : Nat) : Nat → Machine → Run
  | 0, m => ⟨done, .limit, m⟩
  | limit + 1, m =>
    match m.step with
    | (.error cause, m) => ⟨done, .fault cause, m⟩
    | (.ok .awaitingKey, m) => ⟨done, .awaitingKey, m⟩
    | (.ok (.executed _), m) => runFrom (done + 1) limit m

/-- Make up to `limit` steps, and stop early at a fault or a key wait. -/
def run (m : Machine) (limit : Nat) : Run := runFrom 0 limit m

/-- Go back to the state before the last executed instruction, if it was kept.  The
    keypad is live and is not rewound, nor is the random source. -/
def rewind (m : Machine) : Bool × Machine :=
  match m.history.pop? with
  | none => (false, m)
  | some (s, history) => (true, { m with state := { s with keys := m.state.keys }, history })

/-- Go back by up to `limit` instructions, and tell by how many. -/
def rewindUpTo : Nat → Machine → Nat × Machine
  | 0, m => (0, m)
  | limit + 1, m =>
    match m.rewind with
    | (false, m) => (0, m)
    | (true, m) =>
      let (count, m) := rewindUpTo limit m
      (count + 1, m)

/-- Let `ticks` ticks of the timers pass. -/
def decay (m : Machine) (ticks : Nat) : Machine :=
  { m with state := { m.state with timers := m.state.timers.decay ticks } }

/-- A key goes down. -/
def press (m : Machine) (key : UInt8) : Machine :=
  { m with state := { m.state with keys := m.state.keys.press key } }

/-- A key goes up. -/
def release (m : Machine) (key : UInt8) : Machine :=
  { m with state := { m.state with keys := m.state.keys.release key } }

/-- Take in what the keypad saw since it was polled last. -/
def updateKeys (m : Machine) (poll : KeyPoll) : Machine :=
  { m with state := { m.state with keys := m.state.keys.update poll } }

/-- Whether the sound timer runs. -/
def soundActive (m : Machine) : Bool := 0 < m.state.timers.sound

/-- The frame to be shown next. -/
def frame (m : Machine) : Frame := m.state.frame

/-- The contents of the registers. -/
def registers (m : Machine) : RegisterDump := m.state.dump

end Machine

end Chip8
