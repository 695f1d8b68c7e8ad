/-! # Square wave

The tone of the beeper.  A phase runs through the unit interval, and samples are high
in its first half and low in its second.

Phases are numbers of single precision, and a phase that is no number stays one.  So
that it also keeps its bit pattern, the pattern is what is stored, and `sum` and
`fraction` say what becomes of it. -/

namespace Chip8.Console

/-- A square wave in progress, by the bit patterns of its numbers. -/
structure SquareWave where
  phase : UInt32 := 0
  /-- How far the phase moves on with each sample. -/
  increment : UInt32
  deriving DecidableEq, Repr

namespace SquareWave

/-- Samples per second. -/
def sampleRate : Nat := 44100

/-- Channels of the device. -/
def channels : Nat := 1

/-- Oscillations per second. -/
def pitch : Nat := 440

/-- How far a sample is from silence. -/
def volumeText : String := "0.1"

/-- The tone of the beeper, from its beginning. -/
def tone : SquareWave :=
  { increment := (Float32.ofNat pitch / Float32.ofNat sampleRate).toBits }

/-- The pattern of infinity, above which a pattern without its sign is no number. -/
def infinity : UInt32 := 0x7F800000

/-- A pattern without its sign bit. -/
def magnitude (bits : UInt32) : UInt32 := bits &&& 0x7FFFFFFF

/-- A pattern that is no number, as it comes out of an operation. -/
def quiet (bits : UInt32) : UInt32 := bits ||| 0x00400000

/-- What an operation without a result comes to. -/
def invalid : UInt32 := 0xFFC00000

/-- The sum of two numbers.  An operand that is no number is the result. -/
def sum (a b : UInt32) : UInt32 :=
  if infinity < magnitude a then quiet a
  else if infinity < magnitude b then quiet b
  else
    let x := Float32.ofBits a + Float32.ofBits b
    if x.isNaN then invalid else x.toBits

/-- What is left of a number after its whole part is taken away, with the sign of the
    number.  The difference is exact. -/
def fraction (a : UInt32) : UInt32 :=
  if infinity < magnitude a then quiet a
  else if infinity = magnitude a then invalid
  else
    let x := Float32.ofBits a
    let rest := x - (if x < 0 then x.ceil else x.floor)
    if rest == 0 then a &&& 0x80000000 else rest.toBits

/-- Whether the sample at the current phase is high. -/
def high (w : SquareWave) : Bool := Float32.ofBits w.phase < 0.5

/-- The wave at the next sample. -/
def next (w : SquareWave) : SquareWave := { w with phase := fraction (sum w.phase w.increment) }

/-- The next `count` samples, and the wave after them. -/
def samples (w : SquareWave) (count : Nat) : List Bool × SquareWave := go w [] count
where
  /-- Take further samples, `taken` being those before, latest first. -/
  go (w : SquareWave) (taken : List Bool) : Nat → List Bool × SquareWave
    | 0 => (taken.reverse, w)
    | count + 1 => go w.next (w.high :: taken) count

end SquareWave

end Chip8.Console
