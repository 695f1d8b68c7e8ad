/-! # Random source

A source of random bytes is the sequence of all the bytes it will ever give and the
number of them drawn so far.  Drawing is then a function like any other: a machine
carries its source along, and two runs from the same source see the same bytes. -/

namespace Chip8

/-- An unending sequence of bytes and a position in it. -/
structure RandomSource where
  byteAt : Nat → UInt8
  drawn : Nat := 0

namespace RandomSource

/-- The next byte, and the source after it. -/
def draw (r : RandomSource) : UInt8 × RandomSource :=
  (r.byteAt r.drawn, { r with drawn := r.drawn + 1 })

/-- The low bytes of a counter that starts at `start` and grows by `step`. -/
def counter (start step : Nat) : RandomSource where
  byteAt n := UInt8.ofNat (start + n * step)

/-- Bytes scrambled from a seed: each is the top byte of a 64-bit mix of the seed and
    its position, so neighbouring positions have nothing in common. -/
def scrambled (seed : UInt64) : RandomSource where
  byteAt n :=
    let z := seed + 0x9E3779B97F4A7C15 * UInt64.ofNat (n + 1)
    let z := (z ^^^ (z >>> 30)) * 0xBF58476D1CE4E5B9
    let z := (z ^^^ (z >>> 27)) * 0x94D049BB133111EB
    ((z ^^^ (z >>> 31)) >>> 56).toUInt8

end RandomSource

end Chip8
