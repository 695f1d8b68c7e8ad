import Chip8.Frame

/-! # Masks

A pixel is one bit of one byte, and its place is the byte together with a mask that has
only that bit set.  Here pixels are read and flipped by masks, and a sprite is drawn row by
row and bit by bit. -/

namespace Chip8

/-- Where a pixel is kept: a byte of the frame, and the mask of a bit. -/
structure Place where
  byte : Fin 256
  mask : UInt8

namespace Frame

/-- The mask of the bit that is `column` places to the right of the highest one. -/
def maskOf (column : Nat) : UInt8 := 0x80 >>> UInt8.ofNat column

/-- Where the pixel at `x`, `y` is kept.  Both coordinates wrap before it is looked for. -/
def locate (x y : Nat) : Place :=
  let x := x % 64
  let y := y % 32
  { byte := ⟨y * 64 / 8 + x / 8, by omega⟩, mask := maskOf (x % 8) }

/-- Whether the pixel at a place is lit. -/
def isLit (f : Frame) (p : Place) : Bool := f.bytes[p.byte] &&& p.mask != 0

/-- The frame with the pixel at a place flipped. -/
def flip (f : Frame) (p : Place) : Frame :=
  ⟨f.bytes.set p.byte (f.bytes[p.byte] ^^^ p.mask)⟩

/-- Flip the pixel at `x`, `y`, and remember whether that, or a flip before it, turned a lit
    pixel off. -/
def strike (drawn : Frame × Bool) (x y : Nat) : Frame × Bool :=
  let p := locate x y
  let flipped := drawn.1.flip p
  (flipped, drawn.2 || (drawn.1.isLit p && !flipped.isLit p))

/-- Draw one row of a sprite from `x` on in the row `y`. -/
def stampRow (drawn : Frame × Bool) (x y : Nat) (bits : UInt8) : Frame × Bool :=
  (List.range 8).foldl
    (fun drawn column =>
      if bits &&& maskOf column != 0 then strike drawn (x + column) y else drawn)
    drawn

/-- Draw a sprite with its top left corner at `x`, `y`: the new frame, and whether a lit
    pixel was turned off. -/
def stamp (f : Frame) (x y : Nat) (sprite : List UInt8) : Frame × Bool :=
  sprite.zipIdx.foldl (fun drawn (bits, row) => stampRow drawn x (y + row) bits) (f, false)

end Frame

end Chip8
