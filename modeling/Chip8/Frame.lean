import Chip8.Window

/-! # Frame

The display is 64 by 32 pixels, each lit or dark, packed eight to a byte: rows from
top to bottom, eight bytes a row, the leftmost pixel in the highest bit.

Coordinates are natural numbers of any size and wrap on both axes.  A sprite is a
list of bytes, one row of eight pixels each, and drawing it flips one pixel of the
frame for every set bit (`cells`).  `pixel_toggle` is the law that the rest of the
reasoning about frames needs: a flip changes the pixel it names and no other. -/

namespace Chip8

/-- The contents of the display. -/
structure Frame where
  bytes : Vector UInt8 256
  deriving DecidableEq

namespace Frame

/-- Pixels in a row. -/
def width : Nat := 64

/-- Rows. -/
def height : Nat := 32

/-- Bytes of a frame. -/
def size : Nat := width * height / 8

/-- A frame with every pixel dark. -/
def blank : Frame := ⟨Vector.replicate 256 0⟩

/-- The byte that holds the pixel at `x`, `y`. -/
def byteIndex (x y : Nat) : Fin 256 :=
  ⟨y % 32 * 8 + x % 64 / 8, by omega⟩

/-- The bit of its byte that holds a pixel of column `x`. -/
def bitIndex (x : Nat) : Nat := 7 - x % 8

/-- Whether the pixel at `x`, `y` is lit. -/
def pixel (f : Frame) (x y : Nat) : Bool :=
  f.bytes[byteIndex x y].toNat.testBit (bitIndex x)

/-- The frame with the pixel at `x`, `y` flipped. -/
def toggle (f : Frame) (x y : Nat) : Frame :=
  let i := byteIndex x y
  ⟨f.bytes.set i (f.bytes[i] ^^^ UInt8.ofNat (1 <<< bitIndex x))⟩

/-- The set bits of a sprite as offsets from its top left corner: column, then row,
    row by row. -/
def cells (sprite : List UInt8) : List (Nat × Nat) :=
  sprite.zipIdx.flatMap fun (bits, row) =>
    ((List.range 8).filter fun column => bits.toNat.testBit (bitIndex column)).map (·, row)

/-- Flip pixels one after the other, and tell whether one of them was lit. -/
def plot (f : Frame) : List (Nat × Nat) → Frame × Bool
  | [] => (f, false)
  | (x, y) :: rest =>
    let on := f.pixel x y
    let (f', hit) := (f.toggle x y).plot rest
    (f', on || hit)

/-- Draw a sprite with its top left corner at `x`, `y`: the new frame, and whether a
    lit pixel was turned off. -/
def draw (f : Frame) (x y : Nat) (sprite : List UInt8) : Frame × Bool :=
  f.plot ((cells sprite).map fun (column, row) => (x + column, y + row))

/-- All pixels, row by row and from left to right. -/
def pixels (f : Frame) : List Bool :=
  (List.range height).flatMap fun y => (List.range width).map fun x => f.pixel x y

/-- The positions of the lit pixels in `pixels`. -/
def lit (f : Frame) : List Nat :=
  f.pixels.zipIdx.filterMap fun (on, i) => if on then some i else none

/-- The frame as three bytes per pixel for red, green and blue: white where lit. -/
def texture (f : Frame) : List UInt8 :=
  f.pixels.flatMap fun on => List.replicate 3 (if on then 255 else 0)

/-! ## Pixels after a flip -/

/-- The byte that is flipped into the display has one bit set. -/
private theorem testBit_bit (x k : Nat) :
    (UInt8.ofNat (1 <<< bitIndex x)).toNat.testBit k = decide (bitIndex x = k) := by
  have h : bitIndex x ≤ 7 := by unfold bitIndex; omega
  have small : 2 ^ bitIndex x ≤ 2 ^ 7 := Nat.pow_le_pow_right (by decide) h
  rw [UInt8.toNat_ofNat', Nat.one_shiftLeft,
    Nat.mod_eq_of_lt (Nat.lt_of_le_of_lt small (by decide)), Nat.testBit_two_pow]

/-- Two pixels share a byte and a bit exactly when they are the same pixel of the
    display. -/
theorem same_place_iff (x y x' y' : Nat) :
    (byteIndex x y = byteIndex x' y' ∧ bitIndex x = bitIndex x') ↔
      x % 64 = x' % 64 ∧ y % 32 = y' % 32 := by
  simp only [byteIndex, bitIndex, Fin.mk.injEq]
  omega

theorem pixel_toggle (f : Frame) (x y x' y' : Nat) :
    (f.toggle x y).pixel x' y' =
      if x % 64 = x' % 64 ∧ y % 32 = y' % 32 then !f.pixel x' y' else f.pixel x' y' := by
  by_cases hb : byteIndex x y = byteIndex x' y'
  · simp only [toggle, pixel, ← hb, Fin.getElem_fin, Vector.getElem_set_self, UInt8.toNat_xor,
      Nat.testBit_xor, testBit_bit]
    by_cases hc : bitIndex x = bitIndex x'
    · simp only [hc, decide_true, Bool.xor_true, if_pos ((same_place_iff x y x' y').1 ⟨hb, hc⟩)]
    · simp only [hc, decide_false, Bool.xor_false,
        if_neg fun h => hc ((same_place_iff x y x' y').2 h).2]
  · have hv : (byteIndex x y).val ≠ (byteIndex x' y').val := fun h => hb (Fin.ext h)
    simp only [toggle, pixel, Fin.getElem_fin, Vector.getElem_set, if_neg hv,
      if_neg fun h => hb ((same_place_iff x y x' y').2 h).1]

theorem plot_cons (f : Frame) (x y : Nat) (rest : List (Nat × Nat)) :
    f.plot ((x, y) :: rest) =
      (((f.toggle x y).plot rest).1, f.pixel x y || ((f.toggle x y).plot rest).2) := rfl

@[simp] theorem length_pixels (f : Frame) : f.pixels.length = 2048 := by
  simp only [pixels, List.length_flatMap, List.length_map, List.length_range]
  decide

end Frame

end Chip8
