import Chip8.Frame.Mask
import Chip8.Proofs.DrawingOrder
import Chip8.Proofs.EqualPieces
import Mathlib.Data.Nat.Bitwise

/-!
# The views of a frame

A frame is bytes, and it is looked at in several ways: a pixel is asked for by its coordinates and
found by a mask, all pixels are listed row by row, and the texture has three bytes for each of them.
This file shows that all of these go by one order of the pixels, and so does drawing.  Nothing of a
frame is lost in its texture.

## Key results

- `Frame.isLit_eq_pixel`, `Frame.stamp_eq_draw`: masks find and draw the same pixels
- `Frame.getElem?_pixels`, `Frame.getElem?_texture`: where a pixel is in the lists
- `Frame.ofTexture_texture`: the frame that a texture shows
- `Frame.views_agree`: what this says of every frame that was drawn
-/

namespace Chip8.Frame

/-! ## Masks -/

private theorem toNat_maskOf {column : Nat} (h : column < 8) :
    (maskOf column).toNat = 1 <<< (7 - column) := by
  have hall : ∀ column < 8, (maskOf column).toNat = 1 <<< (7 - column) := by decide
  exact hall column h

/-- A byte has a bit in common with a mask if it has the bit of the mask. -/
theorem and_maskOf_ne_zero (bits : UInt8) {column : Nat} (h : column < 8) :
    (bits &&& maskOf column != 0) = bits.toNat.testBit (7 - column) := by
  have hand : (bits &&& maskOf column).toNat =
      (bits.toNat.testBit (7 - column)).toNat * 2 ^ (7 - column) := by
    -- What two bytes have in common is one bit of the first, shifted to its place, or nothing.
    rw [UInt8.toNat_and, toNat_maskOf h, Nat.one_shiftLeft, Nat.and_two_pow]
  cases hbit : bits.toNat.testBit (7 - column) with
  | false =>
    rw [hbit, Bool.toNat_false, Nat.zero_mul] at hand
    rw [bne_eq_false_iff_eq]
    exact UInt8.toNat_inj.1 hand
  | true =>
    rw [hbit, Bool.toNat_true, Nat.one_mul] at hand
    rw [bne_iff_ne]
    intro hzero
    rw [hzero] at hand
    exact absurd hand.symm (Nat.ne_of_gt (Nat.two_pow_pos _))

/-- Where a pixel is kept, by its byte and its bit. -/
theorem locate_eq (x y : Nat) : locate x y = ⟨byteIndex x y, maskOf (x % 8)⟩ := by
  have hbyte : y % 32 * 64 / 8 + x % 64 / 8 = y % 32 * 8 + x % 64 / 8 := by omega
  have hcolumn : x % 64 % 8 = x % 8 := by omega
  simp only [locate, byteIndex, hbyte, hcolumn]

theorem isLit_eq_pixel (f : Frame) (x y : Nat) : f.isLit (locate x y) = f.pixel x y := by
  rw [locate_eq, isLit, and_maskOf_ne_zero _ (Nat.mod_lt x (by decide))]
  rfl

theorem flip_eq_toggle (f : Frame) (x y : Nat) : f.flip (locate x y) = f.toggle x y := by
  have hmask : maskOf (x % 8) = UInt8.ofNat (1 <<< bitIndex x) := by
    rw [bitIndex, ← toNat_maskOf (Nat.mod_lt x (by decide)), UInt8.ofNat_toNat]
  rw [locate_eq, hmask]
  rfl

/-! ## Drawing by masks -/

theorem strike_eq (drawn : Frame × Bool) (x y : Nat) :
    strike drawn x y = (drawn.1.toggle x y, drawn.2 || drawn.1.pixel x y) := by
  -- A flip turns a pixel off if the pixel was lit.
  have hoff : (drawn.1.toggle x y).pixel x y = !drawn.1.pixel x y := by
    rw [pixel_toggle, if_pos ⟨rfl, rfl⟩]
  simp only [strike, flip_eq_toggle, isLit_eq_pixel, hoff, Bool.not_not, Bool.and_self]

/-- Pixels that are struck one after the other are flipped one after the other. -/
theorem foldl_strike (drawn : Frame × Bool) (cells : List (Nat × Nat)) :
    cells.foldl (fun drawn cell => strike drawn cell.1 cell.2) drawn =
      ((drawn.1.plot cells).1, drawn.2 || (drawn.1.plot cells).2) := by
  induction cells generalizing drawn with
  | nil => simp [plot]
  | cons cell rest ih => rw [List.foldl_cons, ih, strike_eq, plot_cons, Bool.or_assoc]

/-- A row of a sprite strikes the pixels of its set bits. -/
theorem stampRow_eq (drawn : Frame × Bool) (x y : Nat) (bits : UInt8) :
    stampRow drawn x y bits =
      ((List.range 8).filter fun column => bits.toNat.testBit (bitIndex column)).foldl
        (fun drawn column => strike drawn (x + column) y) drawn := by
  rw [List.foldl_filter, stampRow]
  apply List.foldl_ext
  intro drawn column hcolumn
  have hlt : column < 8 := List.mem_range.1 hcolumn
  rw [and_maskOf_ne_zero bits hlt, bitIndex, Nat.mod_eq_of_lt hlt]

theorem stamp_eq_draw (f : Frame) (x y : Nat) (sprite : List UInt8) :
    f.stamp x y sprite = f.draw x y sprite := by
  have hcells := foldl_strike (f, false) (positions x y sprite)
  rw [Bool.false_or] at hcells
  -- Both go over the same pixels, the one by rows and columns and the other as a list.
  rw [draw_eq_plot]
  refine Eq.trans ?_ hcells
  rw [positions, cells, List.foldl_map, List.foldl_flatMap, stamp]
  apply List.foldl_ext
  rintro drawn ⟨bits, row⟩ -
  simp only [stampRow_eq, List.foldl_map]

/-! ## Lists of pixels -/

/-- The pixels are listed by their rows, and in a row by their columns. -/
theorem getElem?_pixels (f : Frame) {i : Nat} (hi : i < 2048) :
    f.pixels[i]? = some (f.pixel (i % 64) (i / 64)) := by
  have hplace : 64 * (i / 64) + i % 64 = i := Nat.div_add_mod i 64
  have hrow : i / 64 < height := show i / 64 < 32 by omega
  have hcolumn : i % 64 < width := Nat.mod_lt i (by decide)
  have hlength : ∀ y, ((List.range width).map fun x => f.pixel x y).length = 64 := fun y => by
    rw [List.length_map, List.length_range]
    rfl
  have hpieces := List.getElem?_flatMap_of_length hlength (List.range height) (i / 64) hcolumn
  rw [hplace, List.getElem?_range hrow, Option.bind_some, List.getElem?_map,
    List.getElem?_range hcolumn] at hpieces
  exact hpieces

private theorem length_triple (on : Bool) :
    (List.replicate 3 (if on then (255 : UInt8) else 0)).length = 3 := List.length_replicate

theorem length_texture (f : Frame) : f.texture.length = 6144 := by
  rw [texture, List.length_flatMap_of_length length_triple, length_pixels]

/-- The three bytes of a pixel are where its number says. -/
theorem getElem?_texture (f : Frame) {i c : Nat} (hi : i < 2048) (hc : c < 3) :
    f.texture[3 * i + c]? = some (if f.pixel (i % 64) (i / 64) then 255 else 0) := by
  rw [texture, List.getElem?_flatMap_of_length length_triple _ _ hc, getElem?_pixels f hi,
    Option.bind_some, List.getElem?_replicate, if_pos hc]

/-! ## From a texture to its frame -/

/-- The pixels that are white in a texture: column and row. -/
def whitePixels (texture : List UInt8) : List (Nat × Nat) :=
  ((List.range 2048).filter fun i => texture[3 * i]? = some 255).map fun i => (i % 64, i / 64)

/-- The frame with the pixels lit that are white in a texture. -/
def ofTexture (texture : List UInt8) : Frame := (blank.plot (whitePixels texture)).1

theorem pairwise_whitePixels (texture : List UInt8) :
    (whitePixels texture).Pairwise (¬SamePixel · ·) := by
  rw [whitePixels, List.pairwise_map]
  apply ((List.nodup_range (n := 2048)).filter _).pairwise_of_forall_ne
  -- The number of a pixel can be told from its column and its row.
  intro i hi j hj hne ⟨hcolumn, hrow⟩
  have hi := List.mem_range.1 (List.mem_of_mem_filter hi)
  have hj := List.mem_range.1 (List.mem_of_mem_filter hj)
  simp only at hcolumn hrow
  omega

/-- A pixel is white in the texture of a frame if it is lit. -/
theorem white_iff (f : Frame) {i : Nat} (hi : i < 2048) :
    f.texture[3 * i]? = some 255 ↔ f.pixel (i % 64) (i / 64) = true := by
  have htexture := getElem?_texture f hi (c := 0) (by decide)
  rw [Nat.add_zero] at htexture
  rw [htexture, Option.some.injEq]
  cases f.pixel (i % 64) (i / 64) <;> decide

/-- The white pixels of the texture of a frame are its lit pixels. -/
theorem exists_mem_whitePixels_iff (f : Frame) (p : Nat × Nat) :
    (∃ cell ∈ whitePixels f.texture, SamePixel cell p) ↔ f.pixel p.1 p.2 = true := by
  constructor
  · rintro ⟨cell, hcell, hsame⟩
    obtain ⟨i, hi, rfl⟩ := List.mem_map.1 hcell
    obtain ⟨hrange, hwhite⟩ := List.mem_filter.1 hi
    rw [← pixel_congr f hsame]
    exact (white_iff f (List.mem_range.1 hrange)).1 (of_decide_eq_true hwhite)
  · intro hlit
    -- The pixel is taken at its place on the screen, from which its number is made.
    let i := 64 * (p.2 % 32) + p.1 % 64
    have hi : i < 2048 := by omega
    have hsame : SamePixel (i % 64, i / 64) p := by
      simp only [SamePixel]
      omega
    have hwhite : f.texture[3 * i]? = some 255 :=
      (white_iff f hi).2 ((pixel_congr f hsame).trans hlit)
    refine ⟨(i % 64, i / 64), ?_, hsame⟩
    exact List.mem_map.2 ⟨i, List.mem_filter.2 ⟨List.mem_range.2 hi, decide_eq_true hwhite⟩, rfl⟩

/-- A pixel of a blank frame is dark. -/
theorem pixel_blank (x y : Nat) : blank.pixel x y = false := by
  simp [pixel, blank]

theorem ofTexture_texture (f : Frame) : ofTexture f.texture = f := by
  apply eq_of_pixel_eq
  intro p
  have hodd := odd_visits_iff (pairwise_whitePixels f.texture) p
  rw [exists_mem_whitePixels_iff] at hodd
  rw [ofTexture, pixel_plot, pixel_blank, Bool.false_xor, Bool.eq_iff_iff, decide_eq_true_iff, hodd]

/-! ## Drawn frames -/

/-- What is asked of a frame that changes it. -/
inductive Change where
  | draw (drawing : Drawing)
  | clear

/-- The frame after a change.  Sprites are drawn by masks. -/
def change (f : Frame) : Change → Frame
  | .draw d => (f.stamp d.x d.y d.sprite).1
  | .clear => blank

/-- A new frame after changes one after the other. -/
def drawn (changes : List Change) : Frame := changes.foldl change blank

/-- Every frame that is drawn looks the same in all its views.  The pixel that is found by a mask is
    one bit of one byte, and a sprite that is drawn by masks flips such pixels one by one; it is the
    pixel with its number in the list of all 2048; and in the texture the three bytes with its
    number are white if it is lit, and black otherwise.  The texture tells which frame it shows, so
    different frames have different textures. -/
theorem views_agree (changes : List Change) :
    let f := drawn changes
    (∀ x y, f.isLit (locate x y) =
      f.bytes[8 * (y % 32) + x % 64 / 8].toNat.testBit (7 - x % 8)) ∧
    (∀ x y sprite, f.stamp x y sprite = f.plot (positions x y sprite)) ∧
    (f.pixels.length = 2048 ∧
      ∀ i < 2048, f.pixels[i]? = some (f.isLit (locate (i % 64) (i / 64)))) ∧
    (f.texture.length = 6144 ∧
      ∀ i < 2048, ∀ c < 3,
        f.texture[3 * i + c]? = some (if f.isLit (locate (i % 64) (i / 64)) then 255 else 0)) ∧
    ofTexture f.texture = f ∧
    ∀ others, f ≠ drawn others → f.texture ≠ (drawn others).texture := by
  intro f
  refine ⟨fun x y => ?_, f.stamp_eq_draw, ⟨length_pixels f, fun i hi => ?_⟩,
    ⟨length_texture f, fun i hi c hc => ?_⟩, ofTexture_texture f, fun others hne htexture => hne ?_⟩
  · have hbyte : (byteIndex x y).val = 8 * (y % 32) + x % 64 / 8 := by
      rw [byteIndex, Nat.mul_comm 8]
    simp only [isLit_eq_pixel, pixel, bitIndex, Fin.getElem_fin, hbyte]
  · rw [isLit_eq_pixel, getElem?_pixels f hi]
  · rw [isLit_eq_pixel, getElem?_texture f hi hc]
  · rw [← ofTexture_texture f, htexture, ofTexture_texture]

/-- A sprite around the lower right corner is drawn over, and another one is drawn in its place. -/
theorem views_agree_of_corner :
    let f := drawn [.draw ⟨0, 0, [0xFF]⟩, .clear, .draw ⟨62, 95, [0xC0, 0x30]⟩]
    let g := drawn [.draw ⟨62, 31, [0xC0, 0x10]⟩]
    (2047 < 2048 ∧ 2 < 3 ∧ f ≠ g) ∧ f.pixels[2047]? = some true ∧
      f.texture[3 * 2047 + 2]? = some 255 ∧ f.texture ≠ g.texture := by
  intro f g
  obtain ⟨-, -, ⟨-, hpixels⟩, ⟨-, htexture⟩, -, hdifferent⟩ :=
    views_agree [.draw ⟨0, 0, [0xFF]⟩, .clear, .draw ⟨62, 95, [0xC0, 0x30]⟩]
  have hlit : f.isLit (locate (2047 % 64) (2047 / 64)) = true := by decide +kernel
  -- The frames differ in the upper left corner.
  have hcorner : f.isLit (locate 0 0) ≠ g.isLit (locate 0 0) := by decide +kernel
  have hne : f ≠ g := fun h => hcorner (congrArg (·.isLit (locate 0 0)) h)
  refine ⟨⟨by decide, by decide, hne⟩, ?_, ?_, hdifferent _ hne⟩
  · exact (hpixels 2047 (by decide)).trans (congrArg some hlit)
  · rw [htexture 2047 (by decide) 2 (by decide), if_pos hlit]

end Chip8.Frame
