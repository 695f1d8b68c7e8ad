import Chip8.Proofs.SpriteDrawing

/-!
# Drawing several sprites

What several drawings leave on the display is up to how often each pixel is flipped in all, and
so the order in which they are made does not matter.  Every drawing undoes itself, and drawings
that are made again, in any order, leave nothing behind.

## Key results

- `Frame.eq_of_pixel_eq`: a frame is known by its pixels
- `Frame.plot_perm`, `Frame.plot_cancel`: flips commute and cancel
- `Frame.drawAll_eq_plot`: several drawings are the flips of all their set bits
- `Frame.collides_twice_iff`: of two drawings of one sprite at one place, one meets a lit pixel
- `Frame.drawings_commute_and_cancel`: what this says of the drawings
-/

namespace Chip8

/-- A sprite to be drawn with its corner at `x`, `y`. -/
structure Drawing where
  x : Nat
  y : Nat
  sprite : List UInt8

namespace Frame

/-- Draw sprites one after the other: the new frame, and for each whether it collided. -/
def drawAll (f : Frame) : List Drawing → Frame × List Bool
  | [] => (f, [])
  | d :: rest =>
    let drawn := f.draw d.x d.y d.sprite
    let later := drawn.1.drawAll rest
    (later.1, drawn.2 :: later.2)

/-! ## Flips in any order -/

/-- A byte has eight bits. -/
private theorem testBit_of_ge (b : UInt8) {k : Nat} (hk : 8 ≤ k) : b.toNat.testBit k = false := by
  apply Nat.testBit_lt_two_pow
  exact Nat.lt_of_lt_of_le b.toNat_lt (Nat.pow_le_pow_right (by decide) hk)

/-- Every bit of a frame is a pixel. -/
theorem testBit_byte (f : Frame) {i k : Nat} (hi : i < 256) (hk : k < 8) :
    f.bytes[i].toNat.testBit k = f.pixel (i % 8 * 8 + (7 - k)) (i / 8) := by
  rw [pixel_eq_testBit f (by omega) (by omega)]
  have hbyte : 8 * (i / 8) + (i % 8 * 8 + (7 - k)) / 8 = i := by omega
  have hbit : 7 - (i % 8 * 8 + (7 - k)) % 8 = k := by omega
  simp only [hbyte, hbit]

/-- A frame is known by its pixels. -/
theorem eq_of_pixel_eq {f g : Frame} (h : ∀ p : Nat × Nat, f.pixel p.1 p.2 = g.pixel p.1 p.2) :
    f = g := by
  have hbytes : f.bytes = g.bytes := by
    apply Vector.ext
    intro i hi
    apply UInt8.toNat_inj.1
    apply Nat.eq_of_testBit_eq
    intro k
    -- Bits below the eighth are pixels, and there are no others.
    by_cases hk : k < 8
    · rw [testBit_byte f hi hk, testBit_byte g hi hk]
      exact h (_, _)
    · rw [testBit_of_ge _ (by omega), testBit_of_ge _ (by omega)]
  cases f
  cases g
  cases hbytes
  rfl

/-- The order of flips does not matter. -/
theorem plot_perm (f : Frame) {cells cells' : List (Nat × Nat)} (h : cells.Perm cells') :
    (f.plot cells).1 = (f.plot cells').1 := by
  apply eq_of_pixel_eq
  intro p
  -- How often a pixel is visited does not depend on the order, and that is all it depends on.
  have hvisits : visits cells p = visits cells' p := h.countP_eq _
  rw [pixel_plot, pixel_plot, hvisits]

/-- Flips that are made again, in any order, cancel. -/
theorem plot_cancel (f : Frame) {cells cells' : List (Nat × Nat)} (h : cells.Perm cells') :
    ((f.plot cells).1.plot cells').1 = f := by
  apply eq_of_pixel_eq
  intro p
  have hvisits : visits cells p = visits cells' p := h.countP_eq _
  -- Each pixel is visited twice as often in all, and so flipped back.
  rw [pixel_plot, pixel_plot, hvisits, Bool.xor_assoc, Bool.xor_self, Bool.xor_false]

theorem plot_append (f : Frame) (cells cells' : List (Nat × Nat)) :
    (f.plot (cells ++ cells')).1 = ((f.plot cells).1.plot cells').1 := by
  induction cells generalizing f with
  | nil => rfl
  | cons c rest ih => exact ih (f.toggle c.1 c.2)

/-! ## Drawings in any order -/

/-- Several drawings flip the pixels of all their set bits. -/
theorem drawAll_eq_plot (f : Frame) (ds : List Drawing) :
    (f.drawAll ds).1 = (f.plot (ds.flatMap fun d => positions d.x d.y d.sprite)).1 := by
  induction ds generalizing f with
  | nil => rfl
  | cons d rest ih =>
    rw [List.flatMap_cons, plot_append, ← draw_eq_plot]
    exact ih _

/-- Two drawings are of one sprite, with the corner at the same pixel. -/
def SameCorner (d d' : Drawing) : Prop :=
  d.sprite = d'.sprite ∧ SamePixel (d.x, d.y) (d'.x, d'.y)

/-- What several drawings come to is up to the sprites and the pixels of their corners. -/
theorem drawAll_congr (f : Frame) {ds ds' : List Drawing} (h : List.Forall₂ SameCorner ds ds') :
    f.drawAll ds = f.drawAll ds' := by
  induction h generalizing f with
  | nil => rfl
  | cons hd hrest ih =>
    -- Neither the frame nor the collision tells the two corners apart.
    obtain ⟨hsprite, hx, hy⟩ := hd
    simp only [drawAll, hsprite, draw_congr f hx hy, ih]

/-! ## A drawing made twice -/

/-- A sprite has a cell if it has a set bit. -/
theorem exists_mem_cells_iff {sprite : List UInt8} :
    (∃ cell, cell ∈ cells sprite) ↔ ∃ bits ∈ sprite, ∃ k, bits.toNat.testBit k = true := by
  constructor
  · -- A cell is a set bit, at the column that counts from the other side.
    rintro ⟨⟨column, row⟩, hcell⟩
    obtain ⟨-, bits, hbits, htest⟩ := mem_cells_iff.1 hcell
    exact ⟨bits, List.mem_of_getElem? hbits, _, htest⟩
  · rintro ⟨bits, hbits, k, htest⟩
    obtain ⟨row, hrow⟩ := List.getElem?_of_mem hbits
    have hk : k < 8 := by
      by_contra hge
      rw [testBit_of_ge bits (by omega)] at htest
      exact nomatch htest
    refine ⟨(7 - k, row), mem_cells_iff.2 ⟨by omega, bits, hrow, ?_⟩⟩
    rwa [show 7 - (7 - k) = k by omega]

/-- When flips that meet no pixel twice are made twice in a row, a collision is noticed if there
    are any. -/
theorem collides_twice_iff (f : Frame) {cells : List (Nat × Nat)}
    (h : cells.Pairwise (¬SamePixel · ·)) :
    ((f.plot cells).2 = true ∨ ((f.plot cells).1.plot cells).2 = true) ↔ ∃ c, c ∈ cells := by
  -- Flips that meet no pixel twice collide where they meet one that is lit.
  rw [plot_snd_eq_true_iff f h, plot_snd_eq_true_iff _ h]
  constructor
  · rintro (⟨c, hc, -⟩ | ⟨c, hc, -⟩)
    · exact ⟨c, hc⟩
    · exact ⟨c, hc⟩
  · rintro ⟨c, hc⟩
    -- The first flip turns the pixel over, so one of the two finds it lit.
    have hflipped : (f.plot cells).1.pixel c.1 c.2 = !f.pixel c.1 c.2 := by
      rw [pixel_plot, decide_eq_true ((odd_visits_iff h c).2 ⟨c, hc, rfl, rfl⟩), Bool.xor_true]
    cases hlit : f.pixel c.1 c.2 with
    | true => exact .inl ⟨c, hc, hlit⟩
    | false =>
      rw [hlit] at hflipped
      exact .inr ⟨c, hc, hflipped⟩

/-- Drawings in another order give the same frame, and drawings that are made again, in any order,
    give back the frame from before.  To move the corner of a drawing by whole widths and heights
    of the display changes neither the frame nor any collision.  And of two drawings of a sprite
    of at most 32 rows at one place, one at least collides if and only if a bit of it is set. -/
theorem drawings_commute_and_cancel (f : Frame) :
    (∀ ds ds' : List Drawing, ds.Perm ds' →
      (f.drawAll ds').1 = (f.drawAll ds).1 ∧ ((f.drawAll ds).1.drawAll ds').1 = f) ∧
    (∀ (before after : List Drawing) (d : Drawing) (widths heights : Nat),
      let moved := { d with x := d.x + 64 * widths, y := d.y + 32 * heights }
      f.drawAll (before ++ moved :: after) = f.drawAll (before ++ d :: after)) ∧
    ∀ (x y : Nat) (sprite : List UInt8), sprite.length ≤ 32 →
      let first := f.draw x y sprite
      let second := first.1.draw x y sprite
      (first.2 = true ∨ second.2 = true) ↔ ∃ bits ∈ sprite, ∃ k, bits.toNat.testBit k = true := by
  refine ⟨fun ds ds' hperm => ?_, fun before after d widths heights => ?_,
    fun x y sprite hrows => ?_⟩
  · -- The flips of the drawings are in another order as well.
    have hflips := hperm.flatMap_right fun d => positions d.x d.y d.sprite
    rw [drawAll_eq_plot, drawAll_eq_plot, drawAll_eq_plot]
    exact ⟨(f.plot_perm hflips).symm, f.plot_cancel hflips⟩
  · -- The other drawings stay where they are.
    have hsame : ∀ ds : List Drawing, List.Forall₂ SameCorner ds ds := fun ds =>
      List.forall₂_same.2 fun _ _ => ⟨rfl, rfl, rfl⟩
    have hmoved : SameCorner { d with x := d.x + 64 * widths, y := d.y + 32 * heights } d :=
      ⟨rfl, Nat.add_mul_mod_self_left _ _ _, Nat.add_mul_mod_self_left _ _ _⟩
    exact f.drawAll_congr (List.rel_append (hsame before) (.cons hmoved (hsame after)))
  · -- The second drawing flips the same positions as the first one.
    show ((f.plot (positions x y sprite)).2 = true ∨ _) ↔ _
    rw [← exists_mem_cells_iff]
    refine (f.collides_twice_iff (pairwise_positions x y hrows)).trans ?_
    simp [positions]

/-- Two sprites that overlap around a corner of the display, in either order and with one of them
    moved, and a sprite with a single bit that is drawn twice. -/
theorem drawings_commute_and_cancel_of_overlap :
    let cross : Drawing := ⟨62, 31, [0x18, 0xFF, 0x18]⟩
    let bar : Drawing := ⟨1, 0, [0xF0]⟩
    let f := (blank.draw 0 0 [0x80]).1
    [cross, bar].Perm [bar, cross] ∧ (f.drawAll [bar, cross]).1 = (f.drawAll [cross, bar]).1 ∧
      ((f.drawAll [cross, bar]).1.drawAll [bar, cross]).1 = f ∧
      f.drawAll [cross, ⟨65, 64, [0xF0]⟩] = f.drawAll [cross, bar] ∧
      ((f.draw 62 31 [0, 0x01]).2 = true ∨
        ((f.draw 62 31 [0, 0x01]).1.draw 62 31 [0, 0x01]).2 = true) := by
  intro cross bar f
  obtain ⟨hperm, hmoved, htwice⟩ := drawings_commute_and_cancel f
  have hswap : [cross, bar].Perm [bar, cross] := .swap bar cross []
  obtain ⟨hcommute, hcancel⟩ := hperm _ _ hswap
  refine ⟨hswap, hcommute, hcancel, hmoved [cross] [] bar 1 2, ?_⟩
  exact (htwice 62 31 [0, 0x01] (by decide)).2 ⟨0x01, by decide, 0, by decide⟩

end Frame

end Chip8
