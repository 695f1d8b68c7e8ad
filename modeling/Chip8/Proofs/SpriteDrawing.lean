import Chip8.Proofs.InstructionCode
import Chip8.Proofs.MachineInvariant
import Mathlib.Algebra.Ring.Parity
import Mathlib.Data.Finset.Card
import Mathlib.Data.Finset.Prod
import Mathlib.Data.List.Sigma

/-!
# Drawing a sprite

The display is a torus: every position names a pixel, and so do the positions that are a whole
number of widths or heights away from it.  Drawing flips a pixel once for every set bit of the
sprite that falls on it, so a pixel ends up changed if an odd number of bits fall on it.

A sprite of at most 32 rows does not reach around the torus and meets no pixel twice.  Each pixel
is then met as it was before the drawing, and the collision that is noticed on the way is the
same as one between the frame before and the frame after.

## Key results

- `Frame.pixel_plot`: a pixel changes with the parity of how often it is flipped
- `Frame.plot_collides_iff`: what a collision is when no pixel is flipped twice
- `Frame.mem_cells_iff`, `Frame.nodup_cells`: the set bits of a sprite, each of them once
- `Frame.pairwise_positions`: a sprite of at most 32 rows meets no pixel twice
- `execute_draw`: what the instruction draws, and where
- `draw_flips_covered`: what drawing does to a frame, and what a collision is
-/

namespace Chip8

namespace Frame

/-! ## Pixels of a torus -/

/-- Two positions, column and row, name the same pixel. -/
def SamePixel (a b : Nat × Nat) : Prop := a.1 % 64 = b.1 % 64 ∧ a.2 % 32 = b.2 % 32

instance (a b : Nat × Nat) : Decidable (SamePixel a b) := inferInstanceAs (Decidable (_ ∧ _))

theorem SamePixel.symm {a b : Nat × Nat} (h : SamePixel a b) : SamePixel b a :=
  ⟨h.1.symm, h.2.symm⟩

theorem SamePixel.trans {a b c : Nat × Nat} (h : SamePixel a b) (h' : SamePixel b c) :
    SamePixel a c :=
  ⟨h.1.trans h'.1, h.2.trans h'.2⟩

theorem pixel_congr (f : Frame) {a b : Nat × Nat} (h : SamePixel a b) :
    f.pixel a.1 a.2 = f.pixel b.1 b.2 := by
  obtain ⟨hbyte, hbit⟩ := (same_place_iff a.1 a.2 b.1 b.2).2 h
  simp only [pixel, hbyte, hbit]

theorem toggle_congr (f : Frame) {a b : Nat × Nat} (h : SamePixel a b) :
    f.toggle a.1 a.2 = f.toggle b.1 b.2 := by
  obtain ⟨hbyte, hbit⟩ := (same_place_iff a.1 a.2 b.1 b.2).2 h
  simp only [toggle, hbyte, hbit]

/-- The bit that holds a pixel of the display. -/
theorem pixel_eq_testBit (f : Frame) {px py : Nat} (hx : px < 64) (hy : py < 32) :
    f.pixel px py = f.bytes[8 * py + px / 8].toNat.testBit (7 - px % 8) := by
  have hindex : (byteIndex px py).val = 8 * py + px / 8 := by
    simp only [byteIndex]
    omega
  simp only [pixel, bitIndex, Fin.getElem_fin, hindex]

/-- A flip changes the pixel that it names. -/
theorem pixel_toggle_eq_xor (f : Frame) (c p : Nat × Nat) :
    (f.toggle c.1 c.2).pixel p.1 p.2 = (f.pixel p.1 p.2 ^^ decide (SamePixel c p)) := by
  rw [pixel_toggle]
  show (if SamePixel c p then _ else _) = _
  by_cases h : SamePixel c p
  · rw [if_pos h, decide_eq_true h, Bool.xor_true]
  · rw [if_neg h, decide_eq_false h, Bool.xor_false]

/-- How often the cells of a list name a pixel. -/
def visits (cells : List (Nat × Nat)) (p : Nat × Nat) : Nat := cells.countP (SamePixel · p)

theorem visits_cons (c : Nat × Nat) (cells : List (Nat × Nat)) (p : Nat × Nat) :
    visits (c :: cells) p = visits cells p + (decide (SamePixel c p)).toNat := by
  rw [visits, List.countP_cons]
  by_cases h : SamePixel c p <;> simp [h, visits]

/-- A pixel that is flipped an odd number of times changes, and no other one does. -/
theorem pixel_plot (f : Frame) (cells : List (Nat × Nat)) (p : Nat × Nat) :
    (f.plot cells).1.pixel p.1 p.2 = (f.pixel p.1 p.2 ^^ decide (Odd (visits cells p))) := by
  induction cells generalizing f with
  | nil => simp [plot, visits]
  | cons c rest ih =>
    rw [plot_cons, ih, pixel_toggle_eq_xor, visits_cons, Bool.xor_assoc]
    congr 1
    -- One more visit changes the parity.
    by_cases h : SamePixel c p
    · rw [decide_eq_true h, Bool.toNat_true, decide_eq_decide.2 Nat.odd_add_one,
        decide_not, Bool.true_xor]
    · rw [decide_eq_false h, Bool.toNat_false, Nat.add_zero, Bool.false_xor]

/-- Cells that name the same pixels are flipped alike. -/
theorem plot_congr {cells cells' : List (Nat × Nat)} (h : List.Forall₂ SamePixel cells cells')
    (f : Frame) : f.plot cells = f.plot cells' := by
  induction h generalizing f with
  | nil => rfl
  | cons hc hrest ih => rw [plot_cons, plot_cons, toggle_congr f hc, pixel_congr f hc, ih]

/-! ## Flips that do not meet -/

/-- Of cells that name different pixels one at most names a given pixel. -/
theorem visits_le_one {cells : List (Nat × Nat)} (h : cells.Pairwise (¬SamePixel · ·))
    (p : Nat × Nat) : visits cells p ≤ 1 := by
  induction cells with
  | nil => exact Nat.zero_le 1
  | cons c rest ih =>
    rw [List.pairwise_cons] at h
    rw [visits_cons]
    by_cases hc : SamePixel c p
    · have hrest : visits rest p = 0 := by
        apply List.countP_eq_zero.2
        intro c' hc' hp
        exact h.1 c' hc' (hc.trans (of_decide_eq_true hp).symm)
      rw [hrest, decide_eq_true hc]
      exact Nat.le_refl 1
    · rw [decide_eq_false hc]
      exact ih h.2

/-- A cell that names a pixel of its own is an odd number of visits to it. -/
theorem odd_visits_iff {cells : List (Nat × Nat)} (h : cells.Pairwise (¬SamePixel · ·))
    (p : Nat × Nat) : Odd (visits cells p) ↔ ∃ c ∈ cells, SamePixel c p := by
  have hle := visits_le_one h p
  have hpos : 0 < visits cells p ↔ ∃ c ∈ cells, SamePixel c p := by
    simp [visits, List.countP_pos_iff]
  rw [← hpos, Nat.odd_iff]
  omega

/-- When no pixel is flipped twice, a collision is noticed if a pixel that is flipped was lit
    before. -/
theorem plot_snd_eq_true_iff (f : Frame) {cells : List (Nat × Nat)}
    (h : cells.Pairwise (¬SamePixel · ·)) :
    (f.plot cells).2 = true ↔ ∃ c ∈ cells, f.pixel c.1 c.2 = true := by
  induction cells generalizing f with
  | nil => simp [plot]
  | cons c rest ih =>
    rw [List.pairwise_cons] at h
    rw [plot_cons, Bool.or_eq_true, ih _ h.2, List.exists_mem_cons_iff]
    -- The first flip leaves alone what the later ones meet.
    have hrest : ∀ c' ∈ rest, (f.toggle c.1 c.2).pixel c'.1 c'.2 = f.pixel c'.1 c'.2 := by
      intro c' hc'
      rw [pixel_toggle_eq_xor, decide_eq_false (h.1 c' hc'), Bool.xor_false]
    refine or_congr Iff.rfl (exists_congr fun c' => and_congr_right fun hc' => ?_)
    rw [hrest c' hc']

/-- When no pixel is flipped twice, a collision is noticed if a pixel that was lit is dark in
    the end. -/
theorem plot_collides_iff (f : Frame) {cells : List (Nat × Nat)}
    (h : cells.Pairwise (¬SamePixel · ·)) :
    (f.plot cells).2 = true ↔
      ∃ px < 64, ∃ py < 32, f.pixel px py = true ∧ (f.plot cells).1.pixel px py = false := by
  rw [plot_snd_eq_true_iff f h]
  constructor
  · -- A pixel that is lit and flipped, once, is dark in the end.
    rintro ⟨c, hc, hlit⟩
    have hsame : SamePixel c (c.1 % 64, c.2 % 32) := by
      simp only [SamePixel]
      omega
    refine ⟨c.1 % 64, by omega, c.2 % 32, by omega, ?_⟩
    have hbefore : f.pixel (c.1 % 64) (c.2 % 32) = true := by
      rw [← hlit]
      exact (pixel_congr f hsame).symm
    refine ⟨hbefore, ?_⟩
    have hodd := (odd_visits_iff h (c.1 % 64, c.2 % 32)).2 ⟨c, hc, hsame⟩
    rw [pixel_plot f cells (c.1 % 64, c.2 % 32), decide_eq_true hodd, hbefore]
    rfl
  · -- A pixel that has changed was flipped by some cell.
    rintro ⟨px, -, py, -, hlit, hdark⟩
    rw [pixel_plot f cells (px, py), hlit, Bool.true_xor, Bool.not_eq_false',
      decide_eq_true_eq, odd_visits_iff h] at hdark
    obtain ⟨c, hc, hsame⟩ := hdark
    exact ⟨c, hc, (pixel_congr f hsame).trans hlit⟩

/-! ## The set bits of a sprite -/

/-- The cells of a sprite are its set bits. -/
theorem mem_cells_iff {sprite : List UInt8} {column row : Nat} :
    (column, row) ∈ cells sprite ↔
      column < 8 ∧ ∃ bits, sprite[row]? = some bits ∧ bits.toNat.testBit (7 - column) = true := by
  have hindex : ∀ {k}, k < 8 → bitIndex k = 7 - k := fun h => by
    rw [bitIndex, Nat.mod_eq_of_lt h]
  simp only [cells, List.mem_flatMap, List.mem_map, List.mem_filter, List.mem_range, Prod.exists,
    Prod.mk.injEq, List.mem_zipIdx_iff_getElem?]
  constructor
  · -- In both directions only the columns count, which the bits have from the left.
    rintro ⟨bits, _, hbits, k, ⟨hk, htest⟩, rfl, rfl⟩
    rw [hindex hk] at htest
    exact ⟨hk, bits, hbits, htest⟩
  · rintro ⟨hcolumn, bits, hbits, htest⟩
    rw [← hindex hcolumn] at htest
    exact ⟨bits, row, hbits, column, ⟨hcolumn, htest⟩, rfl, rfl⟩

theorem lt_length_of_mem_cells {sprite : List UInt8} {cell : Nat × Nat}
    (h : cell ∈ cells sprite) : cell.2 < sprite.length := by
  obtain ⟨-, bits, hbits, -⟩ := mem_cells_iff.1 h
  exact (List.getElem?_eq_some_iff.1 hbits).1

/-- Each set bit is one cell. -/
theorem nodup_cells (sprite : List UInt8) : (cells sprite).Nodup := by
  rw [cells, List.nodup_flatMap]
  constructor
  · rintro ⟨bits, row⟩ -
    exact (List.nodup_range.filter _).map fun a b hab => (Prod.mk.inj hab).1
  · -- The cells of different rows differ in their rows.
    have hrows := List.nodup_zipIdx_map_snd sprite
    rw [List.Nodup, List.pairwise_map] at hrows
    refine hrows.imp fun {a b} hne => List.disjoint_left.2 ?_
    intro cell ha hb
    obtain ⟨_, -, rfl⟩ := List.mem_map.1 ha
    obtain ⟨_, -, heq⟩ := List.mem_map.1 hb
    exact hne (Prod.mk.inj heq).2.symm

/-- Where the set bits of a sprite fall that has its corner at `x`, `y`. -/
def positions (x y : Nat) (sprite : List UInt8) : List (Nat × Nat) :=
  (cells sprite).map fun cell => (x + cell.1, y + cell.2)

theorem draw_eq_plot (f : Frame) (x y : Nat) (sprite : List UInt8) :
    f.draw x y sprite = f.plot (positions x y sprite) := rfl

/-- Where a sprite is drawn is up to the pixel that its corner falls on. -/
theorem draw_congr (f : Frame) {x y x' y' : Nat} (hx : x % 64 = x' % 64) (hy : y % 32 = y' % 32)
    (sprite : List UInt8) : f.draw x y sprite = f.draw x' y' sprite := by
  rw [draw_eq_plot, draw_eq_plot, positions, positions]
  apply plot_congr
  rw [List.forall₂_map_left_iff, List.forall₂_map_right_iff]
  apply List.forall₂_same.2
  intro cell _
  simp only [SamePixel]
  omega

/-- A sprite of at most 32 rows meets no pixel twice: it is no wider and no higher than the
    display. -/
theorem pairwise_positions (x y : Nat) {sprite : List UInt8} (h : sprite.length ≤ 32) :
    (positions x y sprite).Pairwise (¬SamePixel · ·) := by
  rw [positions, List.pairwise_map]
  apply (nodup_cells sprite).pairwise_of_forall_ne
  -- Two cells on one pixel would differ by a multiple of the width or of the height.
  rintro ⟨column, row⟩ ha ⟨column', row'⟩ hb hne ⟨hx, hy⟩
  have hcolumn := (mem_cells_iff.1 ha).1
  have hcolumn' := (mem_cells_iff.1 hb).1
  have hrow := lt_length_of_mem_cells ha
  have hrow' := lt_length_of_mem_cells hb
  simp only at hx hy hrow hrow'
  apply hne
  rw [Prod.mk.injEq]
  omega

/-- The set bits of a sprite with its corner at `x`, `y` that fall on a pixel, by row and
    column. -/
def covering (x y : Nat) (sprite : List UInt8) (px py : Nat) : Finset (Nat × Nat) :=
  (Finset.range sprite.length ×ˢ Finset.range 8).filter fun (row, column) =>
    (sprite.getD row 0).toNat.testBit (7 - column) ∧ (x + column) % 64 = px ∧ (y + row) % 32 = py

theorem mem_covering_iff {x y : Nat} {sprite : List UInt8} {px py row column : Nat} :
    (row, column) ∈ covering x y sprite px py ↔
      (column, row) ∈ cells sprite ∧ (x + column) % 64 = px ∧ (y + row) % 32 = py := by
  rw [covering, Finset.mem_filter, Finset.mem_product, Finset.mem_range, Finset.mem_range,
    mem_cells_iff]
  constructor
  · rintro ⟨⟨hrow, hcolumn⟩, htest, hplace⟩
    rw [List.getD_eq_getElem?_getD, List.getElem?_eq_getElem hrow] at htest
    exact ⟨⟨hcolumn, sprite[row], List.getElem?_eq_getElem hrow, htest⟩, hplace⟩
  · rintro ⟨⟨hcolumn, bits, hbits, htest⟩, hplace⟩
    have hrow := (List.getElem?_eq_some_iff.1 hbits).1
    refine ⟨⟨hrow, hcolumn⟩, ?_, hplace⟩
    rwa [List.getD_eq_getElem?_getD, hbits]

/-- A pixel is visited once for every set bit that falls on it. -/
theorem visits_positions (x y : Nat) (sprite : List UInt8) {px py : Nat} (hx : px < 64)
    (hy : py < 32) : visits (positions x y sprite) (px, py) = (covering x y sprite px py).card := by
  let falling := (cells sprite).filter fun cell => SamePixel (x + cell.1, y + cell.2) (px, py)
  have hlength : visits (positions x y sprite) (px, py) = falling.length := by
    rw [visits, positions, List.countP_map, List.countP_eq_length_filter]
    rfl
  have hnodup : falling.Nodup := (nodup_cells sprite).filter _
  -- The same bits are on both sides, by column and row on one and by row and column on the other.
  have hmem : ∀ cell : Nat × Nat,
      cell ∈ falling.toFinset ↔ cell.swap ∈ covering x y sprite px py := by
    rintro ⟨column, row⟩
    rw [List.mem_toFinset, List.mem_filter, Prod.swap_prod_mk, mem_covering_iff]
    simp [SamePixel, Nat.mod_eq_of_lt hx, Nat.mod_eq_of_lt hy]
  rw [hlength, ← List.toFinset_card_of_nodup hnodup]
  refine Finset.card_nbij' Prod.swap Prod.swap ?_ ?_ ?_ ?_
  · intro cell hcell
    exact (hmem cell).1 hcell
  · intro cell hcell
    exact (hmem cell.swap).2 (by rwa [Prod.swap_swap])
  · exact fun cell _ => cell.swap_swap
  · exact fun cell _ => cell.swap_swap

end Frame

/-! ## The instruction -/

/-- A sprite in memory is drawn at the values that the two registers have before the flag is
    written. -/
theorem execute_draw (vx vy : Register) {height : UInt8} {s : State} (r : RandomSource)
    (hin : s.i.toNat + height.toNat ≤ 4096) :
    let drawn := s.frame.draw (s.reg vx).toNat (s.reg vy).toNat
      (s.memory.bytes.window s.i.toNat height.toNat hin)
    execute (.draw vx vy height) s r =
      ⟨.ok .advance,
        { s with frame := drawn.1, v := s.v.set Register.flag (flagByte drawn.2) }, r⟩ := by
  intro drawn
  -- A register may hold more than there are columns and rows; both wrap around.
  have hdraw : s.frame.draw ((s.reg vx).toNat % 64) ((s.reg vy).toNat % 32)
      (s.memory.bytes.window s.i.toNat height.toNat hin) = drawn := by
    apply Frame.draw_congr
    · exact Nat.mod_mod _ _
    · exact Nat.mod_mod _ _
  simp only [execute, executeDraw, Memory.slice_of_le hin, attempt, Effect.undrawn, hdraw]
  rfl

/-- Drawing a sprite changes a pixel if an odd number of its set bits fall on it.

    If the sprite has at most 32 rows, as all have that instructions draw, a collision is noticed
    exactly when some pixel that was lit is dark in the end.  The instruction draws the bytes from
    `I` on at the values that its registers have before, and sets the flag if they collide. -/
theorem draw_flips_covered (f : Frame) (x y : Nat) (sprite : List UInt8) :
    let drawn := f.draw x y sprite
    (∀ px py : Nat, ∀ (_ : px < 64) (_ : py < 32),
      drawn.1.bytes[8 * py + px / 8].toNat.testBit (7 - px % 8) ≠
          f.bytes[8 * py + px / 8].toNat.testBit (7 - px % 8) ↔
        Odd (Frame.covering x y sprite px py).card) ∧
    (sprite.length ≤ 32 →
      (drawn.2 = true ↔
        ∃ px < 64, ∃ py < 32, f.pixel px py = true ∧ drawn.1.pixel px py = false)) ∧
    (∀ w vx vy height, Instruction.decode? w = some (.draw vx vy height) → height.toNat ≤ 32) ∧
    ∀ (vx vy : Register) (height : UInt8) (s : State) (r : RandomSource)
      (hin : s.i.toNat + height.toNat ≤ 4096),
      let drawn := s.frame.draw (s.reg vx).toNat (s.reg vy).toNat
        (s.memory.bytes.window s.i.toNat height.toNat hin)
      let flag : UInt8 := if drawn.2 then 1 else 0
      execute (.draw vx vy height) s r =
        ⟨.ok .advance, { s with frame := drawn.1, v := s.v.set Register.flag flag }, r⟩ := by
  intro drawn
  refine ⟨fun px py hx hy => ?_, fun hrows => ?_, fun w vx vy height hdecode => ?_,
    fun vx vy height s r hin => execute_draw vx vy r hin⟩
  · rw [← Frame.pixel_eq_testBit _ hx hy, ← Frame.pixel_eq_testBit _ hx hy,
      ← Frame.visits_positions x y sprite hx hy]
    have hplot := f.pixel_plot (Frame.positions x y sprite) (px, py)
    have hxor : ∀ a b : Bool, (a ^^ b) ≠ a ↔ b = true := by decide
    show (f.plot (Frame.positions x y sprite)).1.pixel px py ≠ f.pixel px py ↔ _
    rw [hplot, hxor, decide_eq_true_iff]
  · exact f.plot_collides_iff (Frame.pairwise_positions x y hrows)
  · have hnibble : 1 ≤ height.toNat ∧ height.toNat ≤ 15 :=
      (Instruction.decode?_eq_some_iff.1 hdecode).1
    omega

/-- The glyph of the zero at the lower right corner of the display reaches around both edges, and
    meets a lit pixel there.  The flag takes the place of the column that it was drawn at. -/
theorem draw_flips_covered_of_glyph :
    let frame := (Frame.blank.draw 0 31 [0x80]).1
    let s := { State.initial with frame, v := #v[0, 63, 0, 0, 0, 0, 0, 0, 0, 0, 0, 0, 0, 0, 0, 62] }
    let glyph := s.memory.bytes.window s.i.toNat 5 (by decide)
    let drawn := frame.draw 62 63 glyph
    Instruction.decode? 0xDF15 = some (.draw 15 1 5) ∧ glyph.length ≤ 32 ∧
      drawn.1.bytes[7].toNat.testBit 1 ≠ frame.bytes[7].toNat.testBit 1 ∧ drawn.2 = true ∧
      (execute (.draw 15 1 5) s (.counter 0 1)).state.reg 15 = 1 := by
  intro frame s glyph drawn
  have hdecode : Instruction.decode? 0xDF15 = some (.draw 15 1 5) := by decide
  obtain ⟨hpixel, hhit, hrows, hexecute⟩ := draw_flips_covered frame 62 63 glyph
  have hlength : glyph.length ≤ 32 := by
    rw [Vector.length_window]
    exact hrows _ _ _ _ hdecode
  have hcollides : drawn.2 = true :=
    (hhit hlength).2 ⟨0, by decide, 31, by decide, by decide +kernel⟩
  refine ⟨hdecode, hlength, ?_, hcollides, ?_⟩
  · exact (hpixel 62 0 (by decide) (by decide)).2 (by decide +kernel)
  · rw [hexecute 15 1 5 s (.counter 0 1) (by decide)]
    decide +kernel

end Chip8
