import Chip8.Proofs.InstructionCode

/-!
# The table of encodings

The instruction set as it is documented: thirty-four rows, each of which fixes some
nibbles of a word and leaves the others free.  The table knows nothing of the way words
are decoded, and this file shows that decoding agrees with it.

## Key results

- `exists_decode?_iff`: a word is an instruction exactly when a row of the table admits it
- `decode?_eq_ret_iff`, `decode?_eq_call_iff`, `decode?_eq_draw_iff`,
  `decode?_eq_single_iff`: which row an instruction with an operand check belongs to
-/

namespace Chip8

/-- What a row of the table says about one nibble of a word. -/
inductive Cell where
  | only (digit : Fin 16)
  | any
  /-- Any digit but zero. -/
  | positive

/-- Whether a nibble is as a cell says. -/
def Cell.Admits : Cell → Fin 16 → Prop
  | only digit, nibble => nibble = digit
  | any, _ => True
  | positive, nibble => nibble ≠ 0

/-- A row of the table: one cell for each nibble of a word. -/
structure Encoding where
  family : Cell
  x : Cell
  y : Cell
  n : Cell

namespace Encoding

/-- Whether a word is as a row says. -/
def Admits (e : Encoding) (w : Word) : Prop :=
  e.family.Admits w.family ∧ e.x.Admits w.x ∧ e.y.Admits w.y ∧ e.n.Admits w.n

/-- A word that is given in full. -/
def word (f x y n : Fin 16) : Encoding := ⟨.only f, .only x, .only y, .only n⟩

/-- A family with three free nibbles: `fnnn` or `fxkk`. -/
def wide (f : Fin 16) : Encoding := ⟨.only f, .any, .any, .any⟩

/-- A family and a last nibble: `fxyn` with a given `n`. -/
def pair (f n : Fin 16) : Encoding := ⟨.only f, .any, .any, .only n⟩

/-- A family and a low byte: `fxkk` with a given `kk`. -/
def single (f y n : Fin 16) : Encoding := ⟨.only f, .any, .only y, .only n⟩

/-- `00EE` -/
def ret : Encoding := word 0x0 0x0 0xE 0xE

/-- `2nnn` -/
def call : Encoding := wide 0x2

/-- `Dxyn`, with at least one row. -/
def draw : Encoding := ⟨.only 0xD, .any, .any, .positive⟩

/-- `Fx0A` -/
def waitKey : Encoding := single 0xF 0x0 0xA

/-- `Fx33` -/
def bcd : Encoding := single 0xF 0x3 0x3

/-- `Fx55` -/
def store : Encoding := single 0xF 0x5 0x5

/-- `Fx65` -/
def read : Encoding := single 0xF 0x6 0x5

/-- Every documented encoding. -/
def documented : List Encoding :=
  [word 0x0 0x0 0xE 0x0, ret, wide 0x1, call, wide 0x3, wide 0x4, pair 0x5 0x0, wide 0x6,
    wide 0x7, pair 0x8 0x0, pair 0x8 0x1, pair 0x8 0x2, pair 0x8 0x3, pair 0x8 0x4, pair 0x8 0x5,
    pair 0x8 0x6, pair 0x8 0x7, pair 0x8 0xE, pair 0x9 0x0, wide 0xA, wide 0xB, wide 0xC, draw,
    single 0xE 0x9 0xE, single 0xE 0xA 0x1, single 0xF 0x0 0x7, waitKey, single 0xF 0x1 0x5,
    single 0xF 0x1 0x8, single 0xF 0x1 0xE, single 0xF 0x2 0x9, bcd, store, read]

example : documented.length = 34 := rfl

theorem admits_wide {f : Fin 16} {w : Word} : (wide f).Admits w ↔ w.family = f := by
  simp [Admits, wide, Cell.Admits]

theorem admits_pair {f n : Fin 16} {w : Word} :
    (pair f n).Admits w ↔ w.family = f ∧ w.n = n := by
  simp [Admits, pair, Cell.Admits]

theorem admits_draw {w : Word} : draw.Admits w ↔ w.family = 0xD ∧ w.n ≠ 0 := by
  simp [Admits, draw, Cell.Admits]

/-- The low byte of a word in terms of its two nibbles. -/
theorem kk_eq_iff {w : Word} {y n : Fin 16} :
    w.kk = UInt8.ofNat (16 * y.val + n.val) ↔ w.y = y ∧ w.n = n := by
  rw [← UInt8.toNat_inj, Fin.ext_iff, Fin.ext_iff]
  simp only [Word.kk, Word.y, Word.n, UInt8.toNat_ofNat']
  omega

theorem admits_single {f y n : Fin 16} {w : Word} :
    (single f y n).Admits w ↔ w.family = f ∧ w.kk = UInt8.ofNat (16 * y.val + n.val) := by
  rw [kk_eq_iff]
  simp [Admits, single, Cell.Admits]

/-- A row without a free nibble admits one word. -/
theorem admits_word {f x y n : Fin 16} {w : Word} :
    (word f x y n).Admits w ↔ w = Word.ofNibbles f x y n := by
  constructor
  · rintro ⟨rfl, rfl, rfl, rfl⟩
    exact (Word.ofNibbles_family_x_y_n w).symm
  · rintro rfl
    simp [Admits, word, Cell.Admits]

end Encoding

/-! ## Decoding agrees with the table -/

namespace Instruction

private theorem wide_address_mem (op : AddressOp) :
    Encoding.wide op.family ∈ Encoding.documented := by
  cases op <;> simp [Encoding.documented, AddressOp.family, Encoding.call]

private theorem wide_byte_mem (op : ByteOp) : Encoding.wide op.family ∈ Encoding.documented := by
  cases op <;> simp [Encoding.documented, ByteOp.family]

private theorem pair_mem (op : PairOp) :
    Encoding.pair op.code.1 op.code.2 ∈ Encoding.documented := by
  cases op <;> simp [Encoding.documented, PairOp.code]

private theorem single_mem (op : SingleOp) : ∃ y n,
    Encoding.single op.code.1 y n ∈ Encoding.documented ∧
      op.code.2 = UInt8.ofNat (16 * y.val + n.val) := by
  cases op with
  | skipPressed => exact ⟨0x9, 0xE, by simp [Encoding.documented, SingleOp.code], rfl⟩
  | skipNotPressed => exact ⟨0xA, 0x1, by simp [Encoding.documented, SingleOp.code], rfl⟩
  | readDelay => exact ⟨0x0, 0x7, by simp [Encoding.documented, SingleOp.code], rfl⟩
  | waitKey => exact ⟨0x0, 0xA, by simp [Encoding.documented, SingleOp.code, Encoding.waitKey], rfl⟩
  | setDelay => exact ⟨0x1, 0x5, by simp [Encoding.documented, SingleOp.code], rfl⟩
  | setSound => exact ⟨0x1, 0x8, by simp [Encoding.documented, SingleOp.code], rfl⟩
  | addI => exact ⟨0x1, 0xE, by simp [Encoding.documented, SingleOp.code], rfl⟩
  | loadFont => exact ⟨0x2, 0x9, by simp [Encoding.documented, SingleOp.code], rfl⟩
  | bcd => exact ⟨0x3, 0x3, by simp [Encoding.documented, SingleOp.code, Encoding.bcd], rfl⟩
  | store => exact ⟨0x5, 0x5, by simp [Encoding.documented, SingleOp.code, Encoding.store], rfl⟩
  | read => exact ⟨0x6, 0x5, by simp [Encoding.documented, SingleOp.code, Encoding.read], rfl⟩

private theorem admits_draw_encode {x y : Register} {height : UInt8}
    (h : (draw x y height).Fits) : Encoding.draw.Admits (draw x y height).encode := by
  obtain ⟨hpos, hle⟩ : 1 ≤ height.toNat ∧ height.toNat ≤ 15 := h
  refine Encoding.admits_draw.2 ⟨Word.family_ofNibbles _ _ _ _, ?_⟩
  -- The last nibble is the height itself, which is below sixteen.
  rw [encode, Word.n_ofNibbles, ne_eq, Fin.ext_iff]
  simp only [Fin.val_zero, Fin.val_ofNat]
  omega

/-- Every instruction that fits has a row that admits its word. -/
private theorem exists_row {i : Instruction} (h : i.Fits) :
    ∃ e ∈ Encoding.documented, e.Admits i.encode := by
  cases i with
  | clear => exact ⟨_, List.mem_cons_self, Encoding.admits_word.2 rfl⟩
  | ret => exact ⟨.ret, by simp [Encoding.documented], Encoding.admits_word.2 rfl⟩
  | address op addr =>
    exact ⟨_, wide_address_mem op, Encoding.admits_wide.2 (Word.family_ofAddress _ _)⟩
  | byte op x kk => exact ⟨_, wide_byte_mem op, Encoding.admits_wide.2 (Word.family_ofByte _ _ _)⟩
  | pair op x y =>
    exact ⟨_, pair_mem op,
      Encoding.admits_pair.2 ⟨Word.family_ofNibbles _ _ _ _, Word.n_ofNibbles _ _ _ _⟩⟩
  | draw x y height =>
    exact ⟨.draw, by simp [Encoding.documented], admits_draw_encode h⟩
  | single op x =>
    obtain ⟨y, n, hmem, hkk⟩ := single_mem op
    refine ⟨_, hmem, Encoding.admits_single.2 ⟨Word.family_ofByte _ _ _, ?_⟩⟩
    rw [encode, Word.kk_ofByte, hkk]

/-! The other way round, the nibbles that a row fixes determine the operation, and the
fields of the word are its operands. -/

private theorem decode?_of_family_eq_address {w : Word} (op : AddressOp)
    (h : w.family = op.family) : decode? w = some (address op w.addr) := by
  refine decode?_eq_some_iff.2 ⟨Word.addr_lt w, ?_⟩
  rw [encode, ← h, Word.ofAddress_family_addr]

private theorem decode?_of_family_eq_byte {w : Word} (op : ByteOp) (h : w.family = op.family) :
    decode? w = some (byte op w.x w.kk) := by
  refine decode?_eq_some_iff.2 ⟨trivial, ?_⟩
  rw [encode, ← h, Word.ofByte_family_x_kk]

private theorem decode?_of_code_eq_pair {w : Word} (op : PairOp)
    (h : w.family = op.code.1 ∧ w.n = op.code.2) : decode? w = some (pair op w.x w.y) := by
  refine decode?_eq_some_iff.2 ⟨trivial, ?_⟩
  rw [encode, ← h.1, ← h.2, Word.ofNibbles_family_x_y_n]

private theorem decode?_of_code_eq_single {w : Word} (op : SingleOp)
    (h : w.family = op.code.1 ∧ w.kk = op.code.2) : decode? w = some (single op w.x) := by
  refine decode?_eq_some_iff.2 ⟨trivial, ?_⟩
  rw [encode, ← h.1, ← h.2, Word.ofByte_family_x_kk]

private theorem decode?_of_draw {w : Word} (h : w.family = 0xD ∧ w.n ≠ 0) :
    decode? w = some (draw w.x w.y (UInt8.ofNat w.n.val)) :=
  decode?_eq_some_iff.2 (fits_encode_draw h.1 h.2)

/-- A word is an instruction exactly when a row of the table admits it. -/
theorem exists_decode?_iff {w : Word} :
    (∃ i, decode? w = some i) ↔ ∃ e ∈ Encoding.documented, e.Admits w := by
  constructor
  · rintro ⟨i, hi⟩
    -- A decoded instruction fits, and each that fits has a row.
    obtain ⟨hfits, rfl⟩ := decode?_eq_some_iff.1 hi
    exact exists_row hfits
  · rintro ⟨e, he, hw⟩
    -- The other way round there is one case for each row, in the order of the table.
    simp only [Encoding.documented, List.mem_cons, List.not_mem_nil, or_false] at he
    rcases he with rfl | rfl | rfl | rfl | rfl | rfl | rfl | rfl | rfl | rfl | rfl | rfl |
      rfl | rfl | rfl | rfl | rfl | rfl | rfl | rfl | rfl | rfl | rfl | rfl | rfl |
      rfl | rfl | rfl | rfl | rfl | rfl | rfl | rfl | rfl
    · exact ⟨clear, by rw [Encoding.admits_word.1 hw]; rfl⟩
    · exact ⟨ret, by rw [Encoding.admits_word.1 hw]; rfl⟩
    · exact ⟨_, decode?_of_family_eq_address .jump (Encoding.admits_wide.1 hw)⟩
    · exact ⟨_, decode?_of_family_eq_address .call (Encoding.admits_wide.1 hw)⟩
    · exact ⟨_, decode?_of_family_eq_byte .skipEqual (Encoding.admits_wide.1 hw)⟩
    · exact ⟨_, decode?_of_family_eq_byte .skipUnequal (Encoding.admits_wide.1 hw)⟩
    · exact ⟨_, decode?_of_code_eq_pair .skipEqual (Encoding.admits_pair.1 hw)⟩
    · exact ⟨_, decode?_of_family_eq_byte .load (Encoding.admits_wide.1 hw)⟩
    · exact ⟨_, decode?_of_family_eq_byte .add (Encoding.admits_wide.1 hw)⟩
    · exact ⟨_, decode?_of_code_eq_pair .move (Encoding.admits_pair.1 hw)⟩
    · exact ⟨_, decode?_of_code_eq_pair .or (Encoding.admits_pair.1 hw)⟩
    · exact ⟨_, decode?_of_code_eq_pair .and (Encoding.admits_pair.1 hw)⟩
    · exact ⟨_, decode?_of_code_eq_pair .xor (Encoding.admits_pair.1 hw)⟩
    · exact ⟨_, decode?_of_code_eq_pair .add (Encoding.admits_pair.1 hw)⟩
    · exact ⟨_, decode?_of_code_eq_pair .sub (Encoding.admits_pair.1 hw)⟩
    · exact ⟨_, decode?_of_code_eq_pair .shiftRight (Encoding.admits_pair.1 hw)⟩
    · exact ⟨_, decode?_of_code_eq_pair .subFrom (Encoding.admits_pair.1 hw)⟩
    · exact ⟨_, decode?_of_code_eq_pair .shiftLeft (Encoding.admits_pair.1 hw)⟩
    · exact ⟨_, decode?_of_code_eq_pair .skipUnequal (Encoding.admits_pair.1 hw)⟩
    · exact ⟨_, decode?_of_family_eq_address .loadI (Encoding.admits_wide.1 hw)⟩
    · exact ⟨_, decode?_of_family_eq_address .jumpV0 (Encoding.admits_wide.1 hw)⟩
    · exact ⟨_, decode?_of_family_eq_byte .random (Encoding.admits_wide.1 hw)⟩
    · exact ⟨_, decode?_of_draw (Encoding.admits_draw.1 hw)⟩
    · exact ⟨_, decode?_of_code_eq_single .skipPressed (Encoding.admits_single.1 hw)⟩
    · exact ⟨_, decode?_of_code_eq_single .skipNotPressed (Encoding.admits_single.1 hw)⟩
    · exact ⟨_, decode?_of_code_eq_single .readDelay (Encoding.admits_single.1 hw)⟩
    · exact ⟨_, decode?_of_code_eq_single .waitKey (Encoding.admits_single.1 hw)⟩
    · exact ⟨_, decode?_of_code_eq_single .setDelay (Encoding.admits_single.1 hw)⟩
    · exact ⟨_, decode?_of_code_eq_single .setSound (Encoding.admits_single.1 hw)⟩
    · exact ⟨_, decode?_of_code_eq_single .addI (Encoding.admits_single.1 hw)⟩
    · exact ⟨_, decode?_of_code_eq_single .loadFont (Encoding.admits_single.1 hw)⟩
    · exact ⟨_, decode?_of_code_eq_single .bcd (Encoding.admits_single.1 hw)⟩
    · exact ⟨_, decode?_of_code_eq_single .store (Encoding.admits_single.1 hw)⟩
    · exact ⟨_, decode?_of_code_eq_single .read (Encoding.admits_single.1 hw)⟩

theorem decode?_eq_ret_iff {w : Word} : decode? w = some ret ↔ Encoding.ret.Admits w := by
  constructor
  · intro h
    exact Encoding.admits_word.2 (decode?_eq_some_iff.1 h).2.symm
  · intro h
    rw [Encoding.admits_word.1 h]
    rfl

theorem decode?_eq_call_iff {w : Word} {addr : UInt16} :
    decode? w = some (address .call addr) ↔ Encoding.call.Admits w ∧ addr = w.addr := by
  constructor
  · intro h
    have hw : Encoding.call.Admits w := by
      rw [← (decode?_eq_some_iff.1 h).2]
      exact Encoding.admits_wide.2 (Word.family_ofAddress _ _)
    -- The word is in the row, so it decodes to a call of its own address as well.
    have hdecode := decode?_of_family_eq_address .call (Encoding.admits_wide.1 hw)
    rw [h, Option.some.injEq, address.injEq] at hdecode
    exact ⟨hw, hdecode.2⟩
  · rintro ⟨hw, rfl⟩
    exact decode?_of_family_eq_address .call (Encoding.admits_wide.1 hw)

theorem decode?_eq_draw_iff {w : Word} {x y : Register} {height : UInt8} :
    decode? w = some (draw x y height) ↔
      Encoding.draw.Admits w ∧ x = w.x ∧ y = w.y ∧ height = UInt8.ofNat w.n.val := by
  constructor
  · intro h
    have hw : Encoding.draw.Admits w := by
      obtain ⟨hfits, hword⟩ := decode?_eq_some_iff.1 h
      rw [← hword]
      exact admits_draw_encode hfits
    have hdecode := decode?_of_draw (Encoding.admits_draw.1 hw)
    rw [h, Option.some.injEq, draw.injEq] at hdecode
    exact ⟨hw, hdecode⟩
  · rintro ⟨hw, rfl, rfl, rfl⟩
    exact decode?_of_draw (Encoding.admits_draw.1 hw)

/-- Whether a word is an operation on one register is up to the row with its code. -/
theorem decode?_eq_single_iff {w : Word} {op : SingleOp} {x : Register} {y n : Fin 16}
    (hcode : op.code.2 = UInt8.ofNat (16 * y.val + n.val)) :
    decode? w = some (single op x) ↔
      (Encoding.single op.code.1 y n).Admits w ∧ x = w.x := by
  rw [Encoding.admits_single, ← hcode]
  constructor
  · intro h
    obtain ⟨-, rfl⟩ := decode?_eq_some_iff.1 h
    simp only [encode, Word.family_ofByte, Word.kk_ofByte, Word.x_ofByte, and_self]
  · rintro ⟨hop, rfl⟩
    exact decode?_of_code_eq_single op hop

theorem decode?_eq_waitKey_iff {w : Word} {x : Register} :
    decode? w = some (single .waitKey x) ↔ Encoding.waitKey.Admits w ∧ x = w.x :=
  decode?_eq_single_iff rfl

theorem decode?_eq_bcd_iff {w : Word} {x : Register} :
    decode? w = some (single .bcd x) ↔ Encoding.bcd.Admits w ∧ x = w.x :=
  decode?_eq_single_iff rfl

theorem decode?_eq_store_iff {w : Word} {x : Register} :
    decode? w = some (single .store x) ↔ Encoding.store.Admits w ∧ x = w.x :=
  decode?_eq_single_iff rfl

theorem decode?_eq_read_iff {w : Word} {x : Register} :
    decode? w = some (single .read x) ↔ Encoding.read.Admits w ∧ x = w.x :=
  decode?_eq_single_iff rfl

end Instruction

end Chip8
