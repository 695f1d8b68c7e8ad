import Chip8.Instruction.Code

/-!
# Decoding inverts encoding

A word has room for twelve bits of address and four of sprite height, while the
fields of an `Instruction` are wider.  `Instruction.Fits` singles out the instructions
whose fields have room; on those `encode` and `decode?` are inverse to each other, and
every decoded instruction is one of them.

## Key results

- `decode?_encode`: an instruction that fits is decoded from its word
- `decode?_eq_some_iff`: a word is decoded to an instruction exactly when the instruction
  fits and the word is its encoding
-/

namespace Chip8

/-! ## Words from their own fields -/

namespace Word

@[simp] theorem ofAddress_family_addr (w : Word) : ofAddress w.family w.addr = w := by
  have := w.toNat_lt
  apply UInt16.toNat_inj.1
  simp only [toNat_ofAddress, family, addr, UInt16.toNat_ofNat']
  omega

@[simp] theorem ofByte_family_x_kk (w : Word) : ofByte w.family w.x w.kk = w := by
  have := w.toNat_lt
  apply UInt16.toNat_inj.1
  simp only [toNat_ofByte, family, x, kk, UInt8.toNat_ofNat']
  omega

@[simp] theorem ofNibbles_family_x_y_n (w : Word) : ofNibbles w.family w.x w.y w.n = w := by
  have := w.toNat_lt
  apply UInt16.toNat_inj.1
  simp only [toNat_ofNibbles, family, x, y, n]
  omega

theorem addr_lt (w : Word) : w.addr.toNat < 4096 := by
  simp only [addr, UInt16.toNat_ofNat']
  omega

/-- A nibble is kept by a byte. -/
theorem toNat_ofNat_n (w : Word) : (UInt8.ofNat w.n.val).toNat = w.n.val := by
  rw [UInt8.toNat_ofNat', Nat.mod_eq_of_lt (by omega)]

end Word

namespace Instruction

/-- The fields of an instruction have room in its word. -/
def Fits : Instruction → Prop
  | address _ addr => addr.toNat < 4096
  | draw _ _ height => 1 ≤ height.toNat ∧ height.toNat ≤ 15
  | _ => True

/-! ## Decoding by the family -/

/-- Outside of the families of the instructions without operands and of the sprites, only
    the codes of the four shapes count. -/
private theorem decode?_of_family {w : Word} (h0 : w.family ≠ 0) (hD : w.family ≠ 0xD) :
    decode? w =
      ((AddressOp.ofFamily? w.family).map (address · w.addr) <|>
        (ByteOp.ofFamily? w.family).map (byte · w.x w.kk) <|>
        (PairOp.ofCode? w.family w.n).map (pair · w.x w.y) <|>
        (SingleOp.ofCode? w.family w.kk).map (single · w.x)) := by
  -- Both words without operands are of the family zero.
  have hne : ∀ v : Word, v.family = 0 → w ≠ v := by
    rintro v hv rfl
    exact h0 hv
  unfold decode?
  rw [if_neg (hne 0x00E0 (by decide)), if_neg (hne 0x00EE (by decide)), if_neg hD]

private theorem decode?_address (op : AddressOp) {addr : UInt16} (h : addr.toNat < 4096) :
    decode? (address op addr).encode = some (address op addr) := by
  -- The twelve bits that are kept are all there are.
  have haddr : UInt16.ofNat (addr.toNat % 4096) = addr := by
    rw [Nat.mod_eq_of_lt h, UInt16.ofNat_toNat]
  have hfamily : op.family ≠ 0 ∧ op.family ≠ 0xD := by cases op <;> decide
  have hop : AddressOp.ofFamily? op.family = some op := AddressOp.ofFamily?_eq_some_iff.2 rfl
  rw [encode, decode?_of_family (by simpa using hfamily.1) (by simpa using hfamily.2)]
  simp [hop, haddr]

private theorem decode?_byte (op : ByteOp) (x : Register) (kk : UInt8) :
    decode? (byte op x kk).encode = some (byte op x kk) := by
  have hfamily : op.family ≠ 0 ∧ op.family ≠ 0xD := by cases op <;> decide
  -- No other shape that is tried before has the family.
  have haddress : AddressOp.ofFamily? op.family = none := by cases op <;> rfl
  have hop : ByteOp.ofFamily? op.family = some op := ByteOp.ofFamily?_eq_some_iff.2 rfl
  rw [encode, decode?_of_family (by simpa using hfamily.1) (by simpa using hfamily.2)]
  simp [haddress, hop]

private theorem decode?_pair (op : PairOp) (x y : Register) :
    decode? (pair op x y).encode = some (pair op x y) := by
  have hfamily : op.code.1 ≠ 0 ∧ op.code.1 ≠ 0xD := by cases op <;> decide
  have haddress : AddressOp.ofFamily? op.code.1 = none := by cases op <;> rfl
  have hbyte : ByteOp.ofFamily? op.code.1 = none := by cases op <;> rfl
  have hop : PairOp.ofCode? op.code.1 op.code.2 = some op := PairOp.ofCode?_eq_some_iff.2 rfl
  rw [encode, decode?_of_family (by simpa using hfamily.1) (by simpa using hfamily.2)]
  simp [haddress, hbyte, hop]

private theorem decode?_single (op : SingleOp) (x : Register) :
    decode? (single op x).encode = some (single op x) := by
  have hfamily : op.code.1 ≠ 0 ∧ op.code.1 ≠ 0xD := by cases op <;> decide
  have haddress : AddressOp.ofFamily? op.code.1 = none := by cases op <;> rfl
  have hbyte : ByteOp.ofFamily? op.code.1 = none := by cases op <;> rfl
  -- The lowest nibble is part of the code here, so this holds whatever it is.
  have hpair : ∀ n, PairOp.ofCode? op.code.1 n = none := by cases op <;> decide
  have hop : SingleOp.ofCode? op.code.1 op.code.2 = some op :=
    SingleOp.ofCode?_eq_some_iff.2 rfl
  rw [encode, decode?_of_family (by simpa using hfamily.1) (by simpa using hfamily.2)]
  simp [haddress, hbyte, hpair, hop]

private theorem decode?_draw (x y : Register) {height : UInt8}
    (h : 1 ≤ height.toNat ∧ height.toNat ≤ 15) :
    decode? (draw x y height).encode = some (draw x y height) := by
  have hval : (Fin.ofNat 16 height.toNat).val = height.toNat := Nat.mod_eq_of_lt (by omega)
  have hn : Fin.ofNat 16 height.toNat ≠ 0 := by
    intro h0
    have := congrArg Fin.val h0
    rw [hval, Fin.val_zero] at this
    omega
  have hne : ∀ v : Word, v.family = 0 → (draw x y height).encode ≠ v := by
    rintro v hv rfl
    simp [encode] at hv
  unfold decode?
  rw [if_neg (hne 0x00E0 (by decide)), if_neg (hne 0x00EE (by decide)),
    if_pos (by simp [encode])]
  simp only [encode, Word.n_ofNibbles, Word.x_ofNibbles, Word.y_ofNibbles, if_neg hn, hval,
    UInt8.ofNat_toNat]

/-! ## The inverse laws -/

/-- An instruction that fits is decoded from its word. -/
theorem decode?_encode {i : Instruction} (h : i.Fits) : decode? i.encode = some i := by
  cases i with
  | clear => rfl
  | ret => rfl
  | address op addr => exact decode?_address op h
  | byte op x kk => exact decode?_byte op x kk
  | pair op x y => exact decode?_pair op x y
  | draw x y height => exact decode?_draw x y h
  | single op x => exact decode?_single op x

/-- The sprite of a word that has rows fits, and is encoded as the word. -/
theorem fits_encode_draw {w : Word} (hfamily : w.family = 0xD) (hn : w.n ≠ 0) :
    (draw w.x w.y (UInt8.ofNat w.n.val)).Fits ∧
      (draw w.x w.y (UInt8.ofNat w.n.val)).encode = w := by
  have hpos : w.n.val ≠ 0 := fun h0 => hn (Fin.ext h0)
  constructor
  · rw [Fits, Word.toNat_ofNat_n]
    omega
  · have hrows : Fin.ofNat 16 w.n.val = w.n := Fin.ext (Nat.mod_eq_of_lt w.n.isLt)
    rw [encode, Word.toNat_ofNat_n, hrows, ← hfamily, Word.ofNibbles_family_x_y_n]

/-- What is decoded from a word fits, and is encoded as the word. -/
private theorem fits_encode_of_decode? {w : Word} {i : Instruction} (h : decode? w = some i) :
    i.Fits ∧ i.encode = w := by
  -- The tests of `decode?` in their order: the two whole words, the sprites, the shapes.
  unfold decode? at h
  split at h
  · rename_i hw
    cases h
    exact ⟨trivial, hw.symm⟩
  split at h
  · rename_i hw
    cases h
    exact ⟨trivial, hw.symm⟩
  split at h
  · rename_i hfamily
    split at h
    · exact nomatch h
    · rename_i hn
      cases h
      exact fits_encode_draw hfamily hn
  · simp only [Option.orElse_eq_orElse, Option.orElse_eq_or, Option.or_eq_some_iff,
      Option.map_eq_some_iff] at h
    rcases h with ⟨op, hop, rfl⟩ | ⟨-, ⟨op, hop, rfl⟩ | ⟨-, ⟨op, hop, rfl⟩ | ⟨-, op, hop, rfl⟩⟩⟩
    · refine ⟨Word.addr_lt w, ?_⟩
      rw [encode, AddressOp.ofFamily?_eq_some_iff.1 hop, Word.ofAddress_family_addr]
    · refine ⟨trivial, ?_⟩
      rw [encode, ByteOp.ofFamily?_eq_some_iff.1 hop, Word.ofByte_family_x_kk]
    · refine ⟨trivial, ?_⟩
      rw [encode, PairOp.ofCode?_eq_some_iff.1 hop, Word.ofNibbles_family_x_y_n]
    · refine ⟨trivial, ?_⟩
      rw [encode, SingleOp.ofCode?_eq_some_iff.1 hop, Word.ofByte_family_x_kk]

/-- A word is decoded to an instruction exactly when the instruction fits and the word is
    its encoding. -/
theorem decode?_eq_some_iff {w : Word} {i : Instruction} :
    decode? w = some i ↔ i.Fits ∧ i.encode = w := by
  constructor
  · exact fits_encode_of_decode?
  · rintro ⟨hfits, rfl⟩
    exact decode?_encode hfits

end Instruction

end Chip8
