import Chip8.Memory

/-! # Accesses

Memory is asked for by an address and a length, each a word of 64 bits.  The address behind
an access need not fit into such a word, so it is only compared with the size of memory
once it is known to fit, and an access for which it does not is out of bounds.

An operation that changes memory in place says in what condition it leaves memory, also
where it is refused.  For addresses that are small enough these are the operations that
instructions use (`fetch_eq_slice`, `store_eq`, `install_eq`). -/

namespace Chip8.Memory

/-- The address `length` further on, if a word has room for it. -/
def addressBehind? (address : UInt64) (length : Nat) : Option UInt64 :=
  if address.toNat + length < UInt64.size then some (address + UInt64.ofNat length) else none

/-- Whether an access lies in memory. -/
def inBounds (address : UInt64) (length : Nat) : Bool :=
  match addressBehind? address length with
  | none => false
  | some behind => behind ≤ 4096

theorem inBounds_iff {address : UInt64} {length : Nat} :
    inBounds address length = true ↔ address.toNat + length ≤ 4096 := by
  have hsize : UInt64.size = 18446744073709551616 := rfl
  unfold inBounds addressBehind?
  by_cases hfits : address.toNat + length < UInt64.size
  · have hbehind : (address + UInt64.ofNat length).toNat = address.toNat + length := by
      simp only [UInt64.toNat_add, UInt64.toNat_ofNat']
      omega
    simp only [if_pos hfits, decide_eq_true_eq, UInt64.le_iff_toNat_le, hbehind]
    rfl
  · simp only [if_neg hfits, Bool.false_eq_true, false_iff]
    omega

/-- The `length` bytes from `address` on. -/
def fetch (m : Memory) (address length : UInt64) : Except RangeFault (List UInt8) :=
  if h : inBounds address length.toNat then
    .ok (m.bytes.window address.toNat length.toNat (inBounds_iff.1 h))
  else
    .error (.outOfBounds address.toNat length.toNat)

/-- Store `data` from `address` on.  The bounds are checked first, then whether the access
    meets the font. -/
def store (m : Memory) (address : UInt64) (data : List UInt8) : Except RangeFault Unit × Memory :=
  if inBounds address data.length then
    if data ≠ [] ∧ address.toNat < fontEnd ∧ fontBase.toNat < address.toNat + data.length then
      (.error (.readOnly (max address.toNat fontBase.toNat)), m)
    else
      (.ok (), ⟨m.bytes.overwrite address.toNat data⟩)
  else
    (.error (.outOfBounds address.toNat data.length), m)

/-- Place a program image at the program base. -/
def install (m : Memory) (image : List UInt8) : Except LoadFault Unit × Memory :=
  if programCapacity < image.length then
    (.error (.tooLarge image.length programCapacity), m)
  else
    (.ok (), ⟨m.bytes.overwrite programBase.toNat image⟩)

/-! ## The operations that instructions use -/

theorem fetch_eq_slice (m : Memory) (address length : UInt64) :
    m.fetch address length = m.slice address.toNat length.toNat := by
  unfold fetch slice
  by_cases h : address.toNat + length.toNat ≤ 4096
  · rw [dif_pos (inBounds_iff.2 h), dif_pos h]
  · rw [dif_neg (fun hin => h (inBounds_iff.1 hin)), dif_neg h]

/-- A change of memory that was tried: memory is as it was if there is none. -/
def tried {ε : Type} (m : Memory) : Except ε Memory → Except ε Unit × Memory
  | .ok m' => (.ok (), m')
  | .error cause => (.error cause, m)

theorem store_eq (m : Memory) (address : UInt64) (data : List UInt8) :
    m.store address data = m.tried (m.write address.toNat data) := by
  have hbase : fontBase.toNat = 0 := rfl
  unfold store write
  by_cases h : address.toNat + data.length ≤ 4096
  · rw [if_pos (inBounds_iff.2 h), if_pos h, hbase, Nat.max_zero]
    -- The font is at the bottom of memory, so every access is behind its first address.
    by_cases hfont : data ≠ [] ∧ address.toNat < fontEnd
    · have hpos : 0 < data.length := List.length_pos_iff.2 hfont.1
      rw [if_pos hfont, if_pos ⟨hfont.1, hfont.2, by omega⟩, tried]
    · rw [if_neg hfont, if_neg (fun hmeets => hfont ⟨hmeets.1, hmeets.2.1⟩), tried]
  · rw [if_neg (fun hin => h (inBounds_iff.1 hin)), if_neg h, tried]

theorem install_eq (m : Memory) (image : List UInt8) : m.install image = m.tried (m.load image) := by
  unfold install load
  by_cases h : image.length ≤ programCapacity
  · rw [if_neg (Nat.not_lt.2 h), if_pos h, tried]
  · rw [if_pos (Nat.lt_of_not_le h), if_neg h, tried]

end Chip8.Memory
