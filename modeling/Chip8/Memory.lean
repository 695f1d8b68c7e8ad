import Chip8.Fault
import Chip8.Window

/-! # Memory

Memory is 4096 bytes.  The first eighty hold the font and cannot be written,
programs are loaded at `0x200`, and everything above the font is free to change
while a program runs:

    0x000 .. 0x050   font
    0x050 .. 0x200   scratch
    0x200 .. 0x1000  program

Addresses are natural numbers.  An access names its first address and its length,
and both are checked against the size of memory: nothing wraps and nothing is
clamped.  An empty access is in bounds anywhere up to and including the end. -/

namespace Chip8

/-- The bytes a program can address. -/
structure Memory where
  bytes : Vector UInt8 4096
  deriving DecidableEq

namespace Memory

/-- Bytes of memory. -/
def size : Nat := 4096

/-- Where programs are loaded and start to run. -/
def programBase : UInt16 := 0x200

/-- The largest program image: what lies between the program base and the end. -/
def programCapacity : Nat := size - programBase.toNat

/-- Where the font begins. -/
def fontBase : UInt16 := 0x000

/-- Rows of a glyph, one byte each. -/
def glyphHeight : UInt16 := 5

/-- The glyphs of the digits `0` to `F`: five rows each, drawn in the left half of
    the byte. -/
def font : List UInt8 :=
  [0xF0, 0x90, 0x90, 0x90, 0xF0,
   0x20, 0x60, 0x20, 0x20, 0x70,
   0xF0, 0x10, 0xF0, 0x80, 0xF0,
   0xF0, 0x10, 0xF0, 0x10, 0xF0,
   0x90, 0x90, 0xF0, 0x10, 0x10,
   0xF0, 0x80, 0xF0, 0x10, 0xF0,
   0xF0, 0x80, 0xF0, 0x90, 0xF0,
   0xF0, 0x10, 0x20, 0x40, 0x40,
   0xF0, 0x90, 0xF0, 0x90, 0xF0,
   0xF0, 0x90, 0xF0, 0x10, 0xF0,
   0xF0, 0x90, 0xF0, 0x90, 0x90,
   0xE0, 0x90, 0xE0, 0x90, 0xE0,
   0xF0, 0x80, 0x80, 0x80, 0xF0,
   0xE0, 0x90, 0x90, 0x90, 0xE0,
   0xF0, 0x80, 0xF0, 0x80, 0xF0,
   0xF0, 0x80, 0xF0, 0x80, 0x80]

/-- The first address above the font. -/
def fontEnd : Nat := fontBase.toNat + font.length

/-- Memory as a new machine finds it: the font, and zeros above it. -/
def initial : Memory :=
  ⟨(Vector.replicate 4096 0).overwrite fontBase.toNat font⟩

/-- A new memory holds the font, and zeros behind it. -/
theorem getElem_initial_eq_getD {k : Nat} (hk : k < 4096) : initial.bytes[k] = font.getD k 0 := by
  have hbase : fontBase.toNat = 0 := rfl
  unfold initial
  rw [Vector.getElem_overwrite _ _ _ hk]
  simp only [hbase, Nat.zero_le, Nat.sub_zero, true_and]
  split
  · rename_i h
    rw [List.getD_eq_getElem?_getD, List.getElem?_eq_getElem h, Option.getD_some]
  · rename_i h
    rw [List.getD_eq_getElem?_getD, List.getElem?_eq_none (Nat.le_of_not_lt h), Option.getD_none]
    exact Vector.getElem_replicate hk

/-- The `length` bytes from `address` on. -/
def slice (m : Memory) (address length : Nat) : Except RangeFault (List UInt8) :=
  if h : address + length ≤ 4096 then
    .ok (m.bytes.window address length h)
  else
    .error (.outOfBounds address length)

/-- The byte at `address`. -/
def read (m : Memory) (address : Nat) : Except RangeFault UInt8 :=
  if h : address + 1 ≤ 4096 then .ok m.bytes[address] else .error (.outOfBounds address 1)

/-- The two bytes from `address` on, in the order in which they are stored. -/
def pair (m : Memory) (address : Nat) : Except RangeFault (UInt8 × UInt8) :=
  if h : address + 2 ≤ 4096 then
    .ok (m.bytes[address], m.bytes[address + 1])
  else
    .error (.outOfBounds address 2)

/-- Memory with `data` stored from `address` on.  The range is checked first, then
    whether a write that stores something starts inside the font. -/
def write (m : Memory) (address : Nat) (data : List UInt8) : Except RangeFault Memory :=
  if address + data.length ≤ 4096 then
    if data ≠ [] ∧ address < fontEnd then
      .error (.readOnly address)
    else
      .ok ⟨m.bytes.overwrite address data⟩
  else
    .error (.outOfBounds address data.length)

/-- Memory with a program image at the program base. -/
def load (m : Memory) (image : List UInt8) : Except LoadFault Memory :=
  if image.length ≤ programCapacity then
    .ok ⟨m.bytes.overwrite programBase.toNat image⟩
  else
    .error (.tooLarge image.length programCapacity)

/-- Bytes are found if they lie in memory. -/
theorem slice_eq_ok_iff {m : Memory} {address length : Nat} {data : List UInt8} :
    m.slice address length = .ok data ↔
      ∃ h : address + length ≤ 4096, m.bytes.window address length h = data := by
  unfold slice
  by_cases hle : address + length ≤ 4096
  · rw [dif_pos hle, Except.ok.injEq]
    constructor
    · exact fun h => ⟨hle, h⟩
    · rintro ⟨_, h⟩
      exact h
  · rw [dif_neg hle]
    exact ⟨nofun, fun h => absurd h.1 hle⟩

/-- Bytes are written if they lie in memory and, unless there are none, begin above the font. -/
theorem write_eq_ok_iff {m m' : Memory} {address : Nat} {data : List UInt8} :
    m.write address data = .ok m' ↔
      address + data.length ≤ 4096 ∧ (data ≠ [] → 0x50 ≤ address) ∧
        ⟨m.bytes.overwrite address data⟩ = m' := by
  have hend : fontEnd = 0x50 := rfl
  unfold write
  rw [hend]
  by_cases hle : address + data.length ≤ 4096
  · by_cases hfont : data ≠ [] ∧ address < 0x50
    · rw [if_pos hle, if_pos hfont]
      exact ⟨nofun, fun h => absurd (h.2.1 hfont.1) (Nat.not_le.2 hfont.2)⟩
    · have habove : data ≠ [] → 0x50 ≤ address := fun hdata =>
        Nat.le_of_not_lt fun hlt => hfont ⟨hdata, hlt⟩
      rw [if_pos hle, if_neg hfont, Except.ok.injEq]
      exact ⟨fun h => ⟨hle, habove, h⟩, fun h => h.2.2⟩
  · rw [if_neg hle]
    exact ⟨nofun, fun h => absurd h.1 hle⟩

/-- An image is loaded if it fits, from the program base on. -/
theorem load_eq_ok_iff {m m' : Memory} {image : List UInt8} :
    m.load image = .ok m' ↔
      image.length ≤ programCapacity ∧ ⟨m.bytes.overwrite programBase.toNat image⟩ = m' := by
  unfold load
  by_cases hfit : image.length ≤ programCapacity
  · rw [if_pos hfit, Except.ok.injEq]
    exact ⟨fun h => ⟨hfit, h⟩, And.right⟩
  · rw [if_neg hfit]
    exact ⟨nofun, fun h => absurd h.1 hfit⟩

end Memory

end Chip8
