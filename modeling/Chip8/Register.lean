import Chip8.Fault

/-! # Registers

The sixteen general registers are `V0` to `VF`.  `VF` doubles as the flag that
arithmetic and drawing report through. -/

namespace Chip8

open Text

/-- One of the general registers, by its index. -/
abbrev Register : Type := Fin 16

/-- There is a register, so a number may stand for one. -/
instance Register.instNeZero : @NeZero Nat Zero.ofOfNat0 16 := ⟨by decide⟩

/-- The contents of the general registers. -/
abbrev RegisterFile : Type := Vector UInt8 16

namespace Register

/-- How many general registers there are. -/
def count : Nat := 16

/-- The register that carries the flag. -/
def flag : Register := 15

/-- The register with a given index. -/
def ofIndex (index : Nat) : Except RangeFault Register :=
  if h : index < 16 then .ok ⟨index, h⟩ else .error (.noRegister index)

/-- The register that a nibble names; the upper half of the byte does not count. -/
def ofNibble (nibble : UInt8) : Register := Fin.ofNat 16 nibble.toNat

/-- A register is written as a `V` and its hexadecimal digit. -/
def text (r : Register) : String := String.ofList ['V', hexDigit r.val]

end Register

/-- There are as many registers up to one of them as its index says, and that one. -/
theorem RegisterFile.length_take_succ (v : RegisterFile) (x : Register) :
    (v.toList.take (x.val + 1)).length = x.val + 1 := by
  rw [List.length_take, Vector.length_toList]
  omega

/-- The byte that the flag register holds for a condition. -/
def flagByte (condition : Bool) : UInt8 := if condition then 1 else 0

end Chip8
