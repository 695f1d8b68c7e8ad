import Chip8.Instruction
import Chip8.Word

/-! # Instruction words

Each operation has a code: the family nibble alone, or the family together with the
lowest nibble or the low byte.  `encode` writes an instruction as a word and
`decode?` reads one; words that carry no code of an operation are no instruction.

The `ofCode?_eq_some_iff` lemmas say that the codes of a shape are distinct and that
decoding finds them all. -/

namespace Chip8

/-- The family of an operation on an address. -/
def AddressOp.family : AddressOp → Fin 16
  | jump => 0x1
  | call => 0x2
  | loadI => 0xA
  | jumpV0 => 0xB

/-- The operation on an address with the given family. -/
def AddressOp.ofFamily? (family : Fin 16) : Option AddressOp :=
  match family.val with
  | 0x1 => some jump
  | 0x2 => some call
  | 0xA => some loadI
  | 0xB => some jumpV0
  | _ => none

theorem AddressOp.ofFamily?_eq_some_iff {family : Fin 16} {op : AddressOp} :
    ofFamily? family = some op ↔ op.family = family := by
  revert family
  cases op <;> decide

/-- The family of an operation on a register and a byte. -/
def ByteOp.family : ByteOp → Fin 16
  | skipEqual => 0x3
  | skipUnequal => 0x4
  | load => 0x6
  | add => 0x7
  | random => 0xC

/-- The operation on a register and a byte with the given family. -/
def ByteOp.ofFamily? (family : Fin 16) : Option ByteOp :=
  match family.val with
  | 0x3 => some skipEqual
  | 0x4 => some skipUnequal
  | 0x6 => some load
  | 0x7 => some add
  | 0xC => some random
  | _ => none

theorem ByteOp.ofFamily?_eq_some_iff {family : Fin 16} {op : ByteOp} :
    ofFamily? family = some op ↔ op.family = family := by
  revert family
  cases op <;> decide

/-- The family and the lowest nibble of an operation on two registers. -/
def PairOp.code : PairOp → Fin 16 × Fin 16
  | skipEqual => (0x5, 0x0)
  | move => (0x8, 0x0)
  | or => (0x8, 0x1)
  | and => (0x8, 0x2)
  | xor => (0x8, 0x3)
  | add => (0x8, 0x4)
  | sub => (0x8, 0x5)
  | shiftRight => (0x8, 0x6)
  | subFrom => (0x8, 0x7)
  | shiftLeft => (0x8, 0xE)
  | skipUnequal => (0x9, 0x0)

/-- The operation on two registers with the given code. -/
def PairOp.ofCode? (family n : Fin 16) : Option PairOp :=
  match family.val, n.val with
  | 0x5, 0x0 => some skipEqual
  | 0x8, 0x0 => some move
  | 0x8, 0x1 => some or
  | 0x8, 0x2 => some and
  | 0x8, 0x3 => some xor
  | 0x8, 0x4 => some add
  | 0x8, 0x5 => some sub
  | 0x8, 0x6 => some shiftRight
  | 0x8, 0x7 => some subFrom
  | 0x8, 0xE => some shiftLeft
  | 0x9, 0x0 => some skipUnequal
  | _, _ => none

set_option maxRecDepth 4000 in
theorem PairOp.ofCode?_eq_some_iff {family n : Fin 16} {op : PairOp} :
    ofCode? family n = some op ↔ op.code = (family, n) := by
  revert family n
  cases op <;> decide

/-- The family and the low byte of an operation on one register. -/
def SingleOp.code : SingleOp → Fin 16 × UInt8
  | skipPressed => (0xE, 0x9E)
  | skipNotPressed => (0xE, 0xA1)
  | readDelay => (0xF, 0x07)
  | waitKey => (0xF, 0x0A)
  | setDelay => (0xF, 0x15)
  | setSound => (0xF, 0x18)
  | addI => (0xF, 0x1E)
  | loadFont => (0xF, 0x29)
  | bcd => (0xF, 0x33)
  | store => (0xF, 0x55)
  | read => (0xF, 0x65)

/-- All operations on one register. -/
def SingleOp.all : List SingleOp :=
  [skipPressed, skipNotPressed, readDelay, waitKey, setDelay, setSound, addI, loadFont, bcd,
    store, read]

/-- The operation on one register with the given code. -/
def SingleOp.ofCode? (family : Fin 16) (kk : UInt8) : Option SingleOp :=
  SingleOp.all.find? fun op => op.code = (family, kk)

theorem SingleOp.ofCode?_eq_some_iff {family : Fin 16} {kk : UInt8} {op : SingleOp} :
    ofCode? family kk = some op ↔ op.code = (family, kk) := by
  constructor
  · intro h
    simpa using List.find?_some h
  · intro h
    have own : ∀ op : SingleOp, ofCode? op.code.1 op.code.2 = some op := by
      intro op; cases op <;> decide
    have := own op
    rwa [h] at this

namespace Instruction

/-- The word of an instruction.  Of an address the low twelve bits count, of a sprite
    height the low four. -/
def encode : Instruction → Word
  | clear => 0x00E0
  | ret => 0x00EE
  | address op addr => .ofAddress op.family addr
  | byte op x kk => .ofByte op.family x kk
  | pair op x y => .ofNibbles op.code.1 x y op.code.2
  | draw x y height => .ofNibbles 0xD x y (Fin.ofNat 16 height.toNat)
  | single op x => .ofByte op.code.1 x op.code.2

/-- The instruction that a word stands for, if it stands for one.  A sprite has at
    least one row. -/
def decode? (w : Word) : Option Instruction :=
  if w = 0x00E0 then some clear
  else if w = 0x00EE then some ret
  else if w.family = 0xD then
    if w.n = 0 then none else some (draw w.x w.y (UInt8.ofNat w.n.val))
  else
    (AddressOp.ofFamily? w.family).map (address · w.addr) <|>
    (ByteOp.ofFamily? w.family).map (byte · w.x w.kk) <|>
    (PairOp.ofCode? w.family w.n).map (pair · w.x w.y) <|>
    (SingleOp.ofCode? w.family w.kk).map (single · w.x)

end Instruction

end Chip8
