import Chip8.Register

/-! # Instructions

There are thirty-four instructions, and but for two without operands and the drawing
of a sprite each belongs to one of four shapes: an address, a register and a byte,
two registers, or one register.  The shape fixes where the operands stand in the
word and how they are written, so the operations are grouped by it. -/

namespace Chip8

/-- Operations on an address. -/
inductive AddressOp where
  /-- Go on at the address. -/
  | jump
  /-- Call the subroutine at the address. -/
  | call
  /-- Put the address into `I`. -/
  | loadI
  /-- Go on at the address plus `V0`. -/
  | jumpV0
  deriving DecidableEq, Repr

/-- Operations on a register and a byte. -/
inductive ByteOp where
  /-- Skip the next instruction if they are equal. -/
  | skipEqual
  /-- Skip the next instruction if they differ. -/
  | skipUnequal
  /-- Put the byte into the register. -/
  | load
  /-- Add the byte to the register and leave the flag alone. -/
  | add
  /-- Put a random byte, masked by the byte, into the register. -/
  | random
  deriving DecidableEq, Repr

/-- Operations on two registers, with the result in the first. -/
inductive PairOp where
  /-- Skip the next instruction if they are equal. -/
  | skipEqual
  /-- Skip the next instruction if they differ. -/
  | skipUnequal
  /-- Copy the second into the first. -/
  | move
  | or
  | and
  | xor
  /-- Add, with the carry in the flag. -/
  | add
  /-- Subtract the second from the first; the flag is set if nothing was borrowed. -/
  | sub
  /-- Shift the first right by one, with the lost bit in the flag.  The second does
      not count. -/
  | shiftRight
  /-- Subtract the first from the second; the flag is set if nothing was borrowed. -/
  | subFrom
  /-- Shift the first left by one, with the lost bit in the flag.  The second does
      not count. -/
  | shiftLeft
  deriving DecidableEq, Repr

/-- Operations on one register. -/
inductive SingleOp where
  /-- Skip the next instruction if the key in the register is held. -/
  | skipPressed
  /-- Skip the next instruction if the key in the register is not held. -/
  | skipNotPressed
  /-- Put the delay timer into the register. -/
  | readDelay
  /-- Wait for a key press and put the key into the register. -/
  | waitKey
  /-- Set the delay timer to the register. -/
  | setDelay
  /-- Set the sound timer to the register. -/
  | setSound
  /-- Add the register to `I`. -/
  | addI
  /-- Point `I` at the glyph of the low digit of the register. -/
  | loadFont
  /-- Store the three decimal digits of the register at `I`. -/
  | bcd
  /-- Store the registers from `V0` up to this one at `I`. -/
  | store
  /-- Read the registers from `V0` up to this one from `I`. -/
  | read
  deriving DecidableEq, Repr

/-- An instruction with its operands.  Fields are as wide as the type that holds
    them: an address may have sixteen bits and a sprite height eight, although a word
    has room for twelve and four. -/
inductive Instruction where
  /-- Turn all pixels dark. -/
  | clear
  /-- Return from a subroutine. -/
  | ret
  | address (op : AddressOp) (addr : UInt16)
  | byte (op : ByteOp) (x : Register) (kk : UInt8)
  | pair (op : PairOp) (x y : Register)
  /-- Draw the sprite of `height` rows at `I`, with its corner at `Vx`, `Vy`. -/
  | draw (x y : Register) (height : UInt8)
  | single (op : SingleOp) (x : Register)
  deriving DecidableEq, Repr

end Chip8
