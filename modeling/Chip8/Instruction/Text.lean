import Chip8.Instruction
import Chip8.Instruction.Mnemonic
import Chip8.Text.Hex

/-! # Instruction text

The normal form of an instruction in assembly: its mnemonic, and its operands
separated by a comma and a blank.  Numbers are in hexadecimal behind a `#`, padded
to the width of their field.  Shifts drop a second operand `V0`. -/

namespace Chip8

open Text

namespace Instruction

/-- The mnemonic of an instruction. -/
def mnemonic : Instruction → Mnemonic
  | clear => .cls
  | ret => .ret
  | address .jump _ | address .jumpV0 _ => .jp
  | address .call _ => .call
  | address .loadI _ => .ld
  | byte .skipEqual _ _ | pair .skipEqual _ _ => .se
  | byte .skipUnequal _ _ | pair .skipUnequal _ _ => .sne
  | byte .load _ _ | pair .move _ _ => .ld
  | byte .add _ _ | pair .add _ _ | single .addI _ => .add
  | byte .random _ _ => .rnd
  | pair .or _ _ => .or
  | pair .and _ _ => .and
  | pair .xor _ _ => .xor
  | pair .sub _ _ => .sub
  | pair .shiftRight _ _ => .shr
  | pair .subFrom _ _ => .subn
  | pair .shiftLeft _ _ => .shl
  | draw _ _ _ => .drw
  | single .skipPressed _ => .skp
  | single .skipNotPressed _ => .sknp
  | single _ _ => .ld

/-- A number in the normal form, with at least `width` digits. -/
def literalText (width value : Nat) : String := "#" ++ hex width value

/-- The operands of an instruction as they are written. -/
def operandTexts : Instruction → List String
  | clear | ret => []
  | address .jump addr | address .call addr => [literalText 3 addr.toNat]
  | address .loadI addr => ["I", literalText 3 addr.toNat]
  | address .jumpV0 addr => ["V0", literalText 3 addr.toNat]
  | byte _ x kk => [x.text, literalText 2 kk.toNat]
  | pair .shiftRight x y | pair .shiftLeft x y => if y = 0 then [x.text] else [x.text, y.text]
  | pair _ x y => [x.text, y.text]
  | draw x y height => [x.text, y.text, literalText 1 height.toNat]
  | single .skipPressed x | single .skipNotPressed x => [x.text]
  | single .readDelay x => [x.text, "DT"]
  | single .waitKey x => [x.text, "K"]
  | single .setDelay x => ["DT", x.text]
  | single .setSound x => ["ST", x.text]
  | single .addI x => ["I", x.text]
  | single .loadFont x => ["F", x.text]
  | single .bcd x => ["B", x.text]
  | single .store x => ["[I]", x.text]
  | single .read x => [x.text, "[I]"]

/-- A statement from its mnemonic and its operands. -/
def statementText (mnemonic : String) : List String → String
  | [] => mnemonic
  | operand :: rest => rest.foldl (· ++ ", " ++ ·) (mnemonic ++ " " ++ operand)

/-- The instruction in assembly. -/
def text (i : Instruction) : String := statementText i.mnemonic.text i.operandTexts

end Instruction

end Chip8
