import Chip8.Proofs.InstructionCode
import Chip8.Proofs.NumeralText
import Chip8.Proofs.StatementText
import Mathlib.Data.List.Forall2

/-!
# Instructions read from their text

Every instruction has a list of operands, and its text is a statement with these
operands.  Reading the text gives the operands back, whether or not the fields of the
instruction fit.

## Key results

- `ofToken_register`, `ofToken_literal`: a printed register or number is read as one
- `operandsOf_text`: the operands of the text are those of the instruction
-/

namespace Chip8.Assembly

open Text

/-! ## Single operands -/

theorem isToken_register (r : Register) : IsToken r.text.toList := by
  revert r
  decide

theorem ofToken_register (r : Register) :
    Operand.ofToken r.text.toList = .ok (.register r) := by
  have hkeyword : Operand.keyword? (upper r.text.toList) = none := by revert r; decide
  have hindex : Operand.registerIndex? (upper r.text.toList) = some r.val := by revert r; decide
  simp only [Operand.ofToken, hkeyword, hindex, r.isLt, dif_pos]

theorem isPlain_of_mem_hexText {width n : Nat} {c : Char} (h : c ∈ hexText width n) :
    isPlain c = true := by
  have table : ∀ d : Fin 16, isPlain (hexDigit d) = true := by decide
  obtain ⟨d, rfl⟩ := eq_hexDigit_of_mem h
  exact table d

private theorem toList_literalText (width value : Nat) :
    (Instruction.literalText width value).toList = '#' :: hexText width value := by
  simp [Instruction.literalText, hex]

theorem isToken_literal (width value : Nat) :
    IsToken (Instruction.literalText width value).toList := by
  rw [toList_literalText]
  refine ⟨List.cons_ne_nil _ _, fun c hc => ?_⟩
  rcases List.mem_cons.1 hc with rfl | hc
  · rfl
  · exact isPlain_of_mem_hexText hc

/-- Printed digits are in upper case already. -/
private theorem upper_hexText (width n : Nat) : upper (hexText width n) = hexText width n := by
  have table : ∀ d : Fin 16, (hexDigit d).toUpper = hexDigit d := by decide
  refine (List.map_congr_left fun c hc => ?_).trans (List.map_id _)
  obtain ⟨d, rfl⟩ := eq_hexDigit_of_mem hc
  exact table d

theorem ofToken_literal {width value : Nat} (h : value < UInt32.size) :
    Operand.ofToken (Instruction.literalText width value).toList = .ok (.literal value) := by
  have hupper : upper ('#' :: hexText width value) = '#' :: hexText width value :=
    congrArg ('#' :: ·) (upper_hexText width value)
  -- The mark alone tells a number from a keyword and from a register.
  have hkeyword : Operand.keyword? ('#' :: hexText width value) = none := rfl
  have hindex : Operand.registerIndex? ('#' :: hexText width value) = none := rfl
  have hparts : Operand.numberParts? ('#' :: hexText width value) =
      some (16, hexText width value) := rfl
  rw [toList_literalText]
  simp only [Operand.ofToken, hupper, hkeyword, hindex, hparts, numeral?_hexText h]

end Chip8.Assembly

namespace Chip8

open Text Assembly

/-! ## All operands of an instruction -/

/-- The operands of an operation on an address, which `target` stands for. -/
def AddressOp.operandsAt (target : Operand) : AddressOp → List Operand
  | jump | call => [target]
  | loadI => [.index, target]
  | jumpV0 => [.register 0, target]

namespace Instruction

/-- The operands of an instruction, as they are read. -/
def operands : Instruction → List Operand
  | clear | ret => []
  | address op addr => op.operandsAt (.literal addr.toNat)
  | byte _ x kk => [.register x, .literal kk.toNat]
  | pair .shiftRight x y | pair .shiftLeft x y =>
    if y = 0 then [.register x] else [.register x, .register y]
  | pair _ x y => [.register x, .register y]
  | draw x y height => [.register x, .register y, .literal height.toNat]
  | single .skipPressed x | single .skipNotPressed x => [.register x]
  | single .readDelay x => [.register x, .delay]
  | single .waitKey x => [.register x, .key]
  | single .setDelay x => [.delay, .register x]
  | single .setSound x => [.sound, .register x]
  | single .addI x => [.index, .register x]
  | single .loadFont x => [.font, .register x]
  | single .bcd x => [.bcd, .register x]
  | single .store x => [.indirect, .register x]
  | single .read x => [.register x, .indirect]

/-- A text stands for an operand: it is a token, and is read as the operand. -/
private def Reads (text : String) (operand : Operand) : Prop :=
  IsToken text.toList ∧ Operand.ofToken text.toList = .ok operand

private theorem reads_register (r : Register) : Reads r.text (.register r) :=
  ⟨isToken_register r, ofToken_register r⟩

private theorem reads_address (width : Nat) (addr : UInt16) :
    Reads (literalText width addr.toNat) (.literal addr.toNat) :=
  ⟨isToken_literal _ _, ofToken_literal (Nat.lt_trans addr.toNat_lt (by decide))⟩

private theorem reads_byte (width : Nat) (kk : UInt8) :
    Reads (literalText width kk.toNat) (.literal kk.toNat) :=
  ⟨isToken_literal _ _, ofToken_literal (Nat.lt_trans kk.toNat_lt (by decide))⟩

private theorem reads_keyword {text : String} {operand : Operand}
    (htoken : IsToken text.toList) (hread : Operand.ofToken text.toList = .ok operand) :
    Reads text operand :=
  ⟨htoken, hread⟩

/-- The printed operands stand for the operands, one for one. -/
private theorem forall₂_reads (i : Instruction) :
    List.Forall₂ Reads i.operandTexts i.operands := by
  cases i with
  | clear => exact .nil
  | ret => exact .nil
  | address op addr =>
    have haddr := reads_address 3 addr
    cases op with
    | jump => exact .cons haddr .nil
    | call => exact .cons haddr .nil
    | loadI => exact .cons (reads_keyword (by decide) rfl) (.cons haddr .nil)
    | jumpV0 => exact .cons (reads_register 0) (.cons haddr .nil)
  | byte op x kk => exact .cons (reads_register x) (.cons (reads_byte 2 kk) .nil)
  | pair op x y =>
    have hboth : List.Forall₂ Reads [x.text, y.text] [.register x, .register y] :=
      .cons (reads_register x) (.cons (reads_register y) .nil)
    have hshift : List.Forall₂ Reads (if y = 0 then [x.text] else [x.text, y.text])
        (if y = 0 then [.register x] else [.register x, .register y]) := by
      split
      · exact .cons (reads_register x) .nil
      · exact hboth
    cases op with
    -- Only shifts leave a second register out.
    | shiftRight => exact hshift
    | shiftLeft => exact hshift
    | _ => exact hboth
  | draw x y height =>
    exact .cons (reads_register x) (.cons (reads_register y) (.cons (reads_byte 1 height) .nil))
  | single op x =>
    have hx := reads_register x
    cases op with
    | skipPressed => exact .cons hx .nil
    | skipNotPressed => exact .cons hx .nil
    | readDelay => exact .cons hx (.cons (reads_keyword (by decide) rfl) .nil)
    | waitKey => exact .cons hx (.cons (reads_keyword (by decide) rfl) .nil)
    | read => exact .cons hx (.cons (reads_keyword (by decide) rfl) .nil)
    | _ => exact .cons (reads_keyword (by decide) rfl) (.cons hx .nil)

/-- Every printed operand is a token. -/
theorem isToken_of_mem_operandTexts (i : Instruction) :
    ∀ text ∈ i.operandTexts, IsToken text.toList := by
  have htokens : ∀ {texts operands}, List.Forall₂ Reads texts operands →
      ∀ text ∈ texts, IsToken text.toList := by
    intro texts operands h
    induction h with
    | nil => exact nofun
    | cons hhead _ ih => exact List.forall_mem_cons.2 ⟨hhead.1, ih⟩
  exact htokens i.forall₂_reads

/-- Printed operands are read one by one. -/
theorem mapM_ofToken_operandTexts (i : Instruction) :
    (i.operandTexts.mapM fun text => Operand.ofToken text.toList) = .ok i.operands := by
  have hread : ∀ {texts operands}, List.Forall₂ Reads texts operands →
      (texts.mapM fun text => Operand.ofToken text.toList) = .ok operands := by
    intro texts operands h
    induction h with
    | nil => rfl
    | cons hhead _ ih =>
      rw [List.mapM_cons, hhead.2, ih]
      rfl
  exact hread i.forall₂_reads

/-- The operands of the text of an instruction are its operands. -/
theorem operandsOf_text (i : Instruction) :
    Template.operandsOf (afterFirstWord i.text.toList) = .ok i.operands := by
  rw [text, operandsOf_statementText _ i.isToken_of_mem_operandTexts,
    mapM_ofToken_operandTexts]

end Instruction

end Chip8
