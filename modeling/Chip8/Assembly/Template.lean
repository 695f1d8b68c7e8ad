import Chip8.Assembly.Operand
import Chip8.Instruction.Code
import Chip8.Instruction.Mnemonic

/-! # Templates

A template is the body of a statement before its label is looked up.  Which operands
a mnemonic takes does not depend on what the labels stand for, so a body is read
once (`Template.ofBody`) and its address filled in later (`Template.resolve`). -/

namespace Chip8.Assembly

open Text

/-- A word of the program, up to the address of a label. -/
inductive Template where
  /-- A word given as a number. -/
  | raw (word : Word)
  /-- An instruction without an address. -/
  | fixed (i : Instruction)
  /-- An instruction on the address that an operand stands for. -/
  | addressed (op : AddressOp) (target : Operand)
  deriving DecidableEq, Repr

/-- What the labels of a program stand for, the latest first. -/
abbrev Labels : Type := List (String × UInt16)

/-- A value that must not be above `max`. -/
def fit (max value : Nat) : Except Problem Nat :=
  if value ≤ max then .ok value else .error (.outOfRange value max)

namespace Template

/-- The template of an operation on a register and a byte. -/
def byte (op : ByteOp) (x : Register) (value : Nat) : Except Problem Template :=
  (fit 0xFF value).map fun value => fixed (.byte op x (UInt8.ofNat value))

/-- The template of an operation on two registers. -/
def pair (op : PairOp) (x y : Register) : Except Problem Template := .ok (fixed (.pair op x y))

/-- The template of an operation on one register. -/
def single (op : SingleOp) (x : Register) : Except Problem Template := .ok (fixed (.single op x))

/-- The template of an operation that takes two registers and nothing else. -/
def ofPair? (op : PairOp) : List Operand → Option (Except Problem Template)
  | [.register x, .register y] => some (pair op x y)
  | _ => none

/-- The template of a shift, whose second register may be left out. -/
def ofShift? (op : PairOp) : List Operand → Option (Except Problem Template)
  | [.register x] => some (pair op x 0)
  | [.register x, .register y] => some (pair op x y)
  | _ => none

/-- The template of an operation that takes one register and nothing else. -/
def ofSingle? (op : SingleOp) : List Operand → Option (Except Problem Template)
  | [.register x] => some (single op x)
  | _ => none

/-- The template of an operation on a register and either a register or a byte. -/
def ofEither? (pairOp : PairOp) (byteOp : ByteOp) :
    List Operand → Option (Except Problem Template)
  | [.register x, .register y] => some (pair pairOp x y)
  | [.register x, .literal value] => some (byte byteOp x value)
  | _ => none

/-- The template of `LD`, which has a form for each way of moving a value. -/
def ofLoad? : List Operand → Option (Except Problem Template)
  | [.register x, .delay] => some (single .readDelay x)
  | [.register x, .key] => some (single .waitKey x)
  | [.register x, .indirect] => some (single .read x)
  | [.index, target] => some (.ok (addressed .loadI target))
  | [.delay, .register x] => some (single .setDelay x)
  | [.sound, .register x] => some (single .setSound x)
  | [.font, .register x] => some (single .loadFont x)
  | [.bcd, .register x] => some (single .bcd x)
  | [.indirect, .register x] => some (single .store x)
  | operands => ofEither? .move .load operands

/-- The template of a mnemonic with operands of given kinds; none if the mnemonic does
    not take them. -/
def ofForm? (mnemonic : Mnemonic) (operands : List Operand) :
    Option (Except Problem Template) :=
  match mnemonic with
  | .dw =>
    match operands with
    | [.literal value] => some ((fit 0xFFFF value).map fun value => raw (UInt16.ofNat value))
    | _ => none
  | .cls => if operands = [] then some (.ok (fixed .clear)) else none
  | .ret => if operands = [] then some (.ok (fixed .ret)) else none
  | .jp =>
    match operands with
    | [target] => some (.ok (addressed .jump target))
    | [.register x, target] => if x = 0 then some (.ok (addressed .jumpV0 target)) else none
    | _ => none
  | .call =>
    match operands with
    | [target] => some (.ok (addressed .call target))
    | _ => none
  | .se => ofEither? .skipEqual .skipEqual operands
  | .sne => ofEither? .skipUnequal .skipUnequal operands
  | .ld => ofLoad? operands
  | .add =>
    match operands with
    | [.index, .register x] => some (single .addI x)
    | operands => ofEither? .add .add operands
  | .or => ofPair? .or operands
  | .and => ofPair? .and operands
  | .xor => ofPair? .xor operands
  | .sub => ofPair? .sub operands
  | .subn => ofPair? .subFrom operands
  | .shr => ofShift? .shiftRight operands
  | .shl => ofShift? .shiftLeft operands
  | .rnd =>
    match operands with
    | [.register x, .literal value] => some (byte .random x value)
    | _ => none
  | .drw =>
    match operands with
    | [.register x, .register y, .literal rows] =>
      if 1 ≤ rows ∧ rows ≤ 15 then
        some (.ok (fixed (.draw x y (UInt8.ofNat rows))))
      else
        some (.error (.spriteHeight rows))
    | _ => none
  | .skp => ofSingle? .skipPressed operands
  | .sknp => ofSingle? .skipNotPressed operands

/-- The operands of a body, which are separated by commas. -/
def operandsOf (rest : List Char) : Except Problem (List Operand) :=
  if rest.isEmpty then .ok [] else (rest.splitOn ',').mapM fun token => Operand.ofToken (trim token)

/-- Read a body.  Operands are read before the mnemonic is looked at, so a malformed
    operand is reported first. -/
def ofBody (body : List Char) : Except Problem Template := do
  let name := String.ofList (upper (firstWord body))
  let rest := afterFirstWord body
  let operands ← operandsOf rest
  match Mnemonic.ofText? name with
  | none => .error (.unknownMnemonic name)
  | some mnemonic =>
    match ofForm? mnemonic operands with
    | none => .error (.wrongOperands name (String.ofList rest))
    | some template => template

/-- The address that an operand stands for. -/
def addressOf (labels : Labels) : Operand → Except Problem UInt16
  | .literal value => (fit 0xFFF value).map UInt16.ofNat
  | .label name =>
    match labels.lookup name with
    | none => .error (.undefinedLabel name)
    | some address => (fit 0xFFF address.toNat).map UInt16.ofNat
  | operand => .error (.badOperand operand.kindText)

/-- The word of a template, given what the labels stand for. -/
def resolve (labels : Labels) : Template → Except Problem Word
  | raw word => .ok word
  | fixed i => .ok i.encode
  | addressed op target =>
    (addressOf labels target).map fun addr => (Instruction.address op addr).encode

end Template

end Chip8.Assembly
