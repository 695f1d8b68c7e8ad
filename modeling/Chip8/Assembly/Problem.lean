import Chip8.Fault

/-! # Problems in assembly source

What can be wrong with a statement or a program, and the wording of each.  An
`Error` is a problem on a line; lines are counted from one. -/

namespace Chip8.Assembly

open Text

/-- Something that keeps source from being assembled. -/
inductive Problem where
  | unknownMnemonic (name : String)
  /-- The mnemonic exists, but not with operands of these kinds. -/
  | wrongOperands (mnemonic operands : String)
  | badOperand (token : String)
  /-- A number is too large for its field. -/
  | outOfRange (value max : Nat)
  | spriteHeight (rows : Nat)
  | noRegister (index : Nat)
  | undefinedLabel (name : String)
  | duplicateLabel (name : String)
  | invalidLabel (name : String)
  | programTooLarge (size capacity : Nat)
  deriving DecidableEq, Repr

/-- A name in quotation marks. -/
def quoted (name : String) : String := "'" ++ name ++ "'"

def Problem.message : Problem → String
  | unknownMnemonic name => "unknown mnemonic " ++ quoted name
  | wrongOperands mnemonic operands =>
    quoted mnemonic ++ " does not take operands " ++ quoted operands
  | badOperand token => quoted token ++ " is not a number, register or label"
  | outOfRange value max =>
    "0x" ++ hex 1 value ++ " does not fit, the largest allowed value is 0x" ++ hex 1 max
  | spriteHeight rows => "sprites are 1 to 15 rows tall, not " ++ decimal rows
  | noRegister index => (RangeFault.noRegister index).message
  | undefinedLabel name => "label " ++ quoted name ++ " is never defined"
  | duplicateLabel name => "label " ++ quoted name ++ " is defined more than once"
  | invalidLabel name => quoted name ++ " is not a valid label name"
  | programTooLarge size capacity => oversizeText size capacity

/-- A problem and the line it is on. -/
structure Error where
  line : Nat
  problem : Problem
  deriving DecidableEq, Repr

def Error.message (e : Error) : String :=
  "line " ++ decimal e.line ++ ": " ++ e.problem.message

end Chip8.Assembly
