import Chip8.Assembly.Problem
import Chip8.Register
import Chip8.Text.Blank
import Chip8.Text.Numeral

/-! # Operands

An operand is a keyword, a register, a number or a label, tried in this order.

Keywords, registers and numbers may be in either case.  A register is a `V` with one
hexadecimal digit or with several decimal ones.  A number is hexadecimal behind `#`,
`$` or `0x`, and decimal when it starts with a digit.  What is none of these but
shaped like an identifier names a label, in exactly the case it is written in. -/

namespace Chip8.Assembly

open Text

/-- An operand of a statement. -/
inductive Operand where
  | register (r : Register)
  | literal (value : Nat)
  | label (name : String)
  /-- The address register, `I`. -/
  | index
  /-- The memory at the address register, `[I]`. -/
  | indirect
  /-- The delay timer, `DT`. -/
  | delay
  /-- The sound timer, `ST`. -/
  | sound
  /-- The next key press, `K`. -/
  | key
  /-- The font, `F`. -/
  | font
  /-- Decimal digits, `B`. -/
  | bcd
  deriving DecidableEq, Repr

/-- Whether a token has the shape of a name: a letter or an underscore, then letters,
    digits and underscores, all of ASCII. -/
def isIdentifier : List Char → Bool
  | [] => false
  | c :: cs => (c.isAlpha || c == '_') && cs.all fun c => c.isAlphanum || c == '_'

namespace Operand

/-- The keyword that is spelled by a token in upper case. -/
def keyword? : List Char → Option Operand
  | ['I'] => some index
  | ['[', 'I', ']'] => some indirect
  | ['D', 'T'] => some delay
  | ['S', 'T'] => some sound
  | ['K'] => some key
  | ['F'] => some font
  | ['B'] => some bcd
  | _ => none

/-- The register index that a token in upper case spells, whether or not there is such
    a register.  Indexes of `2 ^ 64` and above are not read as indexes. -/
def registerIndex? : List Char → Option Nat
  | ['V', c] => digitValue? 16 c
  | 'V' :: cs => (digits? 10 cs).filter (· < UInt64.size)
  | _ => none

/-- The radix and the digits of a token in upper case that is marked as a number. -/
def numberParts? : List Char → Option (Nat × List Char)
  | '#' :: cs => some (16, cs)
  | '$' :: cs => some (16, cs)
  | '0' :: 'X' :: cs => some (16, cs)
  | c :: cs => if c.isDigit then some (10, c :: cs) else none
  | [] => none

/-- Read a token.  A number that is marked as one but malformed, or not below `2 ^ 32`,
    is quoted in upper case; anything else that cannot be read is quoted as it is. -/
def ofToken (token : List Char) : Except Problem Operand :=
  let token' := upper token
  match keyword? token' with
  | some operand => .ok operand
  | none =>
    match registerIndex? token' with
    | some n => if h : n < 16 then .ok (.register ⟨n, h⟩) else .error (.noRegister n)
    | none =>
      match numberParts? token' with
      | some (radix, digits) =>
        match numeral? radix UInt32.size digits with
        | some value => .ok (.literal value)
        | none => .error (.badOperand (String.ofList token'))
      | none =>
        if isIdentifier token then
          .ok (.label (String.ofList token))
        else
          .error (.badOperand (String.ofList token))

/-- How an operand is called where it stands in the place of an address. -/
def kindText : Operand → String
  | register r => "Register(Register(" ++ decimal r.val ++ "))"
  | literal value => "Literal(" ++ decimal value ++ ")"
  | label name => "Label(\"" ++ name ++ "\")"
  | index => "Index"
  | indirect => "Indirect"
  | delay => "Delay"
  | sound => "Sound"
  | key => "Key"
  | font => "Font"
  | bcd => "Bcd"

end Operand

end Chip8.Assembly
