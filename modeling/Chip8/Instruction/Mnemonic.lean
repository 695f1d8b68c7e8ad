/-! # Mnemonics

The names of the instructions in assembly, many of them shared by several, and `DW`
for a word that is given as a number. -/

namespace Chip8

/-- The first word of a statement. -/
inductive Mnemonic where
  | cls | ret | jp | call | se | sne | ld | add | or | and | xor | sub | subn | shr | shl
  | rnd | drw | skp | sknp
  /-- A raw word. -/
  | dw
  deriving DecidableEq, Repr

namespace Mnemonic

/-- The spelling of a mnemonic. -/
def text : Mnemonic → String
  | cls => "CLS"
  | ret => "RET"
  | jp => "JP"
  | call => "CALL"
  | se => "SE"
  | sne => "SNE"
  | ld => "LD"
  | add => "ADD"
  | or => "OR"
  | and => "AND"
  | xor => "XOR"
  | sub => "SUB"
  | subn => "SUBN"
  | shr => "SHR"
  | shl => "SHL"
  | rnd => "RND"
  | drw => "DRW"
  | skp => "SKP"
  | sknp => "SKNP"
  | dw => "DW"

/-- Every mnemonic. -/
def all : List Mnemonic :=
  [cls, ret, jp, call, se, sne, ld, add, or, and, xor, sub, subn, shr, shl, rnd, drw, skp,
    sknp, dw]

/-- The mnemonic that is spelled `name`, in upper case. -/
def ofText? (name : String) : Option Mnemonic := all.find? fun m => m.text = name

@[simp] theorem ofText?_text (m : Mnemonic) : ofText? m.text = some m := by
  cases m <;> decide

theorem ofText?_eq_some_iff {name : String} {m : Mnemonic} :
    ofText? name = some m ↔ m.text = name := by
  constructor
  · intro h
    simpa using List.find?_some h
  · rintro rfl
    exact ofText?_text m

end Mnemonic

end Chip8
