import Chip8.Instruction.Code
import Chip8.Instruction.Text

/-! # Listings

A listing shows a program image word by word.  Words that are no instruction, mostly
the data of sprites, are shown as raw words, so that the text of a listing assembles
to the image again.  An odd byte at the end is taken as the high byte of a word. -/

namespace Chip8.Assembly

open Text

/-- The assembly text of a word, if it is an instruction. -/
def disassemble (word : Word) : Except Fault String :=
  match Instruction.decode? word with
  | none => .error (.undecodable word)
  | some i => .ok i.text

/-- The statement that stands for a word: an instruction where possible. -/
def statementOf (word : Word) : String :=
  match Instruction.decode? word with
  | none => Mnemonic.dw.text ++ " #" ++ hex 4 word.toNat
  | some i => i.text

/-- A line of a listing. -/
structure Row where
  address : UInt16
  word : Word
  text : String
  deriving DecidableEq, Repr

/-- The address, the word and the statement, in columns. -/
def Row.line (r : Row) : String :=
  hex 4 r.address.toNat ++ ": " ++ hex 4 r.word.toNat ++ "  " ++ r.text

/-- The words of an image.  A last byte on its own is followed by a zero. -/
def wordsOf : List UInt8 → List Word
  | [] => []
  | [high] => [Word.ofBytes high 0]
  | high :: low :: rest => Word.ofBytes high low :: wordsOf rest

/-- The rows of words that are placed from `address` on.  Addresses wrap. -/
def rowsOf (address : UInt16) : List Word → List Row
  | [] => []
  | word :: rest => { address, word, text := statementOf word } :: rowsOf (address + 2) rest

/-- The listing of an image that is placed at `base`. -/
def listing (image : List UInt8) (base : UInt16) : List Row := rowsOf base (wordsOf image)

theorem length_wordsOf (image : List UInt8) : (wordsOf image).length = (image.length + 1) / 2 := by
  fun_induction wordsOf image with
  | case1 => rfl
  | case2 => simp
  | case3 high low rest ih => simp only [List.length_cons, ih]; omega

@[simp] theorem length_rowsOf (address : UInt16) (words : List Word) :
    (rowsOf address words).length = words.length := by
  induction words generalizing address with
  | nil => rfl
  | cons word rest ih => simp [rowsOf, ih]

end Chip8.Assembly
