/-! # Blanks

Blanks are the characters with the `White_Space` property: the ASCII controls
from tab to carriage return, the space, and the separators listed below.  The
property is fixed, so the table is complete.

Trimming takes blanks off both ends; a text splits into its first word and the
trimmed rest. -/

namespace Chip8.Text

/-- Whether `c` has the `White_Space` property. -/
def isBlank (c : Char) : Bool :=
  let n := c.toNat
  (0x09 ≤ n && n ≤ 0x0D) || n == 0x20 || n == 0x85 || n == 0xA0 || n == 0x1680 ||
    (0x2000 ≤ n && n ≤ 0x200A) || n == 0x2028 || n == 0x2029 || n == 0x202F ||
    n == 0x205F || n == 0x3000

/-- The text without its leading blanks. -/
def trimLeft (cs : List Char) : List Char := cs.dropWhile isBlank

/-- The text without its trailing blanks. -/
def trimRight (cs : List Char) : List Char := (cs.reverse.dropWhile isBlank).reverse

/-- The text without the blanks at either end. -/
def trim (cs : List Char) : List Char := trimRight (trimLeft cs)

/-- The characters up to the first blank. -/
def firstWord (cs : List Char) : List Char := cs.takeWhile (!isBlank ·)

/-- What follows the first word, trimmed. -/
def afterFirstWord (cs : List Char) : List Char := trim (cs.dropWhile (!isBlank ·))

/-- The text with ASCII letters in upper case; all other characters stay. -/
def upper (cs : List Char) : List Char := cs.map Char.toUpper

/-- The lines of a text: what stands between its newlines.  A newline at the end
    closes the last line and opens no further one. -/
def lines (cs : List Char) : List (List Char) :=
  let pieces := cs.splitOn '\n'
  if pieces.getLast? = some [] then pieces.dropLast else pieces

@[simp] theorem trim_nil : trim [] = [] := rfl

end Chip8.Text
