/-! # Hexadecimal text

Numbers are shown in upper-case hexadecimal throughout: addresses, words, bytes,
register names and the values quoted in error messages.  A number has as many
digits as it needs and at least as many as its place asks for. -/

namespace Chip8.Text

/-- The digit for a value below sixteen: `0` to `9`, then `A` to `F`. -/
def hexDigit (d : Nat) : Char :=
  Char.ofNat (if d < 10 then 48 + d else 55 + d)

/-- The lowest `width` hexadecimal digits of `n`, most significant first. -/
def hexDigits : Nat → Nat → List Char
  | 0, _ => []
  | width + 1, n => hexDigits width (n / 16) ++ [hexDigit (n % 16)]

/-- How many hexadecimal digits `n` needs; zero needs one. -/
def hexLength (n : Nat) : Nat := n.log2 / 4 + 1

/-- The digits of `n`, padded with zeros to at least `width` of them. -/
def hexText (width n : Nat) : List Char :=
  hexDigits (max width (hexLength n)) n

/-- The same digits as a string. -/
def hex (width n : Nat) : String := String.ofList (hexText width n)

@[simp] theorem length_hexDigits (width n : Nat) : (hexDigits width n).length = width := by
  induction width generalizing n with
  | zero => rfl
  | succ width ih => simp [hexDigits, ih]

end Chip8.Text
