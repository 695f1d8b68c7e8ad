/-! # Decimal text

Counts and sizes are shown in decimal, with no more digits than they need. -/

namespace Chip8.Text

/-- A number in decimal. -/
def decimal (n : Nat) : String := String.ofList (Nat.toDigits 10 n)

end Chip8.Text
