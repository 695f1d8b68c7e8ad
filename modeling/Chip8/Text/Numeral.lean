/-! # Reading numbers

A numeral is a run of at least one digit of the radix, of either case, which may
carry a single plus sign in front.  Leading zeros are free.  Nothing else is
read: no minus sign, no separators and no blanks.

The value is bounded by the place that asks for it, so a reader names the first
value that is too large. -/

namespace Chip8.Text

/-- The value of `c` as a digit of `radix`; letters of either case count from ten. -/
def digitValue? (radix : Nat) (c : Char) : Option Nat :=
  let n := c.toNat
  let value? : Option Nat :=
    if 48 ≤ n ∧ n ≤ 57 then some (n - 48)
    else if 65 ≤ n ∧ n ≤ 90 then some (n - 55)
    else if 97 ≤ n ∧ n ≤ 122 then some (n - 87)
    else none
  value?.filter (· < radix)

/-- The value of a run of digits, read after digits that stand for `n`. -/
def digitsFrom? (radix n : Nat) : List Char → Option Nat
  | [] => some n
  | c :: cs => (digitValue? radix c).bind fun d => digitsFrom? radix (radix * n + d) cs

/-- The value of a non-empty run of digits. -/
def digits? (radix : Nat) : List Char → Option Nat
  | [] => none
  | c :: cs => digitsFrom? radix 0 (c :: cs)

/-- The value of a numeral, if it is well formed and below `limit`. -/
def numeral? (radix limit : Nat) : List Char → Option Nat
  | '+' :: cs => (digits? radix cs).filter (· < limit)
  | cs => (digits? radix cs).filter (· < limit)

end Chip8.Text
