import Chip8.Text.Hex
import Chip8.Text.Numeral
import Mathlib.Algebra.Group.Nat.Defs

/-!
# Printed numbers read back

Numbers are written by `hexText` and read by `numeral?`, which share neither a table nor
a digit.  This file shows that reading undoes writing.

## Key results

- `digits?_hexText`: the digits of a number read back as the number
- `numeral?_hexText`: so does the numeral, when the number is below the limit
-/

namespace Chip8.Text

theorem digitValue?_hexDigit {d : Nat} (h : d < 16) : digitValue? 16 (hexDigit d) = some d := by
  have table : ∀ d : Fin 16, digitValue? 16 (hexDigit d) = some d.val := by decide
  exact table ⟨d, h⟩

/-- Reading goes on where it left off. -/
theorem digitsFrom?_append (radix n : Nat) (cs ds : List Char) :
    digitsFrom? radix n (cs ++ ds) =
      (digitsFrom? radix n cs).bind fun m => digitsFrom? radix m ds := by
  induction cs generalizing n with
  | nil => rfl
  | cons c cs ih =>
    simp only [List.cons_append, digitsFrom?]
    cases digitValue? radix c with
    | none => rfl
    | some d => exact ih (radix * n + d)

/-- The digits that are read shift what was read before them to the left. -/
theorem digitsFrom?_hexDigits (width n m : Nat) :
    digitsFrom? 16 m (hexDigits width n) = some (m * 16 ^ width + n % 16 ^ width) := by
  induction width generalizing n with
  | zero => simp [hexDigits, digitsFrom?, Nat.mod_one]
  | succ width ih =>
    have hdigit := digitValue?_hexDigit (Nat.mod_lt n (by decide : 16 > 0))
    rw [hexDigits, digitsFrom?_append, ih]
    simp only [Option.bind_some, digitsFrom?, hdigit]
    -- The last digit is the remainder, and those before it are the quotient's.
    rw [Nat.pow_succ, Nat.mul_comm (16 ^ width) 16, Nat.mod_mul]
    congr 1
    rw [Nat.mul_add, Nat.mul_left_comm]
    omega

/-- A number always fits in the digits it is said to need. -/
theorem lt_pow_hexLength (n : Nat) : n < 16 ^ hexLength n := by
  have h : n < 2 ^ (n.log2 + 1) := Nat.lt_log2_self
  have e : (16 : Nat) ^ hexLength n = 2 ^ (4 * hexLength n) := by
    rw [Nat.pow_mul]
  rw [e]
  refine Nat.lt_of_lt_of_le h (Nat.pow_le_pow_right (by decide) ?_)
  unfold hexLength
  omega

theorem length_hexText_pos (width n : Nat) : 0 < (hexText width n).length := by
  rw [hexText, length_hexDigits, hexLength]
  omega

/-- The digits of a number read back as the number. -/
theorem digits?_hexText (width n : Nat) : digits? 16 (hexText width n) = some n := by
  have hread : digitsFrom? 16 0 (hexText width n) = some n := by
    -- There are digits enough for the whole number.
    have hlt : n < 16 ^ max width (hexLength n) :=
      Nat.lt_of_lt_of_le (lt_pow_hexLength n)
        (Nat.pow_le_pow_right (by decide) (Nat.le_max_right _ _))
    rw [hexText, digitsFrom?_hexDigits, Nat.zero_mul, Nat.zero_add, Nat.mod_eq_of_lt hlt]
  cases htext : hexText width n with
  | nil =>
    -- There is always a digit.
    have := length_hexText_pos width n
    rw [htext] at this
    exact absurd this (Nat.lt_irrefl 0)
  | cons c cs =>
    rw [htext] at hread
    exact hread

/-- A printed number is made of nothing but digits. -/
theorem eq_hexDigit_of_mem {width n : Nat} {c : Char} (h : c ∈ hexText width n) :
    ∃ d : Fin 16, c = hexDigit d := by
  have digits : ∀ width n, c ∈ hexDigits width n → ∃ d : Fin 16, c = hexDigit d := by
    intro width
    induction width with
    | zero => exact fun _ h => nomatch h
    | succ width ih =>
      intro n h
      rw [hexDigits, List.mem_append, List.mem_singleton] at h
      rcases h with h | rfl
      · exact ih _ h
      · exact ⟨⟨n % 16, Nat.mod_lt n (by decide)⟩, rfl⟩
  exact digits _ n h

/-- A number below the limit reads back as a numeral. -/
theorem numeral?_hexText {width n limit : Nat} (h : n < limit) :
    numeral? 16 limit (hexText width n) = some n := by
  have hread : (digits? 16 (hexText width n)).filter (· < limit) = some n := by
    simp [digits?_hexText, h]
  unfold numeral?
  split
  · -- A plus sign is no digit.
    rename_i cs htext
    obtain ⟨d, hd⟩ := eq_hexDigit_of_mem (htext ▸ List.mem_cons_self)
    exact absurd hd (by revert d; decide)
  · exact hread

/-- Nothing but digits is read as digits. -/
theorem digits?_eq_none {radix : Nat} {cs : List Char} {c : Char} (hc : c ∈ cs)
    (hdigit : digitValue? radix c = none) : digits? radix cs = none := by
  have hfrom : ∀ n, digitsFrom? radix n cs = none := by
    induction cs with
    | nil => exact nomatch hc
    | cons d ds ih =>
      intro n
      rcases List.mem_cons.1 hc with rfl | hc
      · rw [digitsFrom?, hdigit, Option.bind_none]
      · rw [digitsFrom?, Option.bind_eq_none_iff]
        exact fun value _ => ih hc _
  cases cs with
  | nil => rfl
  | cons d ds => exact hfrom 0

end Chip8.Text
