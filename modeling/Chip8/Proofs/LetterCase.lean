import Chip8.Proofs.StatementText
import Mathlib.Tactic.SplitIfs

/-!
# Upper case

Putting a text in upper case changes letters of ASCII and nothing else.  None of the characters
at which a text is cut is a letter, so it does not matter whether a text is put in upper case
before it is cut or after.

## Key results

- `toUpper_eq_iff`: a character that is no letter is the upper case of itself alone
- `isBlank_toUpper`, `isPlain_toUpper`: what a character means to the passes does not change
- `trim_upper`, `firstWord_upper`, `afterFirstWord_upper`, `splitOn_upper`: cutting a text that
  is in upper case
-/

namespace Chip8.Text

/-! ## Characters -/

theorem toNat_toUpper (c : Char) :
    c.toUpper.toNat = if 97 ≤ c.toNat ∧ c.toNat ≤ 122 then c.toNat - 32 else c.toNat := by
  have hlower : ('a'.val ≤ c.val ∧ c.val ≤ 'z'.val) ↔ 97 ≤ c.toNat ∧ c.toNat ≤ 122 := Iff.rfl
  unfold Char.toUpper
  simp only [hlower]
  split
  · rename_i h
    -- Thirty-two is subtracted by adding its complement.
    have hshift : ('A'.val - 'a'.val).toNat = 2 ^ 32 - 32 := rfl
    show (c.val + ('A'.val - 'a'.val)).toNat = c.toNat - 32
    rw [UInt32.toNat_add, hshift]
    show (c.toNat + _) % _ = _
    omega
  · rfl

theorem isAlpha_iff_toNat {c : Char} :
    c.isAlpha = true ↔ 65 ≤ c.toNat ∧ c.toNat ≤ 90 ∨ 97 ≤ c.toNat ∧ c.toNat ≤ 122 := by
  have hupper : c.isUpper = true ↔ 65 ≤ c.toNat ∧ c.toNat ≤ 90 := decide_eq_true_iff
  have hlower : c.isLower = true ↔ 97 ≤ c.toNat ∧ c.toNat ≤ 122 :=
    Bool.and_eq_true_iff.trans (and_congr decide_eq_true_iff decide_eq_true_iff)
  rw [← hupper, ← hlower]
  exact Bool.or_eq_true_iff

/-- A character that is no letter is the upper case of itself alone. -/
theorem toUpper_eq_iff {c d : Char} (hd : d.isAlpha = false) : c.toUpper = d ↔ c = d := by
  rw [← Bool.not_eq_true, isAlpha_iff_toNat] at hd
  rw [← Char.toNat_inj, ← Char.toNat_inj, toNat_toUpper]
  split_ifs <;> omega

/-- A letter in upper case is the upper case of itself and of one in lower case. -/
theorem toUpper_eq_letter_iff {c upperLetter lowerLetter : Char}
    (hupper : 65 ≤ upperLetter.toNat ∧ upperLetter.toNat ≤ 90)
    (hlower : lowerLetter.toNat = upperLetter.toNat + 32) :
    c.toUpper = upperLetter ↔ c = upperLetter ∨ c = lowerLetter := by
  rw [← Char.toNat_inj, ← Char.toNat_inj, ← Char.toNat_inj, toNat_toUpper]
  split_ifs <;> omega

theorem isAlpha_toUpper (c : Char) : c.toUpper.isAlpha = c.isAlpha := by
  rw [Bool.eq_iff_iff, isAlpha_iff_toNat, isAlpha_iff_toNat, toNat_toUpper]
  split_ifs <;> omega

theorem isDigit_toUpper (c : Char) : c.toUpper.isDigit = c.isDigit := by
  rw [Bool.eq_iff_iff, Char.isDigit_iff_toNat, Char.isDigit_iff_toNat, toNat_toUpper]
  show 48 ≤ _ ∧ _ ≤ 57 ↔ 48 ≤ _ ∧ _ ≤ 57
  split_ifs <;> omega

theorem isBlank_toUpper (c : Char) : isBlank c.toUpper = isBlank c := by
  rw [Bool.eq_iff_iff]
  -- No number of a letter, in either case, is among those of the blanks.
  simp only [isBlank, Bool.or_eq_true, Bool.and_eq_true, decide_eq_true_eq, beq_iff_eq,
    toNat_toUpper]
  split_ifs <;> omega

theorem isPlain_toUpper (c : Char) : isPlain c.toUpper = isPlain c := by
  have hne : ∀ d : Char, d.isAlpha = false → (c.toUpper != d) = (c != d) := by
    intro d hd
    rw [Bool.eq_iff_iff, bne_iff_ne, bne_iff_ne, Ne, toUpper_eq_iff hd]
  rw [isPlain, isPlain, isBlank_toUpper, hne ',' rfl, hne ';' rfl, hne ':' rfl]

/-! ## Texts -/

theorem upper_upper (cs : List Char) : upper (upper cs) = upper cs := by
  rw [upper, upper, List.map_map]
  refine List.map_congr_left fun c _ => ?_
  -- What was put in upper case is in no range that is shifted.
  show c.toUpper.toUpper = c.toUpper
  rw [← Char.toNat_inj, toNat_toUpper, toNat_toUpper]
  split_ifs <;> omega

section
variable {p : Char → Bool} (h : ∀ c : Char, p c.toUpper = p c)
include h

theorem takeWhile_upper (cs : List Char) : (upper cs).takeWhile p = upper (cs.takeWhile p) := by
  -- The test sees no difference between a character and its upper case.
  have hsame : p ∘ Char.toUpper = p := funext h
  rw [upper, List.takeWhile_map, hsame]
  rfl

theorem dropWhile_upper (cs : List Char) : (upper cs).dropWhile p = upper (cs.dropWhile p) := by
  have hsame : p ∘ Char.toUpper = p := funext h
  rw [upper, List.dropWhile_map, hsame]
  rfl

end

/-- A separator that is no letter is found where it was. -/
theorem ne_toUpper {sep : Char} (hsep : sep.isAlpha = false) (c : Char) :
    decide (c.toUpper ≠ sep) = decide (c ≠ sep) := by
  rw [decide_eq_decide, Ne, toUpper_eq_iff hsep]

theorem trim_upper (cs : List Char) : trim (upper cs) = upper (trim cs) := by
  rw [trim, trim, trimLeft, trimLeft, dropWhile_upper isBlank_toUpper, trimRight, trimRight, upper,
    ← List.map_reverse]
  show ((upper _).dropWhile isBlank).reverse = _
  rw [dropWhile_upper isBlank_toUpper, upper, upper, List.map_reverse]

private theorem not_isBlank_toUpper (c : Char) : (!isBlank c.toUpper) = !isBlank c := by
  rw [isBlank_toUpper]

theorem firstWord_upper (cs : List Char) : firstWord (upper cs) = upper (firstWord cs) :=
  takeWhile_upper not_isBlank_toUpper cs

theorem afterFirstWord_upper (cs : List Char) :
    afterFirstWord (upper cs) = upper (afterFirstWord cs) := by
  rw [afterFirstWord, dropWhile_upper not_isBlank_toUpper, trim_upper, afterFirstWord]

/-- A text in upper case is cut where it was cut before. -/
theorem splitOn_upper {sep : Char} (hsep : sep.isAlpha = false) (cs : List Char) :
    (upper cs).splitOn sep = (cs.splitOn sep).map upper := by
  induction cs with
  | nil => rfl
  | cons c cs ih =>
    have hupper : upper (c :: cs) = c.toUpper :: upper cs := rfl
    rw [hupper, List.splitOn_cons_eq_if_modifyHead, List.splitOn_cons_eq_if_modifyHead, ih]
    simp only [beq_iff_eq, toUpper_eq_iff hsep]
    split
    · rfl
    · -- The character goes in front of the first piece, in upper case or not.
      cases cs.splitOn sep <;> rfl

end Chip8.Text
