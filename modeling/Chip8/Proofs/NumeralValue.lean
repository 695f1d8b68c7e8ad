import Chip8.Proofs.LetterCase
import Chip8.Proofs.NumeralText
import Mathlib.Data.Nat.Digits.Defs

/-!
# The value of a numeral

What a numeral stands for can be said without reading it: its digits, from the highest to the
lowest, are those of the number.  The reader goes from the first digit to the last and
multiplies as it goes, and finds this number and no other.  Besides digits it takes one plus
sign in front of them.

## Key results

- `digitValue?_eq_some_iff`: the value of a digit, of either case
- `digits?_eq_some_iff`: a run of digits is read as the number that it denotes
- `numeral?_eq_some_iff`: so is a numeral, with a plus sign in front or without one
- `numeral?_upper`: the case of the digits does not matter
-/

namespace Chip8.Text

/-! ## Digits -/

theorem toNat_hexDigit {d : Nat} (h : d < 16) :
    (hexDigit d).toNat = if d < 10 then 48 + d else 55 + d := by
  have table : ∀ d : Fin 16,
      (hexDigit d).toNat = if d.val < 10 then 48 + d.val else 55 + d.val := by
    decide
  exact table ⟨d, h⟩

/-- A digit has the value that it is printed for, once it is in upper case. -/
theorem digitValue?_eq_some_iff {radix : Nat} (hradix : radix ≤ 16) {c : Char} {d : Nat} :
    digitValue? radix c = some d ↔ d < radix ∧ c.toUpper = hexDigit d := by
  simp only [digitValue?, Option.filter_eq_some_iff, decide_eq_true_eq]
  rw [and_comm, and_congr_right_iff]
  intro hd
  rw [← Char.toNat_inj, toNat_toUpper, toNat_hexDigit (Nat.lt_of_lt_of_le hd hradix)]
  split_ifs <;> simp only [Option.some.injEq, false_iff] <;> omega

/-! ## Runs of digits -/

/-- A run of digits, of either case and from the highest to the lowest, denotes a number.  There
    is at least one digit, and leading zeros are free. -/
def Denotes (radix : Nat) (cs : List Char) (n : Nat) : Prop :=
  ∃ ds : List Nat, ds ≠ [] ∧ (∀ d ∈ ds, d < radix) ∧ upper cs = ds.map hexDigit ∧
    Nat.ofDigits radix ds.reverse = n

theorem denotes_upper {radix : Nat} {cs : List Char} {n : Nat} :
    Denotes radix (upper cs) n ↔ Denotes radix cs n := by
  rw [Denotes, Denotes, upper_upper]

section
variable {radix : Nat} (hradix : radix ≤ 16)
include hradix

/-- Reading multiplies what has been read by the radix and adds the next digit. -/
theorem digitsFrom?_eq_some_iff {cs : List Char} {start n : Nat} :
    digitsFrom? radix start cs = some n ↔
      ∃ ds : List Nat, (∀ d ∈ ds, d < radix) ∧ upper cs = ds.map hexDigit ∧
        ds.foldl (fun m d => radix * m + d) start = n := by
  induction cs generalizing start with
  | nil =>
    rw [digitsFrom?, Option.some.injEq]
    constructor
    · rintro rfl
      exact ⟨[], List.forall_mem_nil _, rfl, rfl⟩
    · rintro ⟨ds, -, hdigits, rfl⟩
      rw [List.map_eq_nil_iff.1 hdigits.symm]
      rfl
  | cons c cs ih =>
    rw [digitsFrom?, Option.bind_eq_some_iff]
    -- The first digit is the first of the list, and the others are read on from what it makes.
    simp only [digitValue?_eq_some_iff hradix, ih]
    constructor
    · rintro ⟨d, ⟨hd, hc⟩, ds, hds, hcs, hn⟩
      refine ⟨d :: ds, List.forall_mem_cons.2 ⟨hd, hds⟩, ?_, hn⟩
      rw [List.map_cons, ← hc, ← hcs]
      rfl
    · rintro ⟨ds, hds, hcs, hn⟩
      cases ds with
      | nil => cases hcs
      | cons d ds =>
        obtain ⟨hc, hcs⟩ := List.cons.inj hcs
        rw [List.forall_mem_cons] at hds
        exact ⟨d, ⟨hds.1, hc⟩, ds, hds.2, hcs, hn⟩

/-- A run of digits is read as the number that it denotes. -/
theorem digits?_eq_some_iff {cs : List Char} {n : Nat} :
    digits? radix cs = some n ↔ Denotes radix cs n := by
  have hfoldl : ∀ ds : List Nat,
      Nat.ofDigits radix ds.reverse = ds.foldl (fun m d => radix * m + d) 0 := by
    intro ds
    rw [Nat.ofDigits_eq_foldr, List.foldr_reverse]
    simp only [Nat.cast_id, Nat.add_comm]
  cases cs with
  | nil =>
    refine ⟨nofun, ?_⟩
    rintro ⟨ds, hne, -, hdigits, -⟩
    exact absurd (List.map_eq_nil_iff.1 hdigits.symm) hne
  | cons c cs =>
    rw [digits?, digitsFrom?_eq_some_iff hradix, Denotes]
    simp only [hfoldl]
    -- What is read is not empty, and so neither are its digits.
    refine exists_congr fun ds => (and_iff_right_of_imp ?_).symm
    rintro ⟨-, hdigits, -⟩ rfl
    exact nomatch hdigits

/-- A run of digits denotes one number. -/
theorem Denotes.unique {cs : List Char} {m n : Nat} (hm : Denotes radix cs m)
    (hn : Denotes radix cs n) : m = n := by
  rw [← digits?_eq_some_iff hradix] at hm hn
  exact Option.some.inj (hm.symm.trans hn)

/-- A digit on its own denotes its value. -/
theorem denotes_singleton_iff {c : Char} {d : Nat} :
    Denotes radix [c] d ↔ digitValue? radix c = some d := by
  rw [← digits?_eq_some_iff hradix]
  simp [digits?, digitsFrom?]

/-- A numeral below the limit is a run of digits, and may have a plus sign in front. -/
theorem numeral?_eq_some_iff {limit n : Nat} {cs : List Char} :
    numeral? radix limit cs = some n ↔
      n < limit ∧ (Denotes radix cs n ∨ ∃ digits, cs = '+' :: digits ∧ Denotes radix digits n) := by
  have hread : ∀ ds, (digits? radix ds).filter (· < limit) = some n ↔
      n < limit ∧ Denotes radix ds n := by
    intro ds
    rw [Option.filter_eq_some_iff, digits?_eq_some_iff hradix, decide_eq_true_eq, and_comm]
  unfold numeral?
  split
  · rename_i digits
    -- A plus sign is no digit.
    have hplus : ¬Denotes radix ('+' :: digits) n := by
      rw [← digits?_eq_some_iff hradix, digits?_eq_none List.mem_cons_self rfl]
      exact nofun
    rw [hread, and_congr_right_iff]
    intro _
    constructor
    · exact fun h => .inr ⟨digits, rfl, h⟩
    · rintro (h | ⟨ds, hds, h⟩)
      · exact absurd h hplus
      · cases hds
        exact h
  · rename_i hne
    rw [hread, and_congr_right_iff]
    intro _
    exact ⟨.inl, fun h => h.resolve_right fun ⟨ds, hds, _⟩ => hne ds hds⟩

/-- A numeral may be put in upper case before it is read. -/
theorem numeral?_upper (limit : Nat) (cs : List Char) :
    numeral? radix limit (upper cs) = numeral? radix limit cs := by
  ext n
  rw [numeral?_eq_some_iff hradix, numeral?_eq_some_iff hradix]
  rw [denotes_upper, and_congr_right_iff]
  intro _
  -- The plus sign has no case, so it is there before or after.
  refine or_congr_right ⟨?_, ?_⟩
  · rintro ⟨digits, hupper, hdigits⟩
    obtain ⟨c, ds, rfl, hc, rfl⟩ := List.map_eq_cons_iff.1 hupper
    rw [(toUpper_eq_iff rfl).1 hc]
    exact ⟨ds, rfl, denotes_upper.1 hdigits⟩
  · rintro ⟨digits, rfl, hdigits⟩
    exact ⟨upper digits, rfl, denotes_upper.2 hdigits⟩

/-- A number is denoted by digits and nothing else. -/
theorem exists_digit_of_denotes {cs : List Char} {n : Nat} (h : Denotes radix cs n) :
    ∀ c ∈ cs, ∃ d : Fin 16, d.val < radix ∧ c.toUpper = hexDigit d := by
  obtain ⟨ds, -, hds, hdigits, -⟩ := h
  intro c hc
  have hmem : c.toUpper ∈ ds.map hexDigit := hdigits ▸ List.mem_map_of_mem hc
  obtain ⟨d, hd, heq⟩ := List.mem_map.1 hmem
  exact ⟨⟨d, Nat.lt_of_lt_of_le (hds d hd) hradix⟩, hds d hd, heq.symm⟩

end

end Chip8.Text
