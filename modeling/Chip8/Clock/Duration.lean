import Chip8.Clock.Ticker

/-! # Durations

A duration is kept in two words: whole seconds, and the nanoseconds that do not make up
another one.  Sums, differences and multiples carry or borrow seconds, and there is none
where the seconds do not fit into their word or where more would be taken away than there
is.

`Duration.toNanos` is the length in nanoseconds; each operation is told by what it does to
the length (`add?_eq_some_iff`, `sub?_eq_some_iff`, `times?_eq_some_iff`). -/

namespace Chip8

/-- A length of time. -/
structure Duration where
  seconds : UInt64
  /-- What is left over, less than a second. -/
  nanos : UInt32
  nanos_lt : nanos.toNat < nanosPerSecond
  deriving DecidableEq

namespace Duration

/-- The length in nanoseconds. -/
def toNanos (d : Duration) : Nat := nanosPerSecond * d.seconds.toNat + d.nanos.toNat

/-- The first length that is too long for a duration. -/
def limit : Nat := nanosPerSecond * UInt64.size

def zero : Duration := { seconds := 0, nanos := 0, nanos_lt := by decide }

/-- What does not make up a second fits into its word. -/
theorem toNat_nanos_mod (nanos : Nat) :
    (UInt32.ofNat (nanos % nanosPerSecond)).toNat = nanos % nanosPerSecond := by
  simp only [UInt32.toNat_ofNat', nanosPerSecond]
  omega

private theorem nanos_lt_of_mod (nanos : Nat) :
    (UInt32.ofNat (nanos % nanosPerSecond)).toNat < nanosPerSecond := by
  rw [toNat_nanos_mod]
  exact Nat.mod_lt _ (by decide)

/-- The duration of some seconds and nanoseconds, of which whole seconds are carried over. -/
def ofParts? (seconds nanos : Nat) : Option Duration :=
  if seconds + nanos / nanosPerSecond < UInt64.size then
    some {
      seconds := UInt64.ofNat (seconds + nanos / nanosPerSecond)
      nanos := UInt32.ofNat (nanos % nanosPerSecond)
      nanos_lt := nanos_lt_of_mod nanos }
  else
    none

/-- The duration of less than `2 ^ 64` nanoseconds. -/
def ofNanos (nanos : UInt64) : Duration where
  seconds := UInt64.ofNat (nanos.toNat / nanosPerSecond)
  nanos := UInt32.ofNat (nanos.toNat % nanosPerSecond)
  nanos_lt := nanos_lt_of_mod nanos.toNat

/-- One duration after another. -/
def add? (d e : Duration) : Option Duration :=
  ofParts? (d.seconds.toNat + e.seconds.toNat) (d.nanos.toNat + e.nanos.toNat)

/-- What is left of a duration when another one is taken away.  A second is borrowed where
    there are not enough nanoseconds. -/
def sub? (d e : Duration) : Option Duration :=
  let borrowed := if d.nanos < e.nanos then 1 else 0
  if e.seconds.toNat + borrowed ≤ d.seconds.toNat then
    ofParts? (d.seconds.toNat - (e.seconds.toNat + borrowed))
      (nanosPerSecond * borrowed + d.nanos.toNat - e.nanos.toNat)
  else
    none

/-- A duration several times. -/
def times? (d : Duration) (count : UInt32) : Option Duration :=
  ofParts? (d.seconds.toNat * count.toNat) (d.nanos.toNat * count.toNat)

/-! ## Lengths -/

theorem toNanos_lt (d : Duration) : d.toNanos < limit := by
  have hseconds : d.seconds.toNat + 1 ≤ UInt64.size := d.seconds.toNat_lt
  have hle := Nat.mul_le_mul_left nanosPerSecond hseconds
  rw [Nat.mul_add, Nat.mul_one] at hle
  exact Nat.lt_of_lt_of_le (Nat.add_lt_add_left d.nanos_lt _) hle

/-- Durations of the same length are the same. -/
theorem eq_of_toNanos_eq {d e : Duration} (h : d.toNanos = e.toNanos) : d = e := by
  have hd := d.nanos_lt
  have he := e.nanos_lt
  obtain ⟨seconds, nanos, _⟩ := d
  obtain ⟨seconds', nanos', _⟩ := e
  simp only [toNanos, nanosPerSecond] at *
  obtain rfl : seconds = seconds' := UInt64.toNat_inj.1 (by omega)
  obtain rfl : nanos = nanos' := UInt32.toNat_inj.1 (by omega)
  rfl

@[simp] theorem toNanos_zero : zero.toNanos = 0 := by simp [toNanos, zero]

@[simp] theorem toNanos_ofNanos (nanos : UInt64) : (ofNanos nanos).toNanos = nanos.toNat := by
  have hlt := nanos.toNat_lt
  have hseconds : (UInt64.ofNat (nanos.toNat / nanosPerSecond)).toNat =
      nanos.toNat / nanosPerSecond := by
    simp only [UInt64.toNat_ofNat', nanosPerSecond]
    omega
  rw [toNanos, ofNanos, toNat_nanos_mod, hseconds, Nat.div_add_mod]

/-- Parts make up the duration that is as long as they are together, if there is one. -/
theorem ofParts?_eq_some_iff {seconds nanos : Nat} {d : Duration} :
    ofParts? seconds nanos = some d ↔ d.toNanos = nanosPerSecond * seconds + nanos := by
  have hparts := Nat.div_add_mod nanos nanosPerSecond
  -- As many seconds as fit have the length of the parts.
  have hlength : ∀ d, ofParts? seconds nanos = some d →
      d.toNanos = nanosPerSecond * seconds + nanos := by
    intro d h
    unfold ofParts? at h
    split at h
    · rename_i hfits
      cases h
      rw [toNanos, toNat_nanos_mod, UInt64.toNat_ofNat_of_lt' hfits, Nat.mul_add]
      omega
    · exact nomatch h
  refine ⟨hlength d, fun h => ?_⟩
  have hfits : seconds + nanos / nanosPerSecond < UInt64.size := by
    have hle : nanosPerSecond * (seconds + nanos / nanosPerSecond) ≤ d.toNanos := by
      rw [h, Nat.mul_add]
      exact Nat.add_le_add_left (Nat.mul_div_le _ _) _
    exact Nat.lt_of_mul_lt_mul_left (Nat.lt_of_le_of_lt hle d.toNanos_lt)
  obtain ⟨d', hd'⟩ : ∃ d', ofParts? seconds nanos = some d' := ⟨_, if_pos hfits⟩
  rw [hd', eq_of_toNanos_eq (h.trans (hlength d' hd').symm)]

theorem add?_eq_some_iff {d e sum : Duration} :
    d.add? e = some sum ↔ sum.toNanos = d.toNanos + e.toNanos := by
  rw [add?, ofParts?_eq_some_iff]
  simp only [toNanos, Nat.mul_add]
  omega

theorem sub?_eq_some_iff {d e rest : Duration} :
    d.sub? e = some rest ↔ rest.toNanos + e.toNanos = d.toNanos := by
  have hd := d.nanos_lt
  have he := e.nanos_lt
  simp only [sub?, UInt32.lt_iff_toNat_lt]
  split
  · split
    · rw [ofParts?_eq_some_iff]
      simp only [toNanos, nanosPerSecond] at *
      omega
    · simp only [toNanos, nanosPerSecond, reduceCtorEq, false_iff] at *
      omega
  · split
    · rw [ofParts?_eq_some_iff]
      simp only [toNanos, nanosPerSecond] at *
      omega
    · simp only [toNanos, nanosPerSecond, reduceCtorEq, false_iff] at *
      omega

theorem times?_eq_some_iff {d product : Duration} {count : UInt32} :
    d.times? count = some product ↔ product.toNanos = d.toNanos * count.toNat := by
  rw [times?, ofParts?_eq_some_iff]
  simp only [toNanos, Nat.add_mul, Nat.mul_assoc]

/-- There is a duration of every length below the limit. -/
theorem exists_toNanos_eq {nanos : Nat} (h : nanos < limit) : ∃ d : Duration, d.toNanos = nanos := by
  have hfits : 0 + nanos / nanosPerSecond < UInt64.size := by
    rw [Nat.zero_add]
    exact Nat.div_lt_of_lt_mul h
  obtain ⟨d, hd⟩ : ∃ d, ofParts? 0 nanos = some d := ⟨_, if_pos hfits⟩
  exact ⟨d, (ofParts?_eq_some_iff.1 hd).trans (Nat.zero_add _)⟩

end Duration

end Chip8
