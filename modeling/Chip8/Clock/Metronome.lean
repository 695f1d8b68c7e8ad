import Chip8.Clock.Duration

/-! # Metronomes

A metronome is a ticker that keeps its period and the time that it owes as durations.
These are of limited length, and so is what can be counted at once, so an advance has no
result where the time that is owed would become too long for a duration. -/

namespace Chip8

/-- A period, and the time that was passed in without making up a whole one. -/
structure Metronome where
  period : Duration
  owed : Duration := .zero
  period_pos : 0 < period.toNanos
  deriving DecidableEq

namespace Metronome

/-- The period of a rate fits into the word for nanoseconds. -/
theorem toNanos_period (hz : Nat) :
    (Duration.ofNanos (UInt64.ofNat (Chip8.period hz))).toNanos = Chip8.period hz := by
  have hle : Chip8.period hz ≤ nanosPerSecond := Nat.div_le_self _ _
  rw [Duration.toNanos_ofNanos, UInt64.toNat_ofNat_of_lt']
  exact Nat.lt_of_le_of_lt hle (by decide)

/-- A metronome of the given rate. -/
def ofRate (hz : UInt32) : Metronome where
  period := .ofNanos (UInt64.ofNat (Chip8.period hz.toNat))
  period_pos := by
    rw [toNanos_period]
    exact Chip8.period_pos _

/-- Let time pass: the number of ticks that are due, and the metronome after them. -/
def advance? (t : Metronome) (elapsed : Duration) : Option (UInt32 × Metronome) := do
  let owed ← t.owed.add? elapsed
  let ticks := UInt32.ofNat (min (owed.toNanos / t.period.toNanos) Ticker.maxTicks)
  let due ← t.period.times? ticks
  let owed ← owed.sub? due
  some (ticks, { t with owed })

/-- Forget the time that is owed. -/
def reset (t : Metronome) : Metronome := { t with owed := .zero }

/-- The ticker that counts the same nanoseconds. -/
def toTicker (t : Metronome) : Ticker where
  period := t.period.toNanos
  owed := t.owed.toNanos
  period_pos := t.period_pos

theorem toTicker_ofRate (hz : UInt32) : (ofRate hz).toTicker = .ofRate hz.toNat := by
  simp only [toTicker, ofRate, Ticker.ofRate, toNanos_period, Duration.toNanos_zero]

theorem toTicker_injective {t u : Metronome} (h : t.toTicker = u.toTicker) : t = u := by
  obtain ⟨period, owed, _⟩ := t
  obtain ⟨period', owed', _⟩ := u
  obtain rfl : period = period' := Duration.eq_of_toNanos_eq (congrArg Ticker.period h)
  obtain rfl : owed = owed' := Duration.eq_of_toNanos_eq (congrArg Ticker.owed h)
  rfl

end Metronome

end Chip8
