/-! # Tickers

A ticker counts whole periods of a fixed rate out of elapsed time and carries the
remainder over, so no time is lost however it is cut up (`owed_advance`).  Time is
counted in nanoseconds.

At most `Ticker.maxTicks` periods are counted at once; what is beyond them stays
owed. -/

namespace Chip8

/-- Nanoseconds in a second. -/
def nanosPerSecond : Nat := 1000000000

/-- The period of a rate in whole nanoseconds.  Rates count as one tick per second at
    least and one per nanosecond at most, so a period is never zero. -/
def period (hz : Nat) : Nat := nanosPerSecond / max 1 (min hz nanosPerSecond)

theorem period_pos (hz : Nat) : 0 < period hz :=
  Nat.div_pos (by unfold nanosPerSecond; omega) (by omega)

/-- A period, and the time that was passed in without making up a whole one. -/
structure Ticker where
  period : Nat
  owed : Nat := 0
  period_pos : 0 < period
  deriving DecidableEq

namespace Ticker

/-- The most ticks that are counted at once. -/
def maxTicks : Nat := UInt32.size - 1

/-- A ticker of the given rate. -/
def ofRate (hz : Nat) : Ticker := { period := Chip8.period hz, period_pos := Chip8.period_pos hz }

/-- Let time pass: the number of ticks that are due, and the ticker after them. -/
def advance (t : Ticker) (elapsed : Nat) : Nat × Ticker :=
  let total := t.owed + elapsed
  let ticks := min (total / t.period) maxTicks
  (ticks, { t with owed := total - t.period * ticks })

/-- Forget the time that is owed. -/
def reset (t : Ticker) : Ticker := { t with owed := 0 }

/-- Time passed in is either ticked or still owed. -/
theorem owed_advance (t : Ticker) (elapsed : Nat) :
    t.period * (t.advance elapsed).1 + (t.advance elapsed).2.owed = t.owed + elapsed := by
  have bound : t.period * min ((t.owed + elapsed) / t.period) maxTicks ≤ t.owed + elapsed :=
    Nat.le_trans (Nat.mul_le_mul_left _ (Nat.min_le_left _ _)) (Nat.mul_div_le _ _)
  simp only [advance]
  omega

@[simp] theorem period_advance (t : Ticker) (elapsed : Nat) :
    (t.advance elapsed).2.period = t.period := rfl

end Ticker

end Chip8
