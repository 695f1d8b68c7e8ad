import Chip8.Clock.Scheduler
import Chip8.Proofs.TimerPace

/-!
# Ticks in whole seconds

A period is a whole number of nanoseconds.  A rate that does not divide the nanoseconds of a
second therefore leaves some of them over in each second, and these add up until they make
another period.  So a ticker is never behind its rate, and it keeps the rate exactly as long
as what was left over is less than a period: always, if the rate divides a second, and for
more than four days at sixty hertz.

## Key results

- `period_eq_div`: the period of a rate that need not be clamped
- `Ticker.sum_advanceAll_ofRate`: the ticks of a new ticker that is on time
- `Ticker.ticks_of_seconds`: its ticks in whole seconds, and when they keep the rate
-/

namespace Chip8

theorem period_eq_div {hz : Nat} (hpos : 1 ≤ hz) (hle : hz ≤ nanosPerSecond) :
    period hz = nanosPerSecond / hz := by
  rw [period, Nat.min_eq_left hle, Nat.max_eq_right hpos]

namespace Ticker

/-- A new ticker that is always on time counts every whole period. -/
theorem sum_advanceAll_ofRate {hz : Nat} {durations : List Nat}
    (h : (ofRate hz).OnTime durations) :
    ((ofRate hz).advanceAll durations).1.sum = durations.sum / Chip8.period hz := by
  have hnew : (ofRate hz).owed = 0 := rfl
  rw [sum_advanceAll (ofRate hz).period_pos h, hnew, Nat.zero_add]
  rfl

/-- In `n` whole seconds, however they are cut up, a new ticker that is on time ticks `n` times
    as often as its rate says, and once more for every period that the nanoseconds left over in
    each second make up.  It keeps its rate exactly if these are less than a period. -/
theorem ticks_of_seconds {hz n : Nat} (hpos : 1 ≤ hz) (hmax : hz ≤ Scheduler.maxClock)
    {durations : List Nat} (hseconds : durations.sum = n * nanosPerSecond)
    (hontime : (ofRate hz).OnTime durations) :
    let ticks := ((ofRate hz).advanceAll durations).1.sum
    let left := nanosPerSecond % hz
    let p := nanosPerSecond / hz
    ticks = hz * n + n * left / p ∧ (ticks = hz * n ↔ n * left < p) := by
  intro ticks left p
  have hle : hz ≤ nanosPerSecond := Nat.le_trans hmax (by decide)
  have hp : 0 < p := Nat.div_pos hle hpos
  -- A second is as many periods as the rate says, and what is left over.
  have hsecond : n * nanosPerSecond = p * (hz * n) + n * left :=
    calc n * nanosPerSecond = n * (hz * p + left) := by rw [Nat.div_add_mod]
      _ = n * (hz * p) + n * left := Nat.mul_add _ _ _
      _ = p * (hz * n) + n * left := by rw [Nat.mul_left_comm, Nat.mul_comm n p, Nat.mul_left_comm]
  have hcount : ticks = durations.sum / Chip8.period hz := sum_advanceAll_ofRate hontime
  have hticks : ticks = hz * n + n * left / p := by
    rw [hcount, hseconds, period_eq_div hpos hle, hsecond, Nat.mul_add_div hp]
  refine ⟨hticks, ?_⟩
  rw [hticks, Nat.add_eq_left, Nat.div_eq_zero_iff_lt hp]

/-- Two seconds of the timers, in three durations: forty nanoseconds are left over in each. -/
theorem ticks_of_seconds_of_timers :
    let durations := [10000000, 1989999999, 1]
    (1 ≤ Scheduler.timerRate ∧ Scheduler.timerRate ≤ Scheduler.maxClock ∧
      durations.sum = 2 * nanosPerSecond ∧ (ofRate Scheduler.timerRate).OnTime durations) ∧
      ((ofRate Scheduler.timerRate).advanceAll durations).1.sum = 60 * 2 := by
  intro durations
  have hpos : 1 ≤ Scheduler.timerRate := by decide
  have hmax : Scheduler.timerRate ≤ Scheduler.maxClock := by decide
  have hseconds : durations.sum = 2 * nanosPerSecond := by decide
  have hontime : (ofRate Scheduler.timerRate).OnTime durations := by decide
  obtain ⟨-, hexact⟩ := ticks_of_seconds hpos hmax hseconds hontime
  exact ⟨⟨hpos, hmax, hseconds, hontime⟩, hexact.2 (by decide)⟩

/-- Six hundred thousand hertz do not divide a second, and in one second there are two hundred and
    forty ticks too many. -/
theorem ticks_of_second_too_many :
    let ticks := ((ofRate 600000).advanceAll [1000000000]).1.sum
    (1 ≤ 600000 ∧ 600000 ≤ Scheduler.maxClock ∧ [1000000000].sum = 1 * nanosPerSecond ∧
      (ofRate 600000).OnTime [1000000000]) ∧ ticks = 600240 ∧ ticks ≠ 600000 * 1 := by
  decide

end Ticker

end Chip8
