import Chip8.Clock.Metronome
import Chip8.Proofs.FramePacing

/-!
# Time in durations

A metronome counts in words of limited length what a ticker counts in numbers.  As long as
the time that is passed to it fits into a duration, the two do the same: what is due is never
more than what is owed, so neither the product nor the difference that an advance forms can
leave the range of a duration, and the number of ticks fits into its word.

All time that is passed in is therefore ticked or still owed, and how it was cut up does not
show as soon as no whole period is left for later.

## Key results

- `Metronome.exists_advance?`: an advance of a metronome is an advance of its ticker
- `Metronome.exists_advanceAll?`: and so are any number of them
- `Metronome.exists_account`: the account of durations that fit, the last of them apart
- `Metronome.loses_no_time`: no time is lost from a reset on, whatever was done before
-/

namespace Chip8

/-- The nanoseconds in several durations. -/
def Duration.total (durations : List Duration) : Nat := (durations.map toNanos).sum

@[simp] theorem Duration.total_cons (d : Duration) (durations : List Duration) :
    total (d :: durations) = d.toNanos + total durations := by
  rw [total, List.map_cons, List.sum_cons, total]

@[simp] theorem Duration.total_append (durations more : List Duration) :
    total (durations ++ more) = total durations + total more := by
  rw [total, List.map_append, List.sum_append, total, total]

namespace Metronome

/-! ## Advances in range -/

/-- Where the time that is owed fits into a duration, an advance has a result, and it is that
    of the ticker. -/
theorem exists_advance? {t : Metronome} {elapsed : Duration}
    (h : t.owed.toNanos + elapsed.toNanos < Duration.limit) :
    ∃ ticks u, t.advance? elapsed = some (ticks, u) ∧
      ticks.toNat = (t.toTicker.advance elapsed.toNanos).1 ∧
      u.toTicker = (t.toTicker.advance elapsed.toNanos).2 := by
  obtain ⟨owed, howed⟩ := Duration.exists_toNanos_eq h
  have hadd : t.owed.add? elapsed = some owed := Duration.add?_eq_some_iff.2 howed
  -- The number of ticks is capped so that it fits into its word.
  have hticks : (UInt32.ofNat (min (owed.toNanos / t.period.toNanos) Ticker.maxTicks)).toNat =
      (t.toTicker.advance elapsed.toNanos).1 := by
    rw [howed, UInt32.toNat_ofNat_of_lt']
    · rfl
    · exact Nat.lt_of_le_of_lt (Nat.min_le_right _ _) (by decide)
  have haccount := t.toTicker.owed_advance elapsed.toNanos
  rw [← hticks] at haccount
  have hperiod : t.toTicker.period = t.period.toNanos := rfl
  have htotal : t.toTicker.owed + elapsed.toNanos = owed.toNanos := howed.symm
  rw [hperiod, htotal] at haccount
  -- What is due is no more than what is owed, so both it and what is left are durations.
  obtain ⟨due, hdue⟩ :=
    Duration.exists_toNanos_eq (Nat.lt_of_le_of_lt (Nat.le.intro haccount) owed.toNanos_lt)
  have htimes := Duration.times?_eq_some_iff.2 hdue
  obtain ⟨rest, hrest⟩ := Duration.exists_toNanos_eq
    (Nat.lt_of_le_of_lt (Nat.le.intro ((Nat.add_comm _ _).trans haccount)) owed.toNanos_lt)
  have hsub : owed.sub? due = some rest := Duration.sub?_eq_some_iff.2 (by omega)
  refine ⟨_, { t with owed := rest }, ?_, hticks, Ticker.ext rfl hrest⟩
  simp only [advance?, hadd, htimes, hsub, Option.bind_eq_bind, Option.bind_some]

/-- Let time pass piece by piece: the ticks that are due after each piece, and the metronome
    after all of them. -/
def advanceAll? (t : Metronome) : List Duration → Option (List UInt32 × Metronome)
  | [] => some ([], t)
  | elapsed :: rest => do
    let (ticks, t) ← t.advance? elapsed
    let (later, t) ← t.advanceAll? rest
    some (ticks :: later, t)

/-- The same of any number of advances, as long as all their time fits into a duration. -/
theorem exists_advanceAll? {t : Metronome} {durations : List Duration}
    (h : t.owed.toNanos + Duration.total durations < Duration.limit) :
    ∃ ticks u, t.advanceAll? durations = some (ticks, u) ∧
      ticks.map UInt32.toNat = (t.toTicker.advanceAll (durations.map Duration.toNanos)).1 ∧
      u.toTicker = (t.toTicker.advanceAll (durations.map Duration.toNanos)).2 := by
  induction durations generalizing t with
  | nil => exact ⟨[], t, rfl, rfl, rfl⟩
  | cons elapsed rest ih =>
    rw [Duration.total_cons] at h
    have hfirst : t.owed.toNanos + elapsed.toNanos < Duration.limit :=
      Nat.lt_of_le_of_lt (by omega) h
    obtain ⟨ticks, u, hadvance, hticks, hu⟩ := exists_advance? hfirst
    -- What is owed after the first piece is no more than it was, and the piece.
    have howed : u.owed.toNanos ≤ t.owed.toNanos + elapsed.toNanos := by
      have haccount := t.toTicker.owed_advance elapsed.toNanos
      rw [← hu] at haccount
      exact Nat.le_trans (Nat.le_add_left _ _) (Nat.le_of_eq haccount)
    obtain ⟨later, last, hrest, hlater, hlast⟩ := ih (t := u) (Nat.lt_of_le_of_lt (by omega) h)
    refine ⟨ticks :: later, last, ?_, ?_, ?_⟩
    · simp only [advanceAll?, hadvance, hrest, Option.bind_eq_bind, Option.bind_some]
    · rw [List.map_cons, List.map_cons, Ticker.advanceAll_cons, hticks, hlater, hu]
    · rw [List.map_cons, Ticker.advanceAll_cons, hlast, hu]

/-! ## New and reset metronomes -/

/-- Something that is asked of a metronome. -/
inductive Call where
  | advance (elapsed : Duration)
  | reset

/-- The metronome after calls one after the other. -/
def after? (t : Metronome) : List Call → Option Metronome
  | [] => some t
  | .advance elapsed :: rest => do
    let (_, t) ← t.advance? elapsed
    t.after? rest
  | .reset :: rest => t.reset.after? rest

theorem period_of_advance? {t u : Metronome} {elapsed : Duration} {ticks : UInt32}
    (h : t.advance? elapsed = some (ticks, u)) : u.period = t.period := by
  simp only [advance?, Option.bind_eq_bind, Option.bind_eq_some_iff, Option.some.injEq,
    Prod.mk.injEq] at h
  obtain ⟨_, -, _, -, _, -, -, rfl⟩ := h
  rfl

theorem period_of_after? {t u : Metronome} {calls : List Call} (h : t.after? calls = some u) :
    u.period = t.period := by
  induction calls generalizing t with
  | nil =>
    cases h
    rfl
  | cons call rest ih =>
    cases call with
    | advance elapsed =>
      obtain ⟨⟨ticks, t'⟩, hadvance, hrest⟩ := Option.bind_eq_some_iff.1 h
      exact (ih hrest).trans (period_of_advance? hadvance)
    | reset => exact ih (t := t.reset) h

theorem after?_append (t : Metronome) (calls more : List Call) :
    t.after? (calls ++ more) = (t.after? calls).bind (after? · more) := by
  induction calls generalizing t with
  | nil => rfl
  | cons call rest ih =>
    cases call with
    | advance elapsed =>
      simp only [List.cons_append, after?, Option.bind_eq_bind, Option.bind_assoc, ih]
    | reset => exact ih t.reset

/-- A metronome that was just reset is like a new one. -/
theorem eq_ofRate_of_after? {hz : UInt32} {calls : List Call} {t : Metronome}
    (h : (ofRate hz).after? calls = some t)
    (hfresh : calls = [] ∨ calls.getLast? = some .reset) : t = ofRate hz := by
  rcases hfresh with rfl | hlast
  · exact (Option.some.inj h).symm
  · obtain ⟨earlier, rfl⟩ := List.getLast?_eq_some_iff.1 hlast
    rw [after?_append] at h
    obtain ⟨u, hu, hreset⟩ := Option.bind_eq_some_iff.1 h
    cases hreset
    have hperiod := period_of_after? hu
    exact toTicker_injective (Ticker.ext (congrArg Duration.toNanos hperiod) rfl)

/-! ## The account -/

/-- When less than a period is owed, the ticks are the whole periods of the time. -/
theorem eq_div_of_account {ticks period owed elapsed : Nat}
    (haccount : ticks * period + owed = elapsed) (howed : owed < period) :
    ticks = elapsed / period := by
  rw [← haccount, Nat.mul_comm, Nat.mul_add_div (Nat.zero_lt_of_lt howed),
    Nat.div_eq_of_lt howed, Nat.add_zero]

/-- Durations that fit are passed to a new metronome, the last of them apart: each advance has a
    result, and it is that of the ticker. -/
theorem exists_slices {hz : UInt32} {earlier : List Duration} {last : Duration}
    (hfits : Duration.total (earlier ++ [last]) < Duration.limit) :
    let slices := (Ticker.ofRate hz.toNat).advanceAll (earlier.map Duration.toNanos)
    ∃ ticks before n after, (ofRate hz).advanceAll? earlier = some (ticks, before) ∧
      before.advance? last = some (n, after) ∧
      ticks.map UInt32.toNat = slices.1 ∧ before.toTicker = slices.2 ∧
      n.toNat = (slices.2.advance last.toNanos).1 ∧
      after.toTicker = (slices.2.advance last.toNanos).2 := by
  intro slices
  have hnew : (ofRate hz).owed.toNanos = 0 := Duration.toNanos_zero
  rw [Duration.total_append] at hfits
  have hfront : (ofRate hz).owed.toNanos + Duration.total earlier < Duration.limit := by omega
  obtain ⟨ticks, before, hearlier, hticks, hbefore⟩ := exists_advanceAll? hfront
  rw [toTicker_ofRate] at hticks hbefore
  -- What is owed before the last duration is no more than has passed until then.
  have howed : before.owed.toNanos ≤ Duration.total earlier := by
    have haccount := (Ticker.ofRate hz.toNat).owed_advanceAll (earlier.map Duration.toNanos)
    rw [← hbefore] at haccount
    exact Nat.le_trans (Nat.le_add_left _ _) (Nat.le_of_eq (haccount.trans (Nat.zero_add _)))
  have hlast : Duration.total [last] = last.toNanos := by simp [Duration.total]
  have hback : before.owed.toNanos + last.toNanos < Duration.limit := by omega
  obtain ⟨n, after, hadvance, hn, hafter⟩ := exists_advance? hback
  rw [hbefore] at hn hafter
  exact ⟨ticks, before, n, after, hearlier, hadvance, hticks, hbefore, hn, hafter⟩

/-- All of the time is then ticked or still owed.  What the last duration brings are the whole
    periods that are owed then, up to the cap, and below the cap no whole period stays owed. -/
theorem exists_account {hz : UInt32} {earlier : List Duration} {last : Duration}
    (hfits : Duration.total (earlier ++ [last]) < Duration.limit) :
    let p := Chip8.period hz.toNat
    ∃ ticks before n after, (ofRate hz).advanceAll? earlier = some (ticks, before) ∧
      before.advance? last = some (n, after) ∧
      ((ticks.map UInt32.toNat).sum + n.toNat) * p + after.owed.toNanos =
        Duration.total (earlier ++ [last]) ∧
      n.toNat = min ((before.owed.toNanos + last.toNanos) / p) Ticker.maxTicks ∧
      (n.toNat < Ticker.maxTicks → after.owed.toNanos < p) ∧
      after.toTicker.period = p := by
  intro p
  obtain ⟨ticks, before, n, after, hearlier, hadvance, hticks, hbefore, hn, hafter⟩ :=
    exists_slices hfits
  have hperiod : before.toTicker.period = p := by
    rw [hbefore]
    exact Ticker.period_advanceAll _ _
  rw [← hbefore] at hn hafter
  have hmin : n.toNat = min ((before.owed.toNanos + last.toNanos) / p) Ticker.maxTicks := by
    rw [hn, ← hperiod]
    rfl
  have hperiod' : after.toTicker.period = p := by
    rw [hafter]
    exact hperiod
  refine ⟨ticks, before, n, after, hearlier, hadvance, ?_, hmin, fun hcap => ?_, hperiod'⟩
  · -- What the earlier durations left owed is what the last one is added to.
    have hslices := (Ticker.ofRate hz.toNat).owed_advanceAll (earlier.map Duration.toNanos)
    have hlast := before.toTicker.owed_advance last.toNanos
    rw [← hticks, ← hbefore] at hslices
    rw [← hn, ← hafter, hperiod] at hlast
    have hsum : p * (ticks.map UInt32.toNat).sum + before.owed.toNanos =
        0 + Duration.total earlier := hslices
    have hstep : p * n.toNat + after.owed.toNanos = before.owed.toNanos + last.toNanos := hlast
    have htotal : Duration.total [last] = last.toNanos := by simp [Duration.total]
    rw [Duration.total_append, htotal, Nat.mul_comm, Nat.mul_add]
    omega
  · have hdue : (before.toTicker.owed + last.toNanos) / before.toTicker.period < Ticker.maxTicks := by
      rw [hperiod]
      show (before.owed.toNanos + last.toNanos) / p < _
      omega
    have hlt := Ticker.owed_advance_lt hdue
    rw [← hafter, hperiod] at hlt
    exact hlt

/-- Let time be passed to a metronome that is new or was just reset, in any number of durations
    that fit into one together.  Each advance has a result.  All of the time is ticked or still
    owed, and an advance counts the whole periods that are owed, up to the cap.

    If the last one stays below the cap, less than a period is owed, and the ticks are all whole
    periods.  So any other durations of the same total that end so give as many ticks, and leave
    the same metronome behind. -/
theorem loses_no_time {hz : UInt32} {calls : List Call} {t : Metronome}
    (hcalls : (ofRate hz).after? calls = some t)
    (hfresh : calls = [] ∨ calls.getLast? = some .reset)
    {earlier : List Duration} {last : Duration}
    (hfits : Duration.total (earlier ++ [last]) < Duration.limit) :
    let p := Chip8.period hz.toNat
    let elapsed := Duration.total (earlier ++ [last])
    ∃ ticks before n after, t.advanceAll? earlier = some (ticks, before) ∧
      before.advance? last = some (n, after) ∧
      let total := (ticks.map UInt32.toNat).sum + n.toNat
      total * p + after.owed.toNanos = elapsed ∧
      n.toNat = min ((before.owed.toNanos + last.toNanos) / p) Ticker.maxTicks ∧
      (n.toNat < Ticker.maxTicks →
        after.owed.toNanos < p ∧ total = elapsed / p ∧
        ∀ earlier' last' ticks' before' n' after',
          Duration.total (earlier' ++ [last']) = elapsed →
          t.advanceAll? earlier' = some (ticks', before') →
          before'.advance? last' = some (n', after') → n'.toNat < Ticker.maxTicks →
            (ticks'.map UInt32.toNat).sum + n'.toNat = total ∧ after' = after) := by
  obtain rfl := eq_ofRate_of_after? hcalls hfresh
  intro p elapsed
  obtain ⟨ticks, before, n, after, hearlier, hadvance, haccount, hmin, hcap, hperiod⟩ :=
    exists_account hfits
  refine ⟨ticks, before, n, after, hearlier, hadvance, haccount, hmin, fun hn => ?_⟩
  have hdiv : (ticks.map UInt32.toNat).sum + n.toNat = elapsed / p :=
    eq_div_of_account haccount (hcap hn)
  refine ⟨hcap hn, hdiv, fun earlier' last' ticks' before' n' after' htotal h₁ h₂ hn' => ?_⟩
  -- The other durations have an account of the same total, and it is that of their outcome.
  have hfits' : Duration.total (earlier' ++ [last']) < Duration.limit := by rwa [htotal]
  obtain ⟨_, _, _, _, h₁', h₂', haccount', -, hcap', hperiod'⟩ := exists_account hfits'
  cases h₁.symm.trans h₁'
  cases h₂.symm.trans h₂'
  rw [htotal] at haccount'
  have hticks : (ticks'.map UInt32.toNat).sum + n'.toNat =
      (ticks.map UInt32.toNat).sum + n.toNat :=
    (eq_div_of_account haccount' (hcap' hn')).trans hdiv.symm
  refine ⟨hticks, toTicker_injective (Ticker.ext (hperiod'.trans hperiod.symm) ?_)⟩
  rw [hticks] at haccount'
  exact Nat.add_left_cancel (haccount'.trans haccount.symm)

/-- A little more than a second after a reset, in three durations, and the same time in one. -/
theorem loses_no_time_of_second :
    let calls : List Call := [.advance ⟨0, 20000000, by decide⟩, .reset]
    let short : Duration := ⟨0, 10000000, by decide⟩
    let long : Duration := ⟨1, 0, by decide⟩
    let whole : Duration := ⟨1, 20000000, by decide⟩
    ∃ before after, (ofRate 60).after? calls = some (ofRate 60) ∧
      (ofRate 60).advanceAll? [short, short] = some ([0, 1], before) ∧
      before.advance? long = some (60, after) ∧
      61 * 16666666 + after.owed.toNanos = 1020000000 ∧
      (ofRate 60).advance? whole = some (61, after) := by
  intro calls short long whole
  have hcalls : (ofRate 60).after? calls = some (ofRate 60) := by decide +kernel
  have hfits : Duration.total ([short, short] ++ [long]) < Duration.limit := by decide +kernel
  obtain ⟨_, before, _, after, hearlier, hadvance, haccount, -, hcap⟩ :=
    loses_no_time hcalls (.inr rfl) hfits
  obtain ⟨b, hb, a, ha⟩ : ∃ b, (ofRate 60).advanceAll? [short, short] = some ([0, 1], b) ∧
      ∃ a, b.advance? long = some (60, a) := by
    refine ⟨⟨(ofRate 60).period, ⟨0, 3333334, by decide⟩, (ofRate 60).period_pos⟩, ?_,
      ⟨(ofRate 60).period, ⟨0, 3333374, by decide⟩, (ofRate 60).period_pos⟩, ?_⟩ <;>
      decide +kernel
  obtain ⟨c, hc⟩ : ∃ c, (ofRate 60).advance? whole = some (61, c) := by
    refine ⟨⟨(ofRate 60).period, ⟨0, 3333374, by decide⟩, (ofRate 60).period_pos⟩, ?_⟩
    decide +kernel
  cases hearlier.symm.trans hb
  cases hadvance.symm.trans ha
  obtain ⟨-, -, hslicing⟩ := hcap (by decide)
  obtain ⟨-, rfl⟩ := hslicing [] whole [] _ _ _ (by decide +kernel) rfl hc (by decide)
  refine ⟨before, c, hcalls, hearlier, hadvance, ?_, hc⟩
  have hperiod : Chip8.period (60 : UInt32).toNat = 16666666 := by decide
  have htotal : Duration.total ([short, short] ++ [long]) = 1020000000 := by decide +kernel
  rw [hperiod, htotal] at haccount
  exact haccount

end Metronome

end Chip8
