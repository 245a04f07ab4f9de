import RtSpark.Common.Calendar
import RtSpark.Time.Model.Ctime
import Mathlib.Tactic.IntervalCases
/-!
# Broken-down time is what a clock shows

`gmtime_r` is related to a clock that was started at midnight of the first
of January 1970, a Thursday, and has ticked once a second since. The two
searches are given by what they find: the year the days lie in
(`yearOf_eq`) and the month (`exists_date`).
-/

namespace RtSpark

namespace Time

open Calendar

variable {y m : ℕ}

/-- The fields that say what a clock shows. -/
def ofClock (c : Clock) : Tm where
  sec := c.sec.val
  min := c.min.val
  hour := c.hour.val
  mday := c.date.day
  mon := c.date.month
  year := (c.date.year : ℤ) - 1900
  wday := c.weekday.val
  yday := c.date.dayOfYear
  isdst := 0

theorem fits_ofClock {c : Clock} (h : c.date.year < 2 ^ 31) : (ofClock c).Fits := by
  have hmonth := c.date.month_lt
  have hday := c.date.day_le
  have hlen := monthLength_le c.date.year c.date.month
  have hyday := c.date.dayOfYear_lt_yearLength
  have hlength := yearLength_le c.date.year
  refine ⟨?_, ?_, ?_, ?_, ?_, ?_, ?_, ?_, ?_⟩ <;>
  · simp only [FitsInt, ofClock]
    omega

/-- The first of January 1970, a Thursday. -/
def epoch : Clock := Clock.start 1970 ⟨4, by omega⟩

/-! ## The tables -/

theorem isleap_natCast (y : ℕ) : isleap (y : ℤ) = decide (IsLeap y) := by
  have hmod (k : ℕ) : (Int.tmod (y : ℤ) k == 0) = decide (k ∣ y) := by
    rw [← Int.ofNat_tmod, Bool.eq_iff_iff, beq_iff_eq, decide_eq_true_iff, Nat.dvd_iff_mod_eq_zero]
    exact Int.natCast_eq_zero
  have h4 := hmod 4
  have h100 := hmod 100
  have h400 := hmod 400
  simp only [Nat.cast_ofNat] at h4 h100 h400
  rw [Bool.eq_iff_iff, decide_eq_true_iff]
  simp [isleap, IsLeap, bne, h4, h100, h400]

/-- What the leap day adds before a month. -/
def leapDay (y m : ℕ) : ℕ := if IsLeap y ∧ 1 < m then 1 else 0

/-- The table of months, corrected in a leap year. -/
theorem monthStart_eq_spm (y : ℕ) (hm : m ≤ 12) :
    (monthStart y m : ℤ) = spm m + leapDay y m := by
  induction m with
  | zero => simp [monthStart, spm, leapDay]
  | succ m ih =>
    have hm : m ≤ 11 := by omega
    rw [monthStart_succ, Nat.cast_add, ih (by omega)]
    by_cases hy : IsLeap y
    · interval_cases m <;> simp [monthLength, leapDay, spm, hy]
    · interval_cases m <;> simp [monthLength, leapDay, spm, hy]

/-- The table grows. -/
theorem spm_lt_spm {i j : ℕ} (hij : i < j) (hj : j ≤ 12) : spm i < spm j := by
  have hstep (n : ℕ) (hn : n < 12) : spm n < spm (n + 1 : ℕ) := by
    interval_cases n <;> decide
  induction j with
  | zero => omega
  | succ j ih =>
    rcases Nat.lt_succ_iff_lt_or_eq.1 hij with hlt | rfl
    · exact (ih hlt (by omega)).trans (hstep j (by omega))
    · exact hstep i (by omega)

/-! ## The searches -/

/-- The search for the month stops at the one the day lies in. -/
theorem monthOf_spec {w : ℤ} (h0 : 0 ≤ w) (n : ℕ) :
    monthOf w n ≤ n ∧ spm (monthOf w n) ≤ w ∧
      (monthOf w n < n → w < spm (monthOf w n + 1 : ℕ)) := by
  induction n with
  | zero => exact ⟨le_rfl, h0, fun h => absurd h (Nat.lt_irrefl _)⟩
  | succ n ih =>
    obtain ⟨hle, hspm, hlt⟩ := ih
    rw [monthOf]
    split
    · rename_i hgt
      refine ⟨by omega, hspm, fun _ => ?_⟩
      rcases Nat.lt_or_ge (monthOf w n) n with h | h
      · exact hlt h
      · rw [show monthOf w n = n by omega]
        exact hgt
    · exact ⟨le_rfl, by omega, fun h => absurd h (Nat.lt_irrefl _)⟩

/-- What a year of the search takes off. -/
theorem yearPass_natCast (y w : ℕ) :
    yearPass ((y : ℤ), (w : ℤ)) =
      if yearLength y ≤ w then some (((y + 1 : ℕ) : ℤ), ((w - yearLength y : ℕ) : ℤ))
      else none := by
  have hlen : (if isleap (y : ℤ) then (366 : ℤ) else 365) = yearLength y := by
    rw [isleap_natCast, yearLength]
    by_cases h : IsLeap y <;> simp [h]
  unfold yearPass
  simp only [hlen]
  by_cases h : yearLength y ≤ w
  · rw [if_pos (by omega), if_pos h, Nat.cast_sub h]
    rfl
  · rw [if_neg (by omega), if_neg h]

/-- **The search for the year** ends in the year that the days lie in. -/
theorem yearRun_spec (n w : ℕ) (hy : 1970 ≤ y) (hn : w < n) :
    ∃ y' w' : ℕ, Loop.run yearPass n ((y : ℤ), (w : ℤ)) = ((y' : ℤ), (w' : ℤ)) ∧
      y ≤ y' ∧ w' < yearLength y' ∧ yearStart 1970 y + w = yearStart 1970 y' + w' := by
  induction n generalizing y w with
  | zero => omega
  | succ n ih =>
    have hpos := yearLength_pos y
    by_cases h : yearLength y ≤ w
    · have hpass : yearPass ((y : ℤ), (w : ℤ)) =
          some (((y + 1 : ℕ) : ℤ), ((w - yearLength y : ℕ) : ℤ)) := by
        rw [yearPass_natCast, if_pos h]
      obtain ⟨y', w', hrun, hle, hlt, hsum⟩ :=
        ih (w - yearLength y) (y := y + 1) (by omega) (by omega)
      refine ⟨y', w', ?_, by omega, hlt, ?_⟩
      · rw [Loop.run_succ_of_some hpass]
        exact hrun
      · rw [yearStart_succ hy] at hsum
        omega
    · have hpass : yearPass ((y : ℤ), (w : ℤ)) = none := by rw [yearPass_natCast, if_neg h]
      exact ⟨y, w, Loop.run_of_none hpass _, le_rfl, by omega, rfl⟩

theorem yearOf_spec (n : ℕ) : ∃ y w : ℕ, yearOf n = ((y : ℤ), (w : ℤ)) ∧ 1970 ≤ y ∧
    w < yearLength y ∧ yearStart 1970 y + w = n := by
  obtain ⟨y, w, hrun, hle, hlt, hsum⟩ :=
    yearRun_spec (y := 1970) (Int.toNat n + 1) n le_rfl (by simp)
  rw [yearStart_self, Nat.zero_add] at hsum
  exact ⟨y, w, hrun, hle, hlt, hsum.symm⟩

/-- The month that the search finds, with the leap day put back. -/
theorem skipLeapDay_spec (w : ℕ) :
    ∃ b w' : ℕ, skipLeapDay y w = ((b : ℤ), (w' : ℤ)) ∧ 0 < b ∧
      b - 1 + w' + leapDay y (monthOf w' 11) = w ∧
      b - 1 + leapDay y (monthOf w' 11) ≤ leapDay y (monthOf w' 11 + 1) := by
  have h58 : monthOf 58 11 = 1 := by decide
  by_cases hleap : IsLeap y ∧ 58 < w
  · obtain ⟨hy, hw⟩ := hleap
    have hskip : skipLeapDay y w = (if (w : ℤ) = 59 then 2 else 1, (w : ℤ) - 1) := by
      rw [skipLeapDay, isleap_natCast, if_pos ⟨decide_eq_true hy, by omega⟩]
    by_cases h59 : w = 59
    · subst h59
      refine ⟨2, 58, hskip, by omega, ?_, ?_⟩
      · rw [Nat.cast_ofNat, h58]
        simp [leapDay]
      · rw [Nat.cast_ofNat, h58]
        simp [leapDay, hy]
    · obtain ⟨-, -, hnext⟩ := monthOf_spec (w := (w - 1 : ℕ)) (by omega) 11
      have hm : 1 < monthOf (w - 1 : ℕ) 11 := by
        by_contra hle
        have hlt := hnext (by omega)
        have hspm : spm (monthOf (w - 1 : ℕ) 11 + 1 : ℕ) ≤ 59 := by
          rcases Nat.lt_or_ge (monthOf (w - 1 : ℕ) 11 + 1) 2 with h | h
          · exact (spm_lt_spm (j := 2) h (by omega)).le
          · rw [show monthOf (w - 1 : ℕ) 11 + 1 = 2 by omega]
            decide
        omega
      refine ⟨1, w - 1, ?_, by omega, ?_, ?_⟩
      · rw [hskip, if_neg (by omega), Nat.cast_sub (by omega)]
        rfl
      · simp only [leapDay, hy, hm, and_self, if_true]
        omega
      · simp only [leapDay, hy, hm, Nat.lt_succ_of_lt hm, and_self, if_true]
        omega
  · have hskip : skipLeapDay y w = (1, (w : ℤ)) := by
      rw [skipLeapDay, isleap_natCast, if_neg]
      rintro ⟨hy, hw⟩
      exact hleap ⟨of_decide_eq_true hy, by omega⟩
    have hday : leapDay y (monthOf w 11) = 0 := by
      rw [leapDay, if_neg]
      rintro ⟨hy, hm⟩
      obtain ⟨hle, hspm, -⟩ := monthOf_spec (w := (w : ℤ)) (by omega) 11
      have h2 : spm 2 ≤ spm (monthOf w 11) := by
        rcases Nat.lt_or_ge 2 (monthOf w 11) with h | h
        · exact (spm_lt_spm (i := 2) h (by omega)).le
        · rw [show monthOf w 11 = 2 by omega]
          exact le_rfl
      have : spm 2 = 59 := by decide
      exact hleap ⟨hy, by omega⟩
    exact ⟨1, w, hskip, by omega, by omega, by omega⟩

/-- **What month and day a day of the year is.** -/
theorem exists_date (w : ℕ) (hw : w < yearLength y) :
    ∃ d : Date, d.year = y ∧ d.dayOfYear = w ∧ ∀ r : Tm, dateOf r y w = { r with
      mday := (d.day : ℤ), mon := (d.month : ℤ), year := (y : ℤ) - 1900, yday := (w : ℤ) } := by
  obtain ⟨b, w', hskip, hb, hsum, hnextDay⟩ := skipLeapDay_spec (y := y) w
  obtain ⟨hle, hspm, hnext⟩ := monthOf_spec (w := (w' : ℤ)) (by omega) 11
  set m := monthOf w' 11 with hm
  have hstart := monthStart_eq_spm y (m := m) (by omega)
  have hend : w < monthStart y (m + 1) := by
    rcases Nat.lt_or_ge m 11 with h | h
    · have hstart' := monthStart_eq_spm y (m := m + 1) (by omega)
      have hlt := hnext h
      omega
    · rw [show m + 1 = 12 by omega, monthStart_twelve]
      exact hw
  have hmday : (b : ℤ) + (w' - spm m) = ((w - monthStart y m + 1 : ℕ) : ℤ) := by omega
  rw [monthStart_succ] at hend
  refine ⟨⟨y, m, w - monthStart y m + 1, by omega, by omega, by omega⟩, rfl, ?_, ?_⟩
  · simp only [Date.dayOfYear]
    omega
  · intro r
    simp only [dateOf, hskip, ← hm, hmday]

/-- **`gmtime_r` is what the clock shows** that many seconds after the
epoch. -/
theorem gmtimeR_eq_tick (t : ℕ) : gmtimeR t = ofClock (Clock.tick^[t] epoch) := by
  obtain ⟨y, w, hyear, hy, hw, hsum⟩ := yearOf_spec (t / 86400)
  obtain ⟨d, hdy, hdw, hdate⟩ := exists_date w hw
  let c : Clock :=
    { date := d
      weekday := ⟨(4 + t / 86400) % 7, Nat.mod_lt _ (by omega)⟩
      hour := ⟨t % 86400 / 60 / 60, by omega⟩
      min := ⟨t % 86400 / 60 % 60, by omega⟩
      sec := ⟨t % 86400 % 60, by omega⟩ }
  have hnumber : d.number 1970 = t / 86400 := by
    rw [Date.number, hdy, hdw]
    exact hsum
  have hseconds : c.seconds 1970 = t := by
    simp only [Clock.seconds, c, hnumber]
    omega
  have hc : c = Clock.tick^[t] epoch := by
    rw [← hseconds]
    refine Clock.eq_iterate_tick ?_ ?_
    · exact hdy ▸ hy
    · simp only [Clock.InWeek, c, hnumber]
  rw [← hc]
  have hday : Int.tdiv t spd = (t / 86400 : ℕ) := rfl
  have hwork : Int.tmod t spd = (t % 86400 : ℕ) := rfl
  simp only [gmtimeR, hday, hwork, hyear, hdate, tzIsDst]
  refine Tm.ext ?_ ?_ ?_ rfl rfl ?_ ?_ ?_ rfl
  · rfl
  · rfl
  · rfl
  · exact congrArg (fun n : ℕ => (n : ℤ) - 1900) hdy.symm
  · rfl
  · exact congrArg (fun n : ℕ => (n : ℤ)) hdw.symm

/-- The seconds from the epoch to the beginning of a year. -/
def secondsTo (y : ℕ) : ℕ := yearStart 1970 y * 86400

theorem le_secondsTo (h : 1970 ≤ y) : (y - 1970) * 365 * 86400 ≤ secondsTo y :=
  Nat.mul_le_mul_right 86400 (le_yearStart h)

/-- The clock has not come to a year before those seconds. -/
theorem year_lt_of_seconds {c : Clock} (h : c.seconds 1970 < secondsTo y) : c.date.year < y := by
  by_contra hge
  have hstart := yearStart_mono 1970 (Nat.not_lt.1 hge)
  rw [Clock.seconds, Date.number, secondsTo] at h
  omega

theorem seconds_lt_of_year {c : Clock} (hy : 1970 ≤ c.date.year) (h : c.date.year < y) :
    c.seconds 1970 < secondsTo y := by
  have hday := c.date.dayOfYear_lt_yearLength
  have hnext := yearStart_succ hy
  have hstart := yearStart_mono 1970 (show c.date.year + 1 ≤ y from h)
  have hhour := c.hour.isLt
  have hmin := c.min.isLt
  have hsec := c.sec.isLt
  rw [Clock.seconds, Date.number, secondsTo]
  omega

/-- **Up to the year `2 ^ 31`**, the first that is no `int`, all members
are. -/
theorem fits_gmtimeR {k : ℕ} (h : k < secondsTo (2 ^ 31)) : (gmtimeR k).Fits := by
  obtain ⟨-, hseconds, -⟩ := Clock.iterate_tick 1970 ⟨4, by omega⟩ k
  rw [gmtimeR_eq_tick]
  exact fits_ofClock (year_lt_of_seconds (hseconds.symm ▸ h))

/-- Every time stamp is the seconds of a clock that `gmtime_r` reads off. -/
theorem exists_clock (n : ℕ) : ∃ c : Clock, gmtimeR n = ofClock c ∧ 1970 ≤ c.date.year ∧
    c.seconds 1970 = n ∧ (gmtimeR n).year = (c.date.year : ℤ) - 1900 := by
  obtain ⟨hyear, hseconds, -⟩ := Clock.iterate_tick 1970 ⟨4, by omega⟩ n
  refine ⟨Clock.tick^[n] epoch, gmtimeR_eq_tick n, hyear, hseconds, ?_⟩
  rw [gmtimeR_eq_tick]
  rfl

end Time

end RtSpark
