import RtSpark.Time.Gmtime
/-!
# Putting the fields of a time together

`timegm` counts the years by a formula, which is exact from 1970 on
(`yearDays_eq`), and carries what is out of range into the next larger
field. On the fields of a date it is the inverse of `gmtime_r`
(`timegm_gmtimeR`, `gmtimeR_timegm`). The carries of the seconds, the
minutes and the hours are right. Days may run past the month as long as
they stay below the next entry of the table; and the year that surplus
months lead to is used for the leap day, while the years were counted
before (`timegm_linear`). Each result says for which times all of this stays
within the members' `int`s.
-/

namespace RtSpark

namespace Time

open Calendar

variable {t : Tm} {c : Clock} {y : ℕ}

/-- The fields that `timegm` reads are those of the clock. -/
structure Names (t : Tm) (c : Clock) : Prop where
  sec : t.sec = c.sec.val
  min : t.min = c.min.val
  hour : t.hour = c.hour.val
  mday : t.mday = c.date.day
  mon : t.mon = c.date.month
  year : t.year = (c.date.year : ℤ) - 1900

theorem names_ofClock (c : Clock) : Names (ofClock c) c := ⟨rfl, rfl, rfl, rfl, rfl, rfl⟩

/-! ## The years -/

/-- What the centuries take off, `n` years after 1970. -/
def centuryDays (n : ℕ) : ℕ :=
  if 131 ≤ n then (n - 131) / 100 / 4 * 3 + 1 +
    (if (n - 131) / 100 % 4 = 3 then 2 else (n - 131) / 100 % 4) else 0

theorem yearDays_natCast (n : ℕ) :
    yearDays n = ((n * 365 + (n + 1) / 4 : ℕ) : ℤ) - centuryDays n := by
  have hfour : Int.tdiv ((n : ℤ) + 1) 4 = (((n + 1) / 4 : ℕ) : ℤ) := rfl
  unfold yearDays centuryDays
  by_cases h : 131 ≤ n
  · have hle : (n : ℤ) ≥ 131 := by omega
    have hsub : (n : ℤ) - 131 = ((n - 131 : ℕ) : ℤ) := by omega
    have hcentury : Int.tdiv ((n : ℤ) - 131) 100 = (((n - 131) / 100 : ℕ) : ℤ) := by
      rw [hsub]
      rfl
    rw [if_pos hle, if_pos h, hcentury, hfour]
    generalize (n - 131) / 100 = k
    have hshift : Int.shiftRight (k : ℤ) 2 = ((k / 4 : ℕ) : ℤ) :=
      congrArg Int.ofNat (Nat.shiftRight_eq_div_pow k 2)
    have hmod : Int.emod (k : ℤ) 4 = ((k % 4 : ℕ) : ℤ) := rfl
    dsimp only
    rw [hshift, hmod]
    by_cases hthree : k % 4 = 3
    · rw [if_pos hthree, if_pos (by omega)]
      omega
    · rw [if_neg hthree, if_neg (by omega)]
      omega
  · have hlt : ¬ (n : ℤ) ≥ 131 := by omega
    rw [if_neg hlt, if_neg h, hfour]
    omega

theorem yearDays_step (n : ℕ) :
    yearDays ((n + 1 : ℕ) : ℤ) = yearDays n + yearLength (1970 + n) := by
  have hlen : IsLeap (1970 + n) ∧ yearLength (1970 + n) = 366 ∨
      ¬ IsLeap (1970 + n) ∧ yearLength (1970 + n) = 365 := by
    by_cases hleap : IsLeap (1970 + n)
    · exact Or.inl ⟨hleap, if_pos hleap⟩
    · exact Or.inr ⟨hleap, if_neg hleap⟩
  rw [yearDays_natCast, yearDays_natCast]
  generalize yearLength (1970 + n) = l at hlen ⊢
  unfold IsLeap at hlen
  unfold centuryDays
  by_cases h : 131 ≤ n
  · rw [if_pos h, if_pos (show 131 ≤ n + 1 by omega)]
    split <;> split <;> omega
  · rw [if_neg h]
    split
    · split <;> omega
    · omega

/-- **The formula counts the days of the years.** -/
theorem yearDays_eq (h : 1970 ≤ y) : yearDays ((y : ℤ) - 1970) = yearStart 1970 y := by
  induction y, h using Nat.le_induction with
  | base => decide
  | succ y hy ih =>
    have hstep := yearDays_step (y - 1970)
    rw [show ((y - 1970 + 1 : ℕ) : ℤ) = ((y + 1 : ℕ) : ℤ) - 1970 by omega,
      show ((y - 1970 : ℕ) : ℤ) = (y : ℤ) - 1970 by omega, ih,
      show 1970 + (y - 1970) = y by omega] at hstep
    rw [hstep, yearStart_succ hy, Nat.cast_add]

/-! ## The carries -/

theorem spm_le {i : ℕ} (h : i ≤ 12) : spm i ≤ 365 := by
  rcases Nat.lt_or_eq_of_le h with hlt | rfl
  · exact (spm_lt_spm hlt le_rfl).le
  · decide

/-- A day of the week is an `int`. -/
theorem fitsInt_tmod (n : ℤ) : FitsInt (Int.tmod n 7) := by
  have hlow := Int.tmod_lt_of_pos (-n) (show (0 : ℤ) < 7 by omega)
  have hhigh := Int.tmod_lt_of_pos n (show (0 : ℤ) < 7 by omega)
  rw [Int.neg_tmod] at hlow
  unfold FitsInt
  omega

/-- The time of a day of the month, in seconds. -/
def dayTime (t : Tm) : ℤ := ((t.mday * 24 + t.hour) * 60 + t.min) * 60 + t.sec

theorem dayTime_carrySec (t : Tm) : dayTime (carrySec t) = dayTime t := by
  have := Int.tdiv_mul_add_tmod t.sec 60
  unfold carrySec
  split
  · simp only [dayTime]
    omega
  · rfl

theorem dayTime_carryMin (t : Tm) : dayTime (carryMin t) = dayTime t := by
  have := Int.tdiv_mul_add_tmod t.min 60
  unfold carryMin
  split
  · simp only [dayTime]
    omega
  · rfl

theorem dayTime_carryHour (t : Tm) : dayTime (carryHour t) = dayTime t := by
  have := Int.tdiv_mul_add_tmod t.hour 24
  unfold carryHour
  split
  · simp only [dayTime]
    omega
  · rfl

/-- The fields once the time of the day is in range. -/
def carryTime (t : Tm) : Tm := carryHour (carryMin (carrySec t))

theorem dayTime_carryTime (t : Tm) : dayTime (carryTime t) = dayTime t := by
  rw [carryTime, dayTime_carryHour, dayTime_carryMin, dayTime_carrySec]

theorem carryTime_year (t : Tm) : (carryTime t).year = t.year := by
  unfold carryTime carryHour carryMin carrySec
  split <;> split <;> split <;> rfl

theorem carryTime_mon (t : Tm) : (carryTime t).mon = t.mon := by
  unfold carryTime carryHour carryMin carrySec
  split <;> split <;> split <;> rfl

theorem carrySec_spec (h : 0 ≤ t.sec) :
    (0 ≤ (carrySec t).sec ∧ (carrySec t).sec ≤ 60) ∧
      (t.min ≤ (carrySec t).min ∧ (carrySec t).min ≤ t.sec / 60 + t.min) ∧
      (carrySec t).hour = t.hour ∧ (carrySec t).mday = t.mday ∧ (carrySec t).isdst = t.isdst := by
  have hdiv := Int.tdiv_eq_ediv_of_nonneg (b := 60) h
  have hmod := Int.tmod_eq_emod_of_nonneg (b := 60) h
  unfold carrySec
  split
  · exact ⟨by simp only; omega, by simp only; omega, rfl, rfl, rfl⟩
  · exact ⟨by omega, by omega, rfl, rfl, rfl⟩

theorem carryMin_spec (h : 0 ≤ t.min) :
    (0 ≤ (carryMin t).min ∧ (carryMin t).min < 60) ∧
      (t.hour ≤ (carryMin t).hour ∧ (carryMin t).hour ≤ t.min / 60 + t.hour) ∧
      (carryMin t).sec = t.sec ∧ (carryMin t).mday = t.mday ∧ (carryMin t).isdst = t.isdst := by
  have hdiv := Int.tdiv_eq_ediv_of_nonneg (b := 60) h
  have hmod := Int.tmod_eq_emod_of_nonneg (b := 60) h
  unfold carryMin
  split
  · exact ⟨by simp only; omega, by simp only; omega, rfl, rfl, rfl⟩
  · exact ⟨by omega, by omega, rfl, rfl, rfl⟩

theorem carryHour_spec (h : 0 ≤ t.hour) :
    (0 ≤ (carryHour t).hour ∧ (carryHour t).hour < 24) ∧
      (t.mday ≤ (carryHour t).mday ∧ (carryHour t).mday ≤ t.hour / 24 + t.mday) ∧
      (carryHour t).sec = t.sec ∧ (carryHour t).min = t.min ∧ (carryHour t).isdst = t.isdst := by
  have hdiv := Int.tdiv_eq_ediv_of_nonneg (b := 24) h
  have hmod := Int.tmod_eq_emod_of_nonneg (b := 24) h
  unfold carryHour
  split
  · exact ⟨by simp only; omega, by simp only; omega, rfl, rfl, rfl⟩
  · exact ⟨by omega, by omega, rfl, rfl, rfl⟩

/-- **The carries of the time of the day**: it is in range then, and the days
have gone up by no more than it ran over by. -/
theorem carryTime_spec (hs : 0 ≤ t.sec) (hm : 0 ≤ t.min) (hh : 0 ≤ t.hour) :
    ((0 ≤ (carryTime t).sec ∧ (carryTime t).sec ≤ 60) ∧
        (0 ≤ (carryTime t).min ∧ (carryTime t).min < 60) ∧
          0 ≤ (carryTime t).hour ∧ (carryTime t).hour < 24) ∧
      (t.mday ≤ (carryTime t).mday ∧
        (carryTime t).mday ≤ t.mday + ((t.sec / 60 + t.min) / 60 + t.hour) / 24) ∧
      (carryTime t).isdst = t.isdst := by
  obtain ⟨hsec, hmin, hhour, hday, hdst⟩ := carrySec_spec hs
  obtain ⟨hmin', hhour', hsec', hday', hdst'⟩ := carryMin_spec (t := carrySec t) (by omega)
  obtain ⟨hhour'', hday'', hsec'', hmin'', hdst''⟩ :=
    carryHour_spec (t := carryMin (carrySec t)) (by omega)
  unfold carryTime
  refine ⟨⟨?_, ?_, hhour''⟩, ?_, ?_⟩
  · rw [hsec'', hsec']
    exact hsec
  · rw [hmin'']
    exact hmin'
  · omega
  · rw [hdst'', hdst', hdst]

/-- What `timegm` gives where the days stay below the next entry of the
table. -/
theorem timegm_eq {t' : Tm} {y' m : ℕ} (hn : normalize t = t') (hy : t.year = (y : ℤ) - 1900)
    (h : 1970 ≤ y) (hy' : t'.year = (y' : ℤ) - 1900) (hle : y ≤ y') (hm : t'.mon = m)
    (hlt : m < 12) :
    timegm t =
      { time := (((yearStart 1970 y + monthStart y' m + (t'.mday - 1)) * 24 + t'.hour) * 60 +
          t'.min) * 60 + t'.sec
        tm := { t' with
          yday := monthStart y' m + (t'.mday - 1)
          wday := Int.tmod (yearStart 1970 y + monthStart y' m + (t'.mday - 1) + 4) 7 }
        errno := none } := by
  have hyears : t.year - 70 = (y : ℤ) - 1970 := by omega
  have hstart := monthStart_eq_spm y' (m := m) (by omega)
  have hleap : (if isleap (t'.year + 1900) = true ∧ t'.mon > 1 then (1 : ℤ) else 0) =
      leapDay y' m := by
    rw [hy', hm, show (y' : ℤ) - 1900 + 1900 = y' by omega, isleap_natCast, leapDay]
    by_cases hl : IsLeap y' ∧ 1 < m
    · rw [if_pos hl, if_pos ⟨decide_eq_true hl.1, by omega⟩]
      rfl
    · rw [if_neg hl, if_neg]
      · rfl
      · intro hl'
        exact hl ⟨of_decide_eq_true hl'.1, by omega⟩
  have hyday : spm t'.mon + t'.mday - 1 + leapDay y' m = monthStart y' m + (t'.mday - 1) := by
    rw [hm]
    omega
  have hsum : (yearStart 1970 y : ℤ) + (monthStart y' m + (t'.mday - 1)) =
      yearStart 1970 y + monthStart y' m + (t'.mday - 1) := by omega
  unfold timegm
  dsimp only
  rw [hn, if_neg (by omega), hleap, hyday, hyears, yearDays_eq h, hsum]

/-- The sums of the carries are `int`s: the minutes, the hours and the year,
and the day of the month can be counted from 0. -/
structure CarriesFit (t : Tm) (y m : ℕ) : Prop where
  min : t.sec / 60 + t.min < 2 ^ 31
  hour : (t.sec / 60 + t.min) / 60 + t.hour < 2 ^ 31
  year : y + m / 12 < 2 ^ 31
  mday : -(2 ^ 31) < t.mday

/-- **Fields out of range.** The surplus of the time of the day is carried
into the days, and surplus days count on. The years that surplus months
come to decide about the months and the leap day, and are not counted. What
the fields are left at are `int`s, as long as the sums of the carries are. -/
theorem timegm_linear {m : ℕ} (ht : t.Fits) (hfit : CarriesFit t y m)
    (hy : t.year = (y : ℤ) - 1900) (h : 1970 ≤ y) (hm : t.mon = m)
    (hs : 0 ≤ t.sec) (hmin : 0 ≤ t.min) (hh : 0 ≤ t.hour)
    (hday : t.mday + ((t.sec / 60 + t.min) / 60 + t.hour) / 24 ≤ spm (1 + m % 12 : ℕ)) :
    (timegm t).time =
        (((yearStart 1970 y + monthStart (y + m / 12) (m % 12) + (t.mday - 1)) * 24 +
          t.hour) * 60 + t.min) * 60 + t.sec ∧
      (timegm t).tm.Fits := by
  have htime := dayTime_carryTime t
  have hyear := carryTime_year t
  have hmon := carryTime_mon t
  obtain ⟨⟨hsec', hmin', hhour'⟩, hmday, hisdst⟩ := carryTime_spec hs hmin hh
  set u := carryTime t with hu
  have hcarry : carryMon u =
      { u with year := ((y + m / 12 : ℕ) : ℤ) - 1900, mon := (m % 12 : ℕ) } := by
    unfold carryMon
    split
    · have hdiv : Int.tdiv u.mon 12 = (m / 12 : ℕ) := by
        rw [hmon, hm]
        rfl
      have hmod : Int.tmod u.mon 12 = (m % 12 : ℕ) := by
        rw [hmon, hm]
        rfl
      rw [hdiv, hmod, hyear, hy, Nat.cast_add]
      congr 1
      omega
    · refine Tm.ext rfl rfl rfl rfl ?_ ?_ rfl rfl rfl
      · simp only
        omega
      · simp only
        omega
  have hpass : dayPass (carryMon u) = none := by
    refine if_neg ?_
    rw [hcarry, show (1 : ℤ) + ((m % 12 : ℕ) : ℤ) = ((1 + m % 12 : ℕ) : ℤ) by omega]
    exact not_lt.2 (hmday.2.trans hday)
  have hn : normalize t = carryMon u := by
    rw [normalize, ← carryTime, ← hu, carryDay, Loop.run_of_none hpass]
  rw [hcarry] at hn
  rw [timegm_eq hn hy h rfl (by omega) rfl (by omega)]
  constructor
  · simp only [dayTime] at htime ⊢
    omega
  · -- the day of the year is where the days come closest to an end
    have hyears := hfit.year
    have hdays := hfit.mday
    have hdst := ht.isdst
    have hentry := spm_le (i := 1 + m % 12) (by omega)
    have hstart := monthStart_mono (y + m / 12) (show m % 12 ≤ 12 by omega)
    have hlen := yearLength_le (y + m / 12)
    rw [monthStart_twelve] at hstart
    rw [← hisdst] at hdst
    generalize yearLength (y + m / 12) = length at hstart hlen
    refine ⟨?_, ?_, ?_, ?_, ?_, ?_, fitsInt_tmod _, ?_, hdst⟩ <;>
    · simp only [FitsInt]
      omega

theorem timegm_linear_surplus :
    ∃ t : Tm, t.year = ((1999 : ℕ) : ℤ) - 1900 ∧ t.mon = (13 : ℕ) ∧
      ((timegm t).time = (((yearStart 1970 1999 + monthStart (1999 + 13 / 12) (13 % 12) +
        (t.mday - 1)) * 24 + t.hour) * 60 + t.min) * 60 + t.sec ∧ (timegm t).tm.Fits) := by
  let t : Tm :=
    { sec := 75, min := 59, hour := 49, mday := 28, mon := 13, year := 99
      wday := 0, yday := 0, isdst := 0 }
  have hday : t.mday + ((t.sec / 60 + t.min) / 60 + t.hour) / 24 ≤ spm (1 + 13 % 12 : ℕ) := by
    decide
  have ht : t.Fits := by
    refine ⟨?_, ?_, ?_, ?_, ?_, ?_, ?_, ?_, ?_⟩ <;>
    · simp only [FitsInt, t]
      omega
  have hfit : CarriesFit t 1999 13 := ⟨by decide, by decide, by decide, by decide⟩
  exact ⟨t, rfl, rfl, timegm_linear (t := t) (y := 1999) (m := 13) ht hfit rfl (by omega) rfl
    (by decide) (by decide) (by decide) hday⟩

/-! ## The fields of a date -/

theorem day_le_spm (d : Date) : (d.day : ℤ) ≤ spm (1 + d.month : ℕ) := by
  have hday := d.day_le
  have hlen := monthLength_le d.year d.month
  have hone : spm (1 : ℕ) = 31 := rfl
  rcases Nat.eq_zero_or_pos d.month with h | h
  · rw [h, Nat.add_zero]
    omega
  · have hmono := spm_lt_spm (i := 1) (j := 1 + d.month) (by omega)
      (by have := d.month_lt; omega)
    omega

/-- Fields that are in range need no carry. -/
theorem normalize_of_inRange (hsec : t.sec ≤ 60) (hmin : t.min < 60) (hhour : t.hour < 24)
    (hmon : t.mon < 12) (hmday : t.mday ≤ spm (1 + t.mon)) : normalize t = t := by
  have h1 : carrySec t = t := if_neg (by omega)
  have h2 : carryMin t = t := if_neg (by omega)
  have h3 : carryHour t = t := if_neg (by omega)
  have h4 : carryMon t = t := if_neg (by omega)
  have hpass : dayPass t = none := if_neg (by omega)
  rw [normalize, h1, h2, h3, h4, carryDay, Loop.run_of_none hpass]

/-- The fields of a date need no carry. -/
theorem Names.normalize (h : Names t c) : normalize t = t := by
  have hsec := c.sec.isLt
  have hmin := c.min.isLt
  have hhour := c.hour.isLt
  have hmon := c.date.month_lt
  have hday := day_le_spm c.date
  refine normalize_of_inRange ?_ ?_ ?_ ?_ ?_
  · rw [h.sec]
    omega
  · rw [h.min]
    omega
  · rw [h.hour]
    omega
  · rw [h.mon]
    omega
  · rw [h.mday, h.mon, show (1 : ℤ) + c.date.month = ((1 + c.date.month : ℕ) : ℤ) by omega]
    exact hday

/-- **`timegm` gives the seconds of a date**, and the day of the week and
of the year. -/
theorem Names.timegm (h : Names t c) (hy : 1970 ≤ c.date.year) :
    timegm t =
      { time := c.seconds 1970
        tm := { t with
          yday := c.date.dayOfYear
          wday := ((4 + c.date.number 1970) % 7 : ℕ) }
        errno := none } := by
  have hpos := c.date.day_pos
  have hyday : (monthStart c.date.year c.date.month : ℤ) + ((c.date.day : ℤ) - 1) =
      c.date.dayOfYear := by
    rw [Date.dayOfYear]
    omega
  have hnumber : (yearStart 1970 c.date.year : ℤ) + monthStart c.date.year c.date.month +
      ((c.date.day : ℤ) - 1) = c.date.number 1970 := by
    rw [Date.number, Nat.cast_add, ← hyday]
    omega
  have hwday : Int.tmod ((c.date.number 1970 : ℤ) + 4) 7 =
      ((4 + c.date.number 1970) % 7 : ℕ) := by
    rw [Nat.add_comm]
    rfl
  rw [timegm_eq h.normalize h.year hy h.year le_rfl h.mon c.date.month_lt, h.mday, hnumber, hyday,
    hwday, h.hour, h.min, h.sec, Clock.seconds]
  push_cast
  rfl

/-- The fields of a date taken to another year, which may lack the day. -/
theorem timegm_of_fields {s : ℕ} (hs : s < 60) (hsec : t.sec = s) (hmin : t.min = c.min.val)
    (hhour : t.hour = c.hour.val) (hmday : t.mday = c.date.day) (hmon : t.mon = c.date.month)
    (hyear : t.year = (y : ℤ) - 1900) (hy : 1970 ≤ y) :
    (timegm t).time =
      (((yearStart 1970 y + monthStart y c.date.month + ((c.date.day : ℤ) - 1)) * 24 +
        c.hour.val) * 60 + c.min.val) * 60 + s := by
  have hday := day_le_spm c.date
  have hm := c.min.isLt
  have hh := c.hour.isLt
  have hmonth := c.date.month_lt
  have hnorm : normalize t = t := by
    refine normalize_of_inRange (by omega) (by omega) (by omega) (by omega) ?_
    rw [hmday, hmon, show (1 : ℤ) + c.date.month = ((1 + c.date.month : ℕ) : ℤ) by omega]
    exact hday
  rw [timegm_eq hnorm hyear hy hyear le_rfl hmon hmonth, hmday, hhour, hmin, hsec]

/-! ## There and back -/

theorem names_gmtimeR (n : ℕ) : Names (gmtimeR n) (Clock.tick^[n] epoch) := by
  rw [gmtimeR_eq_tick]
  exact names_ofClock _

theorem monthOf_of_nonpos {w : ℤ} (h : w ≤ 0) {n : ℕ} (hn : n ≤ 11) : monthOf w n = 0 := by
  induction n with
  | zero => rfl
  | succ n ih =>
    have hpos : spm (0 : ℕ) < spm (n + 1 : ℕ) := spm_lt_spm (by omega) (by omega)
    have hzero : spm (0 : ℕ) = 0 := rfl
    rw [monthOf, if_pos (by omega), ih (by omega)]

theorem tdiv_nonpos {a b : ℤ} (ha : a ≤ 0) (hb : 0 ≤ b) : Int.tdiv a b ≤ 0 := by
  have h := Int.tdiv_nonneg (a := -a) (b := b) (by omega) hb
  rw [Int.neg_tdiv] at h
  omega

theorem tmod_nonpos {a b : ℤ} (ha : a ≤ 0) (hb : 0 < b) :
    -b < Int.tmod a b ∧ Int.tmod a b ≤ 0 := by
  have hlt := Int.tmod_lt_of_pos (-a) hb
  have hneg := Int.tmod_nonneg (a := -a) b (by omega)
  rw [Int.neg_tmod] at hlt hneg
  omega

/-- Before 1970 the days go down from the first of January 1970 and are
not broken down. -/
theorem dateOf_of_nonpos (r : Tm) {d : ℤ} (h : d ≤ 0) :
    dateOf r (yearOf d).1 (yearOf d).2 =
      { r with mday := 1 + d, mon := 0, year := 70, yday := d } := by
  have hleap : isleap 1970 = false := by decide
  have hpass : yearPass (1970, d) = none := by
    refine if_neg ?_
    rw [hleap]
    simp only [Bool.false_eq_true, if_false]
    omega
  have hskip : skipLeapDay 1970 d = (1, d) := by
    refine if_neg ?_
    rintro ⟨-, hd⟩
    omega
  have hzero : spm (0 : ℕ) = 0 := rfl
  rw [yearOf, Loop.run_of_none hpass]
  simp only [dateOf, hskip, monthOf_of_nonpos h le_rfl, hzero, Int.sub_zero]
  rfl

/-- The fields of a time before 1970: none but the year is positive. -/
theorem gmtimeR_of_neg {n : ℤ} (h : n < 0) :
    ∃ sec min hour d : ℤ, (-60 < sec ∧ sec ≤ 0) ∧ (-60 < min ∧ min ≤ 0) ∧
      (-24 < hour ∧ hour ≤ 0) ∧ (d ≤ 0 ∧ n ≤ d * 86400) ∧
      ((d * 24 + hour) * 60 + min) * 60 + sec = n ∧
      gmtimeR n =
        { sec := sec, min := min, hour := hour, mday := 1 + d, mon := 0, year := 70
          wday := Int.tmod (4 + d) 7, yday := d, isdst := 0 } := by
  have hspd : spd = 86400 := rfl
  have hday := tdiv_nonpos (a := n) (b := spd) (by omega) (by omega)
  have hn := Int.tdiv_mul_add_tmod n spd
  have hrest := tmod_nonpos (a := n) (b := spd) (by omega) (by omega)
  set d := Int.tdiv n spd with hd
  set w := Int.tmod n spd with hw
  rw [hspd] at hn hrest
  -- the rest of the day in seconds, and of those in minutes
  have hsec := tmod_nonpos hrest.2 (show (0 : ℤ) < 60 by omega)
  have hmins := tdiv_nonpos hrest.2 (show (0 : ℤ) ≤ 60 by omega)
  have hsplit := Int.tdiv_mul_add_tmod w 60
  have hmin := tmod_nonpos hmins (show (0 : ℤ) < 60 by omega)
  have hhours := tdiv_nonpos hmins (show (0 : ℤ) ≤ 60 by omega)
  have hsplit' := Int.tdiv_mul_add_tmod (Int.tdiv w 60) 60
  refine ⟨_, _, _, d, hsec, hmin, ⟨by omega, hhours⟩, ⟨hday, by omega⟩, by omega, ?_⟩
  rw [gmtimeR, ← hd, ← hw, dateOf_of_nonpos _ hday]
  rfl

theorem timegm_gmtimeR_of_neg {n : ℤ} (h : n < 0) : (timegm (gmtimeR n)).time = n := by
  obtain ⟨sec, min, hour, d, hsec, hmin, hhour, hd, hsum, hfields⟩ := gmtimeR_of_neg h
  set t := gmtimeR n with ht
  have hnorm : normalize t = t := by
    have hone : spm (1 + 0) = 31 := rfl
    rw [hfields]
    refine normalize_of_inRange ?_ ?_ ?_ ?_ ?_ <;> simp only [hone] <;> omega
  have hyear : t.year = ((1970 : ℕ) : ℤ) - 1900 := by
    rw [hfields]
    rfl
  have hmon : t.mon = (0 : ℕ) := by
    rw [hfields]
    rfl
  rw [timegm_eq hnorm hyear le_rfl hyear le_rfl hmon (by omega), hfields]
  have hstart : monthStart 1970 0 = 0 := rfl
  rw [yearStart_self, hstart]
  simp only
  omega

/-- Before 1970 the members are `int`s for `2 ^ 31` days. -/
theorem fits_gmtimeR_of_neg {n : ℤ} (h : n < 0) (hlow : -(2 ^ 31 * 86400) ≤ n) :
    (gmtimeR n).Fits := by
  obtain ⟨sec, min, hour, d, hsec, hmin, hhour, hd, -, hfields⟩ := gmtimeR_of_neg h
  rw [hfields]
  refine ⟨?_, ?_, ?_, ?_, ?_, ?_, fitsInt_tmod _, ?_, ?_⟩ <;>
  · simp only [FitsInt]
    omega

/-- **`timegm` takes back what `gmtime_r` did**, also before 1970. -/
theorem timegm_gmtimeR (n : ℤ) : (timegm (gmtimeR n)).time = n := by
  rcases lt_or_ge n 0 with h | h
  · exact timegm_gmtimeR_of_neg h
  · obtain ⟨k, rfl⟩ := Int.eq_ofNat_of_zero_le h
    obtain ⟨hyear, hsec, -⟩ := Clock.iterate_tick 1970 ⟨4, by omega⟩ k
    rw [(names_gmtimeR k).timegm hyear]
    exact congrArg (fun i : ℕ => (i : ℤ)) hsec

/-- **`gmtime_r` gives the fields of a date back**, with the day of the
week and of the year that `timegm` put in. -/
theorem gmtimeR_timegm (h : Names t c) (hy : 1970 ≤ c.date.year) :
    gmtimeR (timegm t).time = { (timegm t).tm with isdst := 0 } := by
  let c' : Clock := { c with weekday := ⟨(4 + c.date.number 1970) % 7, Nat.mod_lt _ (by omega)⟩ }
  have hc : c' = Clock.tick^[c.seconds 1970] epoch :=
    Clock.eq_iterate_tick (c := c') (w := ⟨4, by omega⟩) hy rfl
  rw [h.timegm hy, gmtimeR_eq_tick, ← hc]
  refine Tm.ext h.sec.symm h.min.symm h.hour.symm h.mday.symm h.mon.symm h.year.symm ?_ rfl rfl
  rfl

/-- **Local time is what the clock shows**, the zone's hours set ahead, up to
the year `2 ^ 31`. -/
theorem localtimeR_shows {tz n : ℤ} {k : ℕ} (h : n + tz * 3600 = k)
    (hint : k < secondsTo (2 ^ 31)) :
    localtimeR tz n = ofClock (Clock.tick^[k] epoch) ∧ (localtimeR tz n).Fits := by
  have hshows : localtimeR tz n = ofClock (Clock.tick^[k] epoch) := by
    rw [localtimeR, h]
    exact gmtimeR_eq_tick k
  refine ⟨hshows, ?_⟩
  rw [localtimeR, h]
  exact fits_gmtimeR hint

/-- Midnight after the leap day of the year 2000, eight hours to the east. -/
theorem localtimeR_shows_after_leap_day :
    (localtimeR 8 951840000 = ofClock (Clock.tick^[951868800] epoch) ∧
        (localtimeR 8 951840000).Fits) ∧
      (localtimeR 8 951840000).mon = 2 ∧ (localtimeR 8 951840000).mday = 1 := by
  have h : (951840000 : ℤ) + 8 * 3600 = (951868800 : ℕ) := by decide
  have hint : 951868800 < secondsTo (2 ^ 31) :=
    lt_of_lt_of_le (by decide) (le_secondsTo (by decide))
  exact ⟨localtimeR_shows h hint, by decide +kernel, by decide +kernel⟩

/-- **Local time goes there and back** in every zone, for all times whose
fields are `int`s. -/
theorem mktime_localtimeR (tz n : ℤ) (hlow : -(2 ^ 31 * 86400) ≤ n + tz * 3600)
    (hhigh : n + tz * 3600 < secondsTo (2 ^ 31)) :
    (localtimeR tz n).Fits ∧ (mktime tz (localtimeR tz n)).time = n := by
  constructor
  · rcases lt_or_ge (n + tz * 3600) 0 with hneg | hpos
    · exact fits_gmtimeR_of_neg hneg hlow
    · obtain ⟨k, hk⟩ := Int.eq_ofNat_of_zero_le hpos
      rw [localtimeR, hk]
      exact fits_gmtimeR (by omega)
  · simp only [mktime, localtimeR, timegm_gmtimeR]
    omega

theorem mktime_localtimeR_before_epoch :
    ((localtimeR 8 (-100000)).Fits ∧ (mktime 8 (localtimeR 8 (-100000))).time = -100000) ∧
      (localtimeR 8 951840000).Fits ∧ (mktime 8 (localtimeR 8 951840000)).time = 951840000 := by
  have hafter : (951840000 : ℤ) + 8 * 3600 < secondsTo (2 ^ 31) :=
    lt_of_lt_of_le (by decide) (Int.ofNat_le.2 (le_secondsTo (by decide)))
  have hbefore : (-100000 : ℤ) + 8 * 3600 < secondsTo (2 ^ 31) :=
    lt_of_lt_of_le (by decide) (Int.ofNat_le.2 (le_secondsTo (by decide)))
  exact ⟨mktime_localtimeR 8 (-100000) (by decide) hbefore,
    mktime_localtimeR 8 951840000 (by decide) hafter⟩

/-- **A date goes there and back**, in a year that is an `int`: `mktime`
gives its seconds, less those of the zone, and local time gives its
fields. -/
theorem localtimeR_mktime (tz : ℤ) (h : Names t c) (hy : 1970 ≤ c.date.year)
    (hint : c.date.year < 2 ^ 31) :
    (mktime tz t).time = (c.seconds 1970 : ℤ) - 3600 * tz ∧ (mktime tz t).errno = none ∧
      localtimeR tz (mktime tz t).time = { (mktime tz t).tm with isdst := 0 } ∧
      (localtimeR tz (mktime tz t).time).Fits := by
  have hback : (mktime tz t).time + tz * 3600 = c.seconds 1970 := by
    simp only [mktime, h.timegm hy]
    omega
  have hfields : localtimeR tz (mktime tz t).time = { (mktime tz t).tm with isdst := 0 } := by
    have hgm := gmtimeR_timegm h hy
    rw [h.timegm hy] at hgm
    rw [localtimeR, hback, hgm, mktime, h.timegm hy]
  refine ⟨?_, ?_, hfields, ?_⟩
  · rw [mktime, h.timegm hy]
  · rw [mktime, h.timegm hy]
  · rw [localtimeR, hback]
    exact fits_gmtimeR (seconds_lt_of_year hy hint)

theorem localtimeR_mktime_leap_day :
    ∃ (t : Tm) (c : Clock), Names t c ∧ 1970 ≤ c.date.year ∧
      (mktime 8 t).time = (c.seconds 1970 : ℤ) - 3600 * 8 ∧ (mktime 8 t).errno = none ∧
        localtimeR 8 (mktime 8 t).time = { (mktime 8 t).tm with isdst := 0 } ∧
        (localtimeR 8 (mktime 8 t).time).Fits := by
  let c : Clock := ⟨⟨2000, 1, 29, by omega, by omega, by decide⟩, 0, 8, 30, 15⟩
  let t : Tm :=
    { sec := 15, min := 30, hour := 8, mday := 29, mon := 1, year := 100
      wday := 0, yday := 0, isdst := 0 }
  have hnames : Names t c := ⟨rfl, rfl, rfl, rfl, rfl, by decide⟩
  have hy : 1970 ≤ c.date.year := by decide
  have hint : c.date.year < 2 ^ 31 := by decide
  exact ⟨t, c, hnames, hy, localtimeR_mktime 8 hnames hy hint⟩

end Time

end RtSpark
