import Mathlib.Algebra.BigOperators.Intervals
import Mathlib.Algebra.Order.BigOperators.Group.Finset
import Mathlib.Data.Fin.Basic
import Mathlib.Logic.Function.Iterate
/-!
# The civil calendar

A date is a year, a month counted from zero and a day counted from one,
and carries the proof that the month has that day. Dates are numbered
from the first of January of an epoch year (`Date.number`), and the day
after has the next number (`number_next`).

A clock shows a date, the day of the week and the time of the day, and
moves on by one second at a time (`Clock.tick`). The seconds since the
epoch tell two clocks apart (`seconds_injOn`), so a clock that shows a
date from the epoch on is the one that started there and ticked that
often (`eq_iterate_tick`).
-/

namespace RtSpark

namespace Calendar

open Finset

/-- Every fourth year, save for the centuries that 400 does not divide. -/
def IsLeap (y : ℕ) : Prop := 4 ∣ y ∧ (¬ 100 ∣ y ∨ 400 ∣ y)

instance (y : ℕ) : Decidable (IsLeap y) :=
  inferInstanceAs (Decidable (4 ∣ y ∧ (¬ 100 ∣ y ∨ 400 ∣ y)))

def yearLength (y : ℕ) : ℕ := if IsLeap y then 366 else 365

/-- The days of a month, January being month 0. -/
def monthLength (y : ℕ) : ℕ → ℕ
  | 1 => if IsLeap y then 29 else 28
  | 3 | 5 | 8 | 10 => 30
  | _ => 31

/-- The days of the year before the month begins. -/
def monthStart (y m : ℕ) : ℕ := ∑ i ∈ range m, monthLength y i

/-- The days from the epoch year's beginning to the year's. -/
def yearStart (e y : ℕ) : ℕ := ∑ i ∈ Ico e y, yearLength i

variable {e y y' m : ℕ}

theorem yearLength_pos (y : ℕ) : 0 < yearLength y := by
  unfold yearLength
  split <;> omega

theorem monthLength_pos (y m : ℕ) : 0 < monthLength y m := by
  unfold monthLength
  split <;> first | omega | (split <;> omega)

theorem monthLength_le (y m : ℕ) : monthLength y m ≤ 31 := by
  unfold monthLength
  split <;> first | omega | (split <;> omega)

theorem monthStart_succ (y m : ℕ) : monthStart y (m + 1) = monthStart y m + monthLength y m :=
  sum_range_succ _ _

/-- The months make up the year. -/
theorem monthStart_twelve (y : ℕ) : monthStart y 12 = yearLength y := by
  simp only [monthStart, sum_range_succ, sum_range_zero, monthLength, yearLength]
  split <;> rfl

theorem monthStart_mono (y : ℕ) : Monotone (monthStart y) :=
  monotone_nat_of_le_succ fun m => by rw [monthStart_succ]; omega

@[simp] theorem yearStart_self (e : ℕ) : yearStart e e = 0 := by simp [yearStart]

theorem yearStart_succ (h : e ≤ y) : yearStart e (y + 1) = yearStart e y + yearLength y :=
  sum_Ico_succ_top h _

theorem yearStart_mono (e : ℕ) : Monotone (yearStart e) := fun _ _ h =>
  sum_le_sum_of_subset (Ico_subset_Ico_right h)

theorem yearLength_ge (y : ℕ) : 365 ≤ yearLength y := by
  unfold yearLength
  split <;> omega

theorem yearLength_le (y : ℕ) : yearLength y ≤ 366 := by
  unfold yearLength
  split <;> omega

/-- A year has at least 365 days. -/
theorem le_yearStart (h : e ≤ y) : (y - e) * 365 ≤ yearStart e y := by
  induction y, h using Nat.le_induction with
  | base => rw [Nat.sub_self, Nat.zero_mul]; exact Nat.zero_le _
  | succ y hy ih =>
    calc (y + 1 - e) * 365 = (y - e) * 365 + 365 := by rw [Nat.succ_sub hy, Nat.succ_mul]
      _ ≤ yearStart e y + yearLength y := Nat.add_le_add ih (yearLength_ge y)
      _ = yearStart e (y + 1) := (yearStart_succ hy).symm

/-- A day of the calendar. -/
@[ext] structure Date where
  year : ℕ
  month : ℕ
  day : ℕ
  month_lt : month < 12
  day_pos : 0 < day
  day_le : day ≤ monthLength year month
  deriving DecidableEq

namespace Date

variable {d d' : Date}

/-- The first of January. -/
def newYear (y : ℕ) : Date := ⟨y, 0, 1, by omega, by omega, monthLength_pos y 0⟩

/-- The days of the year that lie before the date. -/
def dayOfYear (d : Date) : ℕ := monthStart d.year d.month + (d.day - 1)

/-- The days from the epoch year's beginning to the date. -/
def number (e : ℕ) (d : Date) : ℕ := yearStart e d.year + d.dayOfYear

/-- The day after. -/
def next (d : Date) : Date :=
  if h : d.day < monthLength d.year d.month then
    ⟨d.year, d.month, d.day + 1, d.month_lt, by omega, h⟩
  else if h' : d.month + 1 < 12 then
    ⟨d.year, d.month + 1, 1, h', by omega, monthLength_pos _ _⟩
  else newYear (d.year + 1)

@[simp] theorem number_newYear (e : ℕ) : (newYear e).number e = 0 := by
  simp [number, dayOfYear, newYear, monthStart]

theorem dayOfYear_lt (d : Date) : d.dayOfYear < monthStart d.year (d.month + 1) := by
  have := d.day_pos
  have := d.day_le
  rw [monthStart_succ, dayOfYear]
  omega

/-- A date lies in its year. -/
theorem dayOfYear_lt_yearLength (d : Date) : d.dayOfYear < yearLength d.year := by
  have hlt := d.dayOfYear_lt
  have hle := monthStart_mono d.year (show d.month + 1 ≤ 12 from d.month_lt)
  rw [monthStart_twelve] at hle
  omega

theorem le_year_next (d : Date) : d.year ≤ d.next.year := by
  unfold next newYear
  split
  · exact le_rfl
  · split
    · exact le_rfl
    · exact Nat.le_succ _

/-- **The day after has the next number.** -/
theorem number_next (h : e ≤ d.year) : d.next.number e = d.number e + 1 := by
  have hpos := d.day_pos
  have hle := d.day_le
  unfold next
  split
  · simp only [number, dayOfYear]
    omega
  · rename_i hlast
    have hday : d.day = monthLength d.year d.month := by omega
    split
    · simp only [number, dayOfYear, monthStart_succ]
      omega
    · rename_i hmonth
      have hdec : d.month = 11 := by
        have := d.month_lt
        omega
      have hyear := monthStart_twelve d.year
      rw [monthStart_succ, ← hdec] at hyear
      simp only [number, dayOfYear, newYear, yearStart_succ h]
      simp only [monthStart, range_zero, sum_empty] at *
      omega

/-- An earlier year has the smaller numbers. -/
theorem number_lt_of_year_lt (h : d.year < d'.year) (he : e ≤ d.year) :
    d.number e < d'.number e := by
  have hlen := d.dayOfYear_lt_yearLength
  have hstart := yearStart_mono e (show d.year + 1 ≤ d'.year from h)
  rw [yearStart_succ he] at hstart
  unfold number
  omega

theorem dayOfYear_lt_of_month_lt (hy : d.year = d'.year) (h : d.month < d'.month) :
    d.dayOfYear < d'.dayOfYear := by
  have hlt := d.dayOfYear_lt
  have hstart := monthStart_mono d.year (show d.month + 1 ≤ d'.month from h)
  rw [hy] at hlt hstart
  have : monthStart d'.year d'.month ≤ d'.dayOfYear := Nat.le_add_right _ _
  omega

/-- **The number determines the date.** -/
theorem number_injOn (e : ℕ) : Set.InjOn (number e) {d | e ≤ d.year} := by
  intro d hd d' hd' h
  have hyear : d.year = d'.year := by
    rcases Nat.lt_trichotomy d.year d'.year with hlt | heq | hlt
    · exact absurd h (number_lt_of_year_lt hlt hd).ne
    · exact heq
    · exact absurd h (number_lt_of_year_lt hlt hd').ne'
  have hday : d.dayOfYear = d'.dayOfYear := by
    simp only [number, hyear] at h
    omega
  have hmonth : d.month = d'.month := by
    rcases Nat.lt_trichotomy d.month d'.month with hlt | heq | hlt
    · exact absurd hday (dayOfYear_lt_of_month_lt hyear hlt).ne
    · exact heq
    · exact absurd hday (dayOfYear_lt_of_month_lt hyear.symm hlt).ne'
  have hpos := d.day_pos
  have hpos' := d'.day_pos
  refine Date.ext hyear hmonth ?_
  simp only [dayOfYear, hyear, hmonth] at hday
  omega

end Date

/-- What a clock shows. -/
@[ext] structure Clock where
  date : Date
  weekday : Fin 7
  hour : Fin 24
  min : Fin 60
  sec : Fin 60
  deriving DecidableEq

namespace Clock

variable {c c' : Clock} {w : Fin 7}

/-- Midnight at the beginning of the epoch year, on weekday `w`. -/
def start (e : ℕ) (w : Fin 7) : Clock := ⟨Date.newYear e, w, 0, 0, 0⟩

/-- Midnight. -/
def nextDay (c : Clock) : Clock := ⟨c.date.next, c.weekday + 1, 0, 0, 0⟩

/-- One second later. -/
def tick (c : Clock) : Clock :=
  if h : c.sec.val + 1 < 60 then { c with sec := ⟨c.sec + 1, h⟩ }
  else if h : c.min.val + 1 < 60 then { c with min := ⟨c.min + 1, h⟩, sec := 0 }
  else if h : c.hour.val + 1 < 24 then { c with hour := ⟨c.hour + 1, h⟩, min := 0, sec := 0 }
  else c.nextDay

/-- The seconds since the epoch. -/
def seconds (e : ℕ) (c : Clock) : ℕ :=
  ((c.date.number e * 24 + c.hour) * 60 + c.min) * 60 + c.sec

/-- The day of the week is the one the epoch's leads to. -/
def InWeek (e : ℕ) (w : Fin 7) (c : Clock) : Prop :=
  c.weekday.val = (w.val + c.date.number e) % 7

theorem le_year_tick (c : Clock) : c.date.year ≤ c.tick.date.year := by
  unfold tick nextDay
  split
  · exact le_rfl
  split
  · exact le_rfl
  split
  · exact le_rfl
  · exact c.date.le_year_next

/-- **A tick is a second.** -/
theorem seconds_tick (h : e ≤ c.date.year) : c.tick.seconds e = c.seconds e + 1 := by
  have hs := c.sec.isLt
  have hm := c.min.isLt
  have hh := c.hour.isLt
  unfold tick
  split
  · simp only [seconds]
    omega
  split
  · simp only [seconds, Fin.val_zero]
    omega
  split
  · simp only [seconds, Fin.val_zero]
    omega
  · simp only [seconds, nextDay, Date.number_next h, Fin.val_zero]
    omega

theorem inWeek_tick (h : e ≤ c.date.year) (hw : c.InWeek e w) : c.tick.InWeek e w := by
  unfold InWeek tick at *
  split
  · exact hw
  split
  · exact hw
  split
  · exact hw
  · simp only [nextDay, Date.number_next h, Fin.val_add, hw]
    simp
    omega

/-- **The seconds determine the clock**, its day of the week apart. -/
theorem seconds_injOn (he : e ≤ c.date.year) (he' : e ≤ c'.date.year)
    (h : c.seconds e = c'.seconds e) :
    c.date = c'.date ∧ c.hour = c'.hour ∧ c.min = c'.min ∧ c.sec = c'.sec := by
  have hs := c.sec.isLt
  have hm := c.min.isLt
  have hh := c.hour.isLt
  have hs' := c'.sec.isLt
  have hm' := c'.min.isLt
  have hh' := c'.hour.isLt
  unfold seconds at h
  have hnumber : c.date.number e = c'.date.number e := by omega
  refine ⟨Date.number_injOn e he he' hnumber, Fin.ext ?_, Fin.ext ?_, Fin.ext ?_⟩
  · omega
  · omega
  · omega

/-- What the ticks from the epoch lead to. -/
theorem iterate_tick (e : ℕ) (w : Fin 7) (n : ℕ) :
    e ≤ (tick^[n] (start e w)).date.year ∧ (tick^[n] (start e w)).seconds e = n ∧
      (tick^[n] (start e w)).InWeek e w := by
  induction n with
  | zero =>
    refine ⟨le_rfl, ?_, ?_⟩
    · simp [start, seconds]
    · have := w.isLt
      simp only [InWeek, Function.iterate_zero, id, start, Date.number_newYear]
      omega
  | succ n ih =>
    obtain ⟨hyear, hsec, hweek⟩ := ih
    rw [Function.iterate_succ_apply']
    refine ⟨hyear.trans (le_year_tick _), ?_, inWeek_tick hyear hweek⟩
    rw [seconds_tick hyear, hsec]

/-- **A clock from the epoch on has ticked from there.** -/
theorem eq_iterate_tick (he : e ≤ c.date.year) (hw : c.InWeek e w) :
    c = tick^[c.seconds e] (start e w) := by
  obtain ⟨hyear, hsec, hweek⟩ := iterate_tick e w (c.seconds e)
  obtain ⟨hdate, hhour, hmin, hs⟩ := seconds_injOn he hyear hsec.symm
  have hwd : c.weekday = (tick^[c.seconds e] (start e w)).weekday := by
    refine Fin.ext ?_
    rw [hw, hweek, hdate]
  exact Clock.ext hdate hwd hhour hmin hs

end Clock

end Calendar

end RtSpark
