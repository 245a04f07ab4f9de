import RtSpark.Time.Model.FatTime
import RtSpark.Time.Timegm
/-!
# Which time a file gets back

A directory entry has seven bits for the year and counts the seconds by
twos. What is stored for a time comes back with the year taken modulo 128
from 1980 on (`statTm_getFattime`), so `stat` gives the time a file was
changed, to the even second, exactly from 1980 to 2107
(`stMtime_getFattime_iff`).
-/

namespace RtSpark

namespace Time

open Calendar

variable {c : Clock}

/-! ## The fields of the entry -/

theorem or_shl {a b k : ℕ} (h : b < 2 ^ k) : a * 2 ^ k ||| b = a * 2 ^ k + b := by
  rw [← Nat.shiftLeft_eq, Nat.shiftLeft_add_eq_or_of_lt h]

/-- Six numbers side by side. -/
theorem pack_eq {a b d e f g : ℕ} (hb : b < 16) (hd : d < 32) (he : e < 32) (hf : f < 64)
    (hg : g < 32) :
    a * 2 ^ 25 ||| b * 2 ^ 21 ||| d * 2 ^ 16 ||| e * 2 ^ 11 ||| f * 2 ^ 5 ||| g =
      ((((a * 16 + b) * 32 + d) * 32 + e) * 64 + f) * 32 + g := by
  rw [or_shl (by omega),
    show a * 2 ^ 25 + b * 2 ^ 21 = (a * 16 + b) * 2 ^ 21 by omega, or_shl (by omega),
    show (a * 16 + b) * 2 ^ 21 + d * 2 ^ 16 = ((a * 16 + b) * 32 + d) * 2 ^ 16 by omega,
    or_shl (by omega),
    show ((a * 16 + b) * 32 + d) * 2 ^ 16 + e * 2 ^ 11 =
      (((a * 16 + b) * 32 + d) * 32 + e) * 2 ^ 11 by omega,
    or_shl (by omega),
    show (((a * 16 + b) * 32 + d) * 32 + e) * 2 ^ 11 + f * 2 ^ 5 =
      ((((a * 16 + b) * 32 + d) * 32 + e) * 64 + f) * 2 ^ 5 by omega,
    or_shl (by omega)]
  omega

/-- The year of an entry: modulo 128, and 1980 is 0. -/
def entryYear (y : ℕ) : ℕ := (y + 68) % 128

theorem shl_dword {j k : ℕ} (h : j * 2 ^ k < 0x100000000) : shl (dword j) k = j * 2 ^ k := by
  have hle : j ≤ j * 2 ^ k := Nat.le_mul_of_pos_right j (Nat.two_pow_pos k)
  have hdword : dword j = j := by
    unfold dword
    omega
  rw [shl, hdword, Nat.shiftLeft_eq, Nat.mod_eq_of_lt h]

theorem shl_dword_year (y : ℕ) : shl (dword ((y : ℤ) - 1900 - 80)) 25 = entryYear y * 2 ^ 25 := by
  unfold shl dword entryYear
  rw [Nat.shiftLeft_eq]
  omega

/-- What is stored for what a clock shows. -/
theorem getFattime_eq {n : ℤ} (h : gmtimeR n = ofClock c) :
    getFattime n = ((((entryYear c.date.year * 16 + (c.date.month + 1)) * 32 + c.date.day) * 32 +
      c.hour) * 64 + c.min) * 32 + c.sec / 2 := by
  have hmonth := c.date.month_lt
  have hday := c.date.day_le
  have hlen := monthLength_le c.date.year c.date.month
  have hhour := c.hour.isLt
  have hmin := c.min.isLt
  have hsec := c.sec.isLt
  have hmon : (c.date.month : ℤ) + 1 = ((c.date.month + 1 : ℕ) : ℤ) := by omega
  have hs : dword (c.sec.val : ℤ) = c.sec.val := by
    unfold dword
    omega
  unfold getFattime
  simp only [h, ofClock]
  rw [shl_dword_year, hmon, shl_dword (by omega), shl_dword (by omega), shl_dword (by omega),
    shl_dword (by omega), hs, pack_eq (by omega) (by omega) (by omega) (by omega) (by omega)]

/-- The two words that are read back. -/
theorem ldWord_stDword (v : ℕ) :
    ldWord (stDword v) 0 = v % 65536 ∧ ldWord (stDword v) 2 = v / 65536 % 65536 := by
  have hword (b a : ℕ) (ha : a < 256) : b <<< 8 ||| a = b * 2 ^ 8 + a := by
    rw [Nat.shiftLeft_eq, or_shl ha]
  constructor
  · simp only [ldWord, stDword, List.getD_cons_zero, List.getD_cons_succ]
    rw [hword _ _ (by omega), Nat.shiftRight_eq_div_pow]
    omega
  · simp only [ldWord, stDword, List.getD_cons_zero, List.getD_cons_succ]
    rw [hword _ _ (by omega)]
    simp only [Nat.shiftRight_eq_div_pow]
    omega

/-- **The fields that come back**: the year modulo 128, the even second. -/
theorem statTm_getFattime {n : ℤ} (h : gmtimeR n = ofClock c) :
    statTm (ldWord (stDword (getFattime n)) 2) (ldWord (stDword (getFattime n)) 0) =
      { sec := ((c.sec / 2 * 2 : ℕ) : ℤ), min := c.min.val, hour := c.hour.val
        mday := c.date.day, mon := c.date.month
        year := ((entryYear c.date.year + 1980 : ℕ) : ℤ) - 1900, wday := 0, yday := 0
        isdst := 0 } := by
  have hyear : entryYear c.date.year < 128 := Nat.mod_lt _ (by omega)
  have hmonth := c.date.month_lt
  have hday := c.date.day_le
  have hlen := monthLength_le c.date.year c.date.month
  have hhour := c.hour.isLt
  have hmin := c.min.isLt
  have hsec := c.sec.isLt
  have h5 (x : ℕ) : x &&& 0x1F = x % 32 := Nat.and_two_pow_sub_one_eq_mod x 5
  have h6 (x : ℕ) : x &&& 0x3F = x % 64 := Nat.and_two_pow_sub_one_eq_mod x 6
  have h4 (x : ℕ) : x &&& 0x0F = x % 16 := Nat.and_two_pow_sub_one_eq_mod x 4
  have h7 (x : ℕ) : x &&& 0x7F = x % 128 := Nat.and_two_pow_sub_one_eq_mod x 7
  obtain ⟨htime, hdate⟩ := ldWord_stDword (getFattime n)
  rw [htime, hdate, getFattime_eq h]
  simp only [statTm, h4, h5, h6, h7, Nat.shiftRight_eq_div_pow]
  refine Tm.ext ?_ ?_ ?_ ?_ ?_ ?_ rfl rfl rfl
  · simp only
    omega
  · simp only
    omega
  · simp only
    omega
  · simp only
    omega
  · simp only
    omega
  · simp only
    omega

/-! ## The time that comes back -/

/-- A day of a year, also one that it does not have, lies in the year. -/
theorem monthStart_lt (y : ℕ) {m : ℕ} (h : m < 12) : monthStart y m < yearLength y := by
  have hlen := monthLength_pos y m
  have hmono := monthStart_mono y (show m + 1 ≤ 12 from h)
  rw [monthStart_succ, monthStart_twelve] at hmono
  omega

/-- Months of different years begin on different days. -/
theorem start_inj {y y' m : ℕ} (hy : 1970 ≤ y) (hy' : 1970 ≤ y') (hm : m < 12)
    (h : yearStart 1970 y + monthStart y m = yearStart 1970 y' + monthStart y' m) : y = y' := by
  have hlt := monthStart_lt y hm
  have hlt' := monthStart_lt y' hm
  rcases Nat.lt_trichotomy y y' with hyy | hyy | hyy
  · have hstart := yearStart_mono 1970 (show y + 1 ≤ y' from hyy)
    rw [yearStart_succ hy] at hstart
    omega
  · exact hyy
  · have hstart := yearStart_mono 1970 (show y' + 1 ≤ y from hyy)
    rw [yearStart_succ hy'] at hstart
    omega

/-- The seconds of what a clock shows, by the month its date lies in. -/
theorem seconds_eq (c : Clock) :
    (c.seconds 1970 : ℤ) =
      (((yearStart 1970 c.date.year + monthStart c.date.year c.date.month +
        ((c.date.day : ℤ) - 1)) * 24 + c.hour.val) * 60 + c.min.val) * 60 + c.sec.val := by
  have hpos := c.date.day_pos
  simp only [Clock.seconds, Date.number, Date.dayOfYear]
  omega

/-- The time that comes back, in the entry's year: its month begins there,
and the day counts on from its beginning. -/
theorem stMtime_eq {n : ℤ} (h : gmtimeR n = ofClock c) :
    stMtime (stDword (getFattime n)) =
      (((yearStart 1970 (entryYear c.date.year + 1980) +
        monthStart (entryYear c.date.year + 1980) c.date.month + ((c.date.day : ℤ) - 1)) * 24 +
          c.hour.val) * 60 + c.min.val) * 60 + ((c.sec / 2 * 2 : ℕ) : ℤ) := by
  have hsec := c.sec.isLt
  rw [stMtime, statTm_getFattime h]
  exact timegm_of_fields (by omega) rfl rfl rfl rfl rfl rfl (by omega)

/-- **A file gets its time back**, to the even second, exactly in the years
that an entry has room for. -/
theorem stMtime_getFattime_iff (n : ℕ) :
    stMtime (stDword (getFattime n)) = n - n % 2 ↔
      80 ≤ (gmtimeR n).year ∧ (gmtimeR n).year ≤ 207 := by
  obtain ⟨c, h, hyear, hseconds, hgm⟩ := exists_clock n
  have hsec := c.sec.isLt
  have hn := seconds_eq c
  rw [hseconds] at hn
  rw [stMtime_eq h, hgm]
  constructor
  · intro heq
    have hstart : yearStart 1970 (entryYear c.date.year + 1980) +
        monthStart (entryYear c.date.year + 1980) c.date.month =
          yearStart 1970 c.date.year + monthStart c.date.year c.date.month := by omega
    have hsame := start_inj (by omega) hyear c.date.month_lt hstart
    unfold entryYear at hsame
    omega
  · rintro ⟨hlow, hhigh⟩
    have hsame : entryYear c.date.year + 1980 = c.date.year := by
      unfold entryYear
      omega
    rw [hsame]
    omega

end Time

end RtSpark
