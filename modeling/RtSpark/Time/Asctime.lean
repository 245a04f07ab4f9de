import RtSpark.Time.Timegm
/-!
# The text of a time

`asctime_r` writes a time as 26 bytes, each field at a place of its own.
Up to the year 9999 two digits are written for every pair of digits there
are, so the text tells the times apart (`ctimeR_injective`).
-/

namespace RtSpark

namespace Time

open Calendar

variable {c c' : Clock} {i j : ℕ}

/-! ## The fields in the text -/

/-- A digit's byte. -/
def digit (i : ℕ) : UInt8 := UInt8.ofNat (i + 0x30)

theorem digit_inj (hi : i < 10) (hj : j < 10) (h : digit i = digit j) : i = j := by
  have htoNat := congrArg UInt8.toNat h
  unfold digit at htoNat
  rw [UInt8.toNat_ofNat_of_lt' (show i + 0x30 < 256 by omega),
    UInt8.toNat_ofNat_of_lt' (show j + 0x30 < 256 by omega)] at htoNat
  omega

theorem ofInt_natCast (i : ℕ) : UInt8.ofInt (i : ℤ) = UInt8.ofNat i := by
  have hmod : ((i : ℤ) % 2 ^ 8).toNat = i % 2 ^ 8 := by omega
  rw [UInt8.ofInt, hmod, UInt8.ofNat_mod_size]

theorem num2str_natCast (i : ℕ) : num2str i = [digit (i / 10), digit (i % 10)] := by
  have htens : Int.tdiv (i : ℤ) 10 + 0x30 = ((i / 10 + 0x30 : ℕ) : ℤ) := rfl
  have hunits : Int.tmod (i : ℤ) 10 + 0x30 = ((i % 10 + 0x30 : ℕ) : ℤ) := rfl
  rw [num2str, htens, hunits, ofInt_natCast, ofInt_natCast]
  rfl

/-- Two digits tell the numbers below a hundred apart. -/
theorem digits_inj (hi : i < 100) (hj : j < 100) (h10 : digit (i / 10) = digit (j / 10))
    (h1 : digit (i % 10) = digit (j % 10)) : i = j := by
  have := digit_inj (by omega) (by omega) h10
  have := digit_inj (by omega) (by omega) h1
  omega

/-- The first byte of the day of the month: a blank in place of a zero. -/
def lead (i : ℕ) : UInt8 := if digit (i / 10) = 0x30 then 0x20 else digit (i / 10)

theorem lead_inj (hi : i < 100) (hj : j < 100) (h : lead i = lead j) : i / 10 = j / 10 := by
  have hall : ∀ a < 10, ∀ b < 10,
      (if digit a = 0x30 then 0x20 else digit a) = (if digit b = 0x30 then 0x20 else digit b) →
        a = b := by
    decide
  exact hall (i / 10) (by omega) (j / 10) (by omega) h

/-- The names of the months differ. -/
theorem months_inj (hi : i < 12) (hj : j < 12)
    (h : int4 months ((i : ℤ) * 4) = int4 months ((j : ℤ) * 4)) : i = j := by
  have hall : ∀ i < 12, ∀ j < 12,
      int4 months (((i : ℕ) : ℤ) * 4) = int4 months (((j : ℕ) : ℤ) * 4) → i = j := by
    decide
  exact hall i hi j hj h

/-- Where the fields are. -/
theorem ascRest_eq {d0 d1 d2 d3 m0 m1 m2 m3 : UInt8} (c : Clock) :
    ascRest (ofClock c) c.date.year
        (store (store (List.replicate 26 0) 0 [d0, d1, d2, d3]) 4 [m0, m1, m2, m3]) =
      [d0, d1, d2, d3, m0, m1, m2, m3, lead c.date.day, digit (c.date.day % 10), 0x20,
        digit (c.hour.val / 10), digit (c.hour.val % 10), 0x3A,
        digit (c.min.val / 10), digit (c.min.val % 10), 0x3A,
        digit (c.sec.val / 10), digit (c.sec.val % 10), 0x20,
        digit (c.date.year / 100 / 10), digit (c.date.year / 100 % 10),
        digit (c.date.year % 100 / 10), digit (c.date.year % 100 % 10), 0x0A, 0] := by
  have hcentury : Int.tdiv (c.date.year : ℤ) 100 = (c.date.year / 100 : ℕ) := rfl
  have hrest : Int.tmod (c.date.year : ℤ) 100 = (c.date.year % 100 : ℕ) := rfl
  unfold ascRest
  simp only [ofClock, hcentury, hrest, num2str_natCast]
  have hget : List.getD (store (store (store (List.replicate 26 (0 : UInt8)) 0 [d0, d1, d2, d3]) 4
      [m0, m1, m2, m3]) 8 [digit (c.date.day / 10), digit (c.date.day % 10)]) 8 0 =
        digit (c.date.day / 10) := rfl
  rw [hget]
  by_cases h : digit (c.date.day / 10) = 0x30
  · rw [lead, if_pos h, if_pos h]
    simp [store]
  · rw [lead, if_neg h, if_neg h]
    simp [store]

/-- The bytes that are written. -/
theorem asctimeR_ofClock (c : Clock) : asctimeR (ofClock c) =
    int4 days ((c.weekday.val : ℤ) * 4) ++ int4 months ((c.date.month : ℤ) * 4) ++
      [lead c.date.day, digit (c.date.day % 10), 0x20,
        digit (c.hour.val / 10), digit (c.hour.val % 10), 0x3A,
        digit (c.min.val / 10), digit (c.min.val % 10), 0x3A,
        digit (c.sec.val / 10), digit (c.sec.val % 10), 0x20,
        digit (c.date.year / 100 / 10), digit (c.date.year / 100 % 10),
        digit (c.date.year % 100 / 10), digit (c.date.year % 100 % 10), 0x0A, 0] := by
  have hdays : days.length = 28 := by decide
  have hmonths : months.length = 48 := by decide
  have hw := c.weekday.isLt
  have hm := c.date.month_lt
  have hyear : (ofClock c).year + 1900 = (c.date.year : ℤ) := by
    simp only [ofClock]
    omega
  unfold asctimeR
  rw [hdays, hmonths, if_neg (by simp only [ofClock]; omega), hyear]
  exact ascRest_eq c

/-- The text of a date before the year 10000 tells it apart. -/
theorem asctimeR_inj (hy : c.date.year < 10000) (hy' : c'.date.year < 10000)
    (h : asctimeR (ofClock c) = asctimeR (ofClock c')) :
    c.date = c'.date ∧ c.hour = c'.hour ∧ c.min = c'.min ∧ c.sec = c'.sec := by
  have hday : c.date.day < 100 := by
    have := c.date.day_le
    have := monthLength_le c.date.year c.date.month
    omega
  have hday' : c'.date.day < 100 := by
    have := c'.date.day_le
    have := monthLength_le c'.date.year c'.date.month
    omega
  have hhour := c.hour.isLt
  have hhour' := c'.hour.isLt
  have hmin := c.min.isLt
  have hmin' := c'.min.isLt
  have hsec := c.sec.isLt
  have hsec' := c'.sec.isLt
  rw [asctimeR_ofClock, asctimeR_ofClock] at h
  obtain ⟨hnames, hfields⟩ := List.append_inj h rfl
  obtain ⟨-, hmonth⟩ := List.append_inj hnames rfl
  simp only [List.cons.injEq, and_true, true_and] at hfields
  obtain ⟨hd, hd', hh, hh', hmi, hmi', hs, hs', hc, hc', hyr, hyr'⟩ := hfields
  have hmon := months_inj c.date.month_lt c'.date.month_lt hmonth
  have hten := lead_inj hday hday' hd
  have hunit := digit_inj (by omega) (by omega) hd'
  have hcentury := digits_inj (by omega) (by omega) hc hc'
  have hrest := digits_inj (by omega) (by omega) hyr hyr'
  refine ⟨Date.ext ?_ hmon ?_, Fin.ext ?_, Fin.ext ?_, Fin.ext ?_⟩
  · omega
  · omega
  · exact digits_inj (by omega) (by omega) hh hh'
  · exact digits_inj (by omega) (by omega) hmi hmi'
  · exact digits_inj (by omega) (by omega) hs hs'

theorem digit_ne_zero (hi : i < 10) : digit i ≠ 0 := by
  have hall : ∀ i < 10, digit i ≠ 0 := by decide
  exact hall i hi

theorem lead_ne_zero (hi : i < 100) : lead i ≠ 0 := by
  unfold lead
  split
  · decide
  · exact digit_ne_zero (by omega)

/-- The text is a line of 24 bytes, none of them NUL. -/
theorem asctimeR_string (hy : c.date.year < 10000) :
    ∃ s : List UInt8, asctimeR (ofClock c) = s ++ [0x0A, 0] ∧ s.length = 24 ∧ 0 ∉ s := by
  have hdays : ∀ w < 7, 0 ∉ int4 days (((w : ℕ) : ℤ) * 4) := by decide
  have hmonths : ∀ m < 12, 0 ∉ int4 months (((m : ℕ) : ℤ) * 4) := by decide
  have hday := c.date.day_le
  have hlen := monthLength_le c.date.year c.date.month
  have hhour := c.hour.isLt
  have hmin := c.min.isLt
  have hsec := c.sec.isLt
  refine ⟨int4 days ((c.weekday.val : ℤ) * 4) ++ int4 months ((c.date.month : ℤ) * 4) ++
      [lead c.date.day, digit (c.date.day % 10), 0x20,
        digit (c.hour.val / 10), digit (c.hour.val % 10), 0x3A,
        digit (c.min.val / 10), digit (c.min.val % 10), 0x3A,
        digit (c.sec.val / 10), digit (c.sec.val % 10), 0x20,
        digit (c.date.year / 100 / 10), digit (c.date.year / 100 % 10),
        digit (c.date.year % 100 / 10), digit (c.date.year % 100 % 10)], ?_, rfl, ?_⟩
  · rw [asctimeR_ofClock, List.append_assoc _ _ [0x0A, 0]]
    rfl
  · intro hmem
    rcases List.mem_append.1 hmem with hnames | hfields
    · rcases List.mem_append.1 hnames with h | h
      · exact hdays c.weekday.val c.weekday.isLt h
      · exact hmonths c.date.month c.date.month_lt h
    · have hlead := lead_ne_zero (i := c.date.day) (by omega)
      simp only [List.mem_cons, List.not_mem_nil, or_false] at hfields
      rcases hfields with h | h | h | h | h | h | h | h | h | h | h | h | h | h | h | h
      · exact hlead h.symm
      all_goals first | exact absurd h (by decide) | exact digit_ne_zero (by omega) h.symm

/-- **The text of local time** is one line of text, and up to the year 9999
it tells the time stamps apart. -/
theorem ctimeR_text {tz n n' : ℤ} (hn : 0 ≤ n + tz * 3600) (hn' : 0 ≤ n' + tz * 3600)
    (hy : (localtimeR tz n).year < 8100) (hy' : (localtimeR tz n').year < 8100) :
    (∃ s : List UInt8, ctimeR tz n = s ++ [0x0A, 0] ∧ s.length = 24 ∧ 0 ∉ s) ∧
      (ctimeR tz n = ctimeR tz n' ↔ n = n') := by
  obtain ⟨k, hk⟩ := Int.eq_ofNat_of_zero_le hn
  obtain ⟨k', hk'⟩ := Int.eq_ofNat_of_zero_le hn'
  obtain ⟨c, hgm, -, hsec, hcy⟩ := exists_clock k
  obtain ⟨c', hgm', -, hsec', hcy'⟩ := exists_clock k'
  have htm : localtimeR tz n = ofClock c := by
    rw [localtimeR, hk]
    exact hgm
  have htm' : localtimeR tz n' = ofClock c' := by
    rw [localtimeR, hk']
    exact hgm'
  have hlt : c.date.year < 10000 := by
    rw [localtimeR, hk, hcy] at hy
    omega
  have hlt' : c'.date.year < 10000 := by
    rw [localtimeR, hk', hcy'] at hy'
    omega
  unfold ctimeR
  rw [htm, htm']
  refine ⟨asctimeR_string hlt, fun h => ?_, fun h => ?_⟩
  · obtain ⟨hdate, hhour, hmin, hs⟩ := asctimeR_inj hlt hlt' h
    have hseconds : c.seconds 1970 = c'.seconds 1970 := by
      rw [Clock.seconds, Clock.seconds, hdate, hhour, hmin, hs]
    omega
  · rw [← htm, ← htm', h]

theorem ctimeR_text_new_year :
    (0 : ℤ) ≤ 0 + 8 * 3600 ∧ (localtimeR 8 0).year < 8100 ∧
      ((∃ s : List UInt8, ctimeR 8 0 = s ++ [0x0A, 0] ∧ s.length = 24 ∧ 0 ∉ s) ∧
        (ctimeR 8 0 = ctimeR 8 1 ↔ (0 : ℤ) = 1)) := by
  have hy : (localtimeR 8 0).year < 8100 := by decide
  have hy' : (localtimeR 8 1).year < 8100 := by decide
  exact ⟨by decide, hy, ctimeR_text (by decide) (by decide) hy hy'⟩

end Time

end RtSpark
