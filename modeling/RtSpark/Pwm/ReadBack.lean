import RtSpark.Pwm.Registers
import Mathlib.Data.Rat.Cast.Order
import Mathlib.Algebra.Order.Field.Basic
import Mathlib.Tactic.Linarith
import Mathlib.Tactic.Ring
/-!
# What the PWM getter reads back

`drv_pwm_set` rounds a time down to ticks and the ticks down to the
prescaler, and `drv_pwm_get` rounds down once more, so a time is read back
short by no more than a prescaled tick, a tick and a nanosecond
(`decode_bounds`). Two things go beyond that: the getter's product has
thirty-two bits, and the least pulse is longer than a short request.
-/

namespace RtSpark

namespace Pwm

/-! ## Rounding -/

/-- The nanoseconds of a number of prescaled ticks. -/
def decode (mhz psc ticks : ℕ) : ℕ := ticks * psc * 1000 / mhz

/-- The prescaled ticks of a number of nanoseconds. -/
def encode (mhz psc ns : ℕ) : ℕ := ns * mhz / 1000 / psc

section Rounding

variable {mhz psc : ℕ}

theorem decode_mono (mhz psc : ℕ) {m n : ℕ} (h : m ≤ n) : decode mhz psc m ≤ decode mhz psc n :=
  Nat.div_le_div_right (Nat.mul_le_mul_right _ (Nat.mul_le_mul_right _ h))

theorem encode_mono (mhz psc : ℕ) {m n : ℕ} (h : m ≤ n) : encode mhz psc m ≤ encode mhz psc n :=
  Nat.div_le_div_right (Nat.div_le_div_right (Nat.mul_le_mul_right _ h))

/-- **The error of a time that is written and read back.** -/
theorem decode_bounds (hmhz : 0 < mhz) (hpsc : 0 < psc) (ns : ℕ) :
    decode mhz psc (encode mhz psc ns) ≤ ns ∧
      ns * mhz < decode mhz psc (encode mhz psc ns) * mhz + (psc * 1000 + mhz) := by
  have hticks := Nat.div_add_mod (ns * mhz) 1000
  have hticks' := Nat.mod_lt (ns * mhz) (show 0 < 1000 by decide)
  have hscaled := Nat.div_add_mod (ns * mhz / 1000) psc
  have hscaled' := Nat.mod_lt (ns * mhz / 1000) hpsc
  have hns := Nat.div_add_mod (encode mhz psc ns * psc * 1000) mhz
  have hns' := Nat.mod_lt (encode mhz psc ns * psc * 1000) hmhz
  change psc * encode mhz psc ns + _ = _ at hscaled
  change mhz * decode mhz psc (encode mhz psc ns) + _ = _ at hns
  rw [Nat.mul_comm psc] at hscaled
  rw [Nat.mul_comm mhz] at hns
  constructor
  · -- the product only lost on the way
    have hle : decode mhz psc (encode mhz psc ns) * mhz ≤ ns * mhz := by omega
    exact Nat.le_of_mul_le_mul_right hle hmhz
  · omega

/-- Two ticks are no longer than what comes to two ticks or more. -/
theorem two_ticks_le {ns : ℕ} (hmhz : 0 < mhz) (hpsc : 0 < psc)
    (h : 2 ≤ encode mhz psc ns) : 2 * psc * 1000 / mhz ≤ ns :=
  (decode_mono mhz psc h).trans (decode_bounds hmhz hpsc ns).1

/-- The tolerance the rounding needs, in nanoseconds. -/
def tolerance (mhz psc : ℕ) : ℚ := psc * 1000 / mhz + 1000 / mhz + 1

/-- The tolerance in whole nanoseconds. -/
theorem le_add_tolerance_iff {m n : ℕ} (hmhz : 0 < mhz) :
    (m : ℚ) ≤ n + tolerance mhz psc ↔ m ≤ n + (psc * 1000 + 1000) / mhz + 1 := by
  have hpos : (0 : ℚ) < mhz := by exact_mod_cast hmhz
  have hne : (mhz : ℚ) ≠ 0 := hpos.ne'
  have hsum : tolerance mhz psc = ((psc * 1000 + 1000 : ℕ) : ℚ) / mhz + 1 := by
    rw [tolerance, ← add_div]
    push_cast
    rfl
  have hcast : (m : ℚ) ≤ n + tolerance mhz psc ↔
      (m : ℚ) * mhz ≤ (n + 1) * mhz + ((psc * 1000 + 1000 : ℕ) : ℚ) := by
    rw [hsum, ← mul_le_mul_iff_left₀ hpos, add_mul, add_mul, div_mul_cancel₀ _ hne, one_mul,
      add_mul, one_mul]
    constructor <;> intro h <;> linarith
  have hnat : m ≤ n + (psc * 1000 + 1000) / mhz + 1 ↔
      m * mhz ≤ (n + 1) * mhz + (psc * 1000 + 1000) := by
    have hdiv : m - (n + 1) ≤ (psc * 1000 + 1000) / mhz ↔
        (m - (n + 1)) * mhz ≤ psc * 1000 + 1000 := Nat.le_div_iff_mul_le hmhz
    rw [Nat.sub_mul] at hdiv
    generalize (psc * 1000 + 1000) / mhz = q at hdiv ⊢
    omega
  rw [hcast, hnat]
  exact_mod_cast Iff.rfl

end Rounding

/-! ## The registers of a legal request -/

variable {timClock : ℕ} {c : PwmConfiguration}

/-- The ticks of the timer in a microsecond. -/
def mhz (timClock : ℕ) : ℕ := timClock / 1000000

/-- A pulse within its period, and neither below its least number of
ticks. -/
structure Legal (timClock : ℕ) (c : PwmConfiguration) : Prop where
  ordered : c.pulse.toNat ≤ c.period.toNat
  period : minPeriod ≤ clockTicks timClock c
  pulse : minPulse ≤ c.pulse.toNat * mhz timClock / 1000

/-- The prescaler, plus one, that a request is given. -/
def requestPsc (timClock : ℕ) (c : PwmConfiguration) : ℕ := prescale (clockTicks timClock c)

theorem requestPsc_pos (timClock : ℕ) (c : PwmConfiguration) : 0 < requestPsc timClock c :=
  Nat.succ_pos _

theorem periodTicks_of_legal (hl : Legal timClock c) :
    periodTicks (clockTicks timClock c) =
      encode (mhz timClock) (requestPsc timClock c) c.period.toNat := by
  have hleast := hl.period
  have hmin : minPeriod = 3 := rfl
  have hmax : maxPeriod = 65535 := rfl
  refine max_eq_right ?_
  rw [Nat.le_div_iff_mul_le (show 0 < prescale (clockTicks timClock c) from Nat.succ_pos _),
    prescale, hmin, hmax]
  omega

/-- The upper bound on a pulse does nothing where it fits its period. -/
theorem clampPulse_of_le {period pulse : ℕ} (hle : pulse ≤ period) :
    clampPulse period pulse = max minPulse pulse := by
  unfold clampPulse
  split_ifs <;> omega

theorem compareTicks_of_legal (h : TimerClock timClock) (hl : Legal timClock c) :
    compareTicks timClock c + 1 =
      max minPulse (encode (mhz timClock) (requestPsc timClock c) c.pulse.toNat) := by
  have hpulse : u64 (c.pulse.toNat * (timClock / 1000000)) / prescale (clockTicks timClock c) /
      1000 = encode (mhz timClock) (requestPsc timClock c) c.pulse.toNat := by
    have hns : c.pulse.toNat < 2 ^ 32 := c.pulse.toNat_lt
    have hprod := Nat.mul_le_mul hns.le h.mhz.2
    rw [u64_of_lt (by omega), Nat.div_div_eq_div_mul, Nat.mul_comm (prescale _),
      ← Nat.div_div_eq_div_mul]
    rfl
  have hle := encode_mono (mhz timClock) (requestPsc timClock c) hl.ordered
  rw [← periodTicks_of_legal hl] at hle
  have hperiod := periodTicks_lt (clockTicks timClock c)
  have hleast := le_periodTicks (clockTicks timClock c)
  have hmin : minPeriod = 3 := rfl
  have hmin' : minPulse = 2 := rfl
  rw [compareTicks, hpulse, u32_of_lt (show encode _ _ _ < 2 ^ 32 by omega),
    clampPulse_of_le hle, u32_of_lt (by omega)]
  omega

/-! ## The products -/

/-- The products the two functions make of a request and of the registers
it leaves. -/
structure NoTruncation (timClock : ℕ) (htim : Tim) (c : PwmConfiguration) : Prop where
  setPeriod : c.period.toNat * mhz timClock < 2 ^ 64
  setPulse : c.pulse.toNat * mhz timClock < 2 ^ 64
  getPeriod : (htim.arr + 1) * (htim.psc + 1) * 1000 < 2 ^ 32
  getPulse : (htim.ccr (compareReg c) + 1) * (htim.psc + 1) * 1000 < 2 ^ 32

/-- **Where the getter's product leaves thirty-two bits.** -/
theorem getPeriod_fits_iff (ticks : ℕ) :
    ticks / prescale ticks * prescale ticks * 1000 < 2 ^ 32 ↔ ticks < 4295016 := by
  have hdiv := Nat.div_add_mod ticks (prescale ticks)
  have hmod := Nat.mod_lt ticks (show 0 < prescale ticks from Nat.succ_pos _)
  have hpsc : prescale ticks = ticks / 65535 + 1 := rfl
  rw [Nat.mul_comm] at hdiv
  rcases lt_trichotomy (ticks / 65535) 65 with hlow | hedge | hhigh
  · omega
  · -- the one prescaler with requests on both sides
    rw [hedge] at hpsc
    rw [hpsc] at hdiv hmod ⊢
    omega
  · omega

theorem ticksToNs_eq {mhz ticks psc : ℕ} (hmhz : 0 < mhz)
    (hfit : (ticks + 1) * (psc + 1) * 1000 < 2 ^ 32) :
    ticksToNs mhz ticks psc = some (decode mhz (psc + 1) (ticks + 1)) := by
  have hticks : ticks + 1 ≤ (ticks + 1) * (psc + 1) := Nat.le_mul_of_pos_right _ (Nat.succ_pos _)
  have hpsc : psc + 1 ≤ (ticks + 1) * (psc + 1) := Nat.le_mul_of_pos_left _ (Nat.succ_pos _)
  rw [ticksToNs, u32_of_lt (show ticks + 1 < 2 ^ 32 by omega),
    u32_of_lt (show psc + 1 < 2 ^ 32 by omega),
    u32_of_lt (show (ticks + 1) * (psc + 1) < 2 ^ 32 by omega), u32_of_lt hfit, udiv_of_pos hmhz]
  rfl

theorem decode_lt {mhz psc ticks : ℕ} (hfit : ticks * psc * 1000 < 2 ^ 32) :
    decode mhz psc ticks < 2 ^ 32 :=
  (Nat.div_le_self _ _).trans_lt hfit

/-- What the getter reads where nothing is truncated. -/
theorem drvPwmGet_eq (h : TimerClock timClock) {t : Tim} (hn : NoTruncation timClock t c) :
    ∃ c', drvPwmGet timClock timClockdivisionDiv1 t c = some c' ∧
      c'.period.toNat = decode (mhz timClock) (t.psc + 1) (t.arr + 1) ∧
      c'.pulse.toNat = decode (mhz timClock) (t.psc + 1) (t.ccr (compareReg c) + 1) := by
  refine ⟨⟨c.channel, UInt32.ofNat (decode (mhz timClock) (t.psc + 1) (t.arr + 1)),
    UInt32.ofNat (decode (mhz timClock) (t.psc + 1) (t.ccr (compareReg c) + 1))⟩, ?_, ?_, ?_⟩
  · have hperiod := ticksToNs_eq h.mhz.1 hn.getPeriod
    have hpulse := ticksToNs_eq h.mhz.1 hn.getPulse
    have hdiv2 : timClockdivisionDiv1 ≠ timClockdivisionDiv2 := by decide
    have hdiv4 : timClockdivisionDiv1 ≠ timClockdivisionDiv4 := by decide
    simp only [drvPwmGet, if_neg hdiv2, if_neg hdiv4, hperiod, hpulse, Option.bind_eq_bind,
      Option.bind_some, Option.pure_def]
    rfl
  · exact UInt32.toNat_ofNat_of_lt' (decode_lt hn.getPeriod)
  · exact UInt32.toNat_ofNat_of_lt' (decode_lt hn.getPulse)

/-! ## Set, then get -/

/-- A request that the getter reads back: the period at most as long and
within the tolerance, the pulse within it, and no product truncated. -/
def ReadsBack (timClock : ℕ) (htim : Tim) (c : PwmConfiguration) : Prop :=
  ∃ t c', drvPwmSet timClock htim c = some t ∧
    drvPwmGet timClock timClockdivisionDiv1 t c = some c' ∧
    NoTruncation timClock t c ∧
    (c.period.toNat : ℚ) - tolerance (mhz timClock) (t.psc + 1) ≤ c'.period.toNat ∧
    c'.period.toNat ≤ c.period.toNat ∧
    |(c'.pulse.toNat : ℚ) - c.pulse.toNat| ≤ tolerance (mhz timClock) (t.psc + 1)

/-- A time written and read back is within the tolerance. -/
theorem le_decode_add_tolerance {mhz psc : ℕ} (hmhz : 0 < mhz) (hpsc : 0 < psc) (ns : ℕ) :
    (ns : ℚ) ≤ decode mhz psc (encode mhz psc ns) + tolerance mhz psc := by
  rw [le_add_tolerance_iff hmhz]
  obtain ⟨-, hlt⟩ := decode_bounds hmhz hpsc ns
  have hquot : psc * 1000 < (psc * 1000 + 1000) / mhz * mhz + mhz := by
    have hdiv := Nat.div_add_mod (psc * 1000 + 1000) mhz
    have hmod := Nat.mod_lt (psc * 1000 + 1000) hmhz
    rw [Nat.mul_comm] at hdiv
    omega
  by_contra hgt
  have hmul : (decode mhz psc (encode mhz psc ns) + (psc * 1000 + 1000) / mhz + 2) * mhz ≤
      ns * mhz := Nat.mul_le_mul_right _ (by omega)
  rw [Nat.add_mul, Nat.add_mul] at hmul
  omega

/-- The least pulse is read back within the tolerance, or the request is
long enough not to meet it. -/
theorem pulse_within_iff {mhz psc : ℕ} (hmhz : 0 < mhz) (hpsc : 0 < psc) (ns : ℕ) :
    |(decode mhz psc (max minPulse (encode mhz psc ns)) : ℚ) - ns| ≤ tolerance mhz psc ↔
      minPulse * psc * 1000 / mhz ≤ ns + (psc * 1000 + 1000) / mhz + 1 := by
  have hlow : (ns : ℚ) ≤ decode mhz psc (max minPulse (encode mhz psc ns)) + tolerance mhz psc := by
    have hmono : decode mhz psc (encode mhz psc ns) ≤
        decode mhz psc (max minPulse (encode mhz psc ns)) := decode_mono _ _ (le_max_right _ _)
    have hcast : (decode mhz psc (encode mhz psc ns) : ℚ) ≤
        decode mhz psc (max minPulse (encode mhz psc ns)) := by exact_mod_cast hmono
    have := le_decode_add_tolerance hmhz hpsc ns
    linarith
  have habs : |(decode mhz psc (max minPulse (encode mhz psc ns)) : ℚ) - ns| ≤ tolerance mhz psc ↔
      (decode mhz psc (max minPulse (encode mhz psc ns)) : ℚ) ≤ ns + tolerance mhz psc := by
    rw [abs_le]
    constructor
    · rintro ⟨-, h⟩
      linarith
    · intro h
      exact ⟨by linarith, by linarith⟩
  rw [habs, le_add_tolerance_iff hmhz]
  rcases Nat.le_total minPulse (encode mhz psc ns) with hle | hge
  · -- neither side is ever at risk
    have htwo : minPulse * psc * 1000 / mhz ≤ ns := two_ticks_le hmhz hpsc hle
    have hback := (decode_bounds hmhz hpsc ns).1
    rw [max_eq_right hle]
    exact ⟨fun _ => Nat.le_succ_of_le (Nat.le_add_right_of_le htwo),
      fun _ => Nat.le_succ_of_le (Nat.le_add_right_of_le hback)⟩
  · rw [max_eq_left hge]
    rfl

/-- What a legal request leaves in the registers. -/
theorem drvPwmSet_registers (h : TimerClock timClock) (htim : Tim) (hl : Legal timClock c) :
    ∃ t, drvPwmSet timClock htim c = some t ∧ t.psc + 1 = requestPsc timClock c ∧
      t.arr + 1 = encode (mhz timClock) (requestPsc timClock c) c.period.toNat ∧
      t.ccr (compareReg c) + 1 =
        max minPulse (encode (mhz timClock) (requestPsc timClock c) c.pulse.toNat) ∧
      t.ccr (compareReg c) ≤ t.arr := by
  refine ⟨_, drvPwmSet_eq h htim c, Nat.sub_add_cancel (requestPsc_pos timClock c), ?_, ?_, ?_⟩
  · have hleast := le_periodTicks (clockTicks timClock c)
    have hmin : minPeriod = 3 := rfl
    rw [← periodTicks_of_legal hl]
    exact Nat.sub_add_cancel (by omega)
  · rw [← compareTicks_of_legal h hl]
    simp only [Function.update_self]
  · have hlt := compareTicks_lt timClock c
    simp only [Function.update_self]
    omega

/-- All products fit where that of the getter for the period does. -/
theorem noTruncation_iff (h : TimerClock timClock) {t : Tim} (hle : t.ccr (compareReg c) ≤ t.arr) :
    NoTruncation timClock t c ↔ (t.arr + 1) * (t.psc + 1) * 1000 < 2 ^ 32 := by
  refine ⟨fun hn => hn.getPeriod, fun hfit => ?_⟩
  have hperiod : c.period.toNat < 2 ^ 32 := c.period.toNat_lt
  have hpulse : c.pulse.toNat < 2 ^ 32 := c.pulse.toNat_lt
  have hmhz : mhz timClock ≤ 168 := h.mhz.2
  have hprod := Nat.mul_le_mul hperiod.le hmhz
  have hprod' := Nat.mul_le_mul hpulse.le hmhz
  have hlt := Nat.mul_le_mul_right 1000
    (Nat.mul_le_mul_right (t.psc + 1) (Nat.succ_le_succ hle))
  exact ⟨by omega, by omega, hfit, hlt.trans_lt hfit⟩

/-- The getter's product, in the request's own terms. -/
theorem period_fits_iff (timClock : ℕ) (c : PwmConfiguration) :
    encode (mhz timClock) (requestPsc timClock c) c.period.toNat * requestPsc timClock c * 1000 <
        2 ^ 32 ↔ c.period.toNat * mhz timClock < 4295016000 := by
  have hticks : clockTicks timClock c = c.period.toNat * mhz timClock / 1000 := rfl
  change clockTicks timClock c / prescale (clockTicks timClock c) *
    prescale (clockTicks timClock c) * 1000 < 2 ^ 32 ↔ _
  rw [getPeriod_fits_iff, hticks]
  omega

/-- **What is read back**: the truncation spares every period below 4295016
ticks, and the least pulse every request near enough to it. -/
theorem drvPwmGet_readsBack_iff (h : TimerClock timClock) (htim : Tim) (hl : Legal timClock c) :
    ReadsBack timClock htim c ↔
      c.period.toNat * mhz timClock < 4295016000 ∧
        minPulse * requestPsc timClock c * 1000 / mhz timClock ≤
          c.pulse.toNat + (requestPsc timClock c * 1000 + 1000) / mhz timClock + 1 := by
  have hmhz : 0 < mhz timClock := h.mhz.1
  have hpsc := requestPsc_pos timClock c
  obtain ⟨t, hset, htpsc, htarr, htccr, hle⟩ := drvPwmSet_registers h htim hl
  have hfits := noTruncation_iff h hle
  rw [htarr, htpsc, period_fits_iff] at hfits
  rw [← hfits, ← pulse_within_iff hmhz hpsc]
  constructor
  · rintro ⟨t', c', hset', hget, hn, -, -, hpulse⟩
    obtain rfl := Option.some.inj (hset.symm.trans hset')
    obtain ⟨c'', hget', -, hpulse'⟩ := drvPwmGet_eq h hn
    obtain rfl := Option.some.inj (hget.symm.trans hget')
    rw [hpulse', htpsc, htccr] at hpulse
    exact ⟨hn, hpulse⟩
  · rintro ⟨hn, hpulse⟩
    obtain ⟨c', hget, hperiod', hpulse'⟩ := drvPwmGet_eq h hn
    refine ⟨t, c', hset, hget, hn, ?_, ?_, ?_⟩
    · rw [hperiod', htpsc, htarr]
      have := le_decode_add_tolerance hmhz hpsc c.period.toNat
      linarith
    · rw [hperiod', htpsc, htarr]
      exact (decode_bounds hmhz hpsc _).1
    · rw [hpulse', htpsc, htccr]
      exact hpulse

/-- A millisecond at half duty. -/
theorem drvPwmGet_readsBack_iff_millisecond :
    TimerClock 84000000 ∧ Legal 84000000 ⟨1, 1000000, 500000⟩ ∧
      (ReadsBack 84000000 resetTim ⟨1, 1000000, 500000⟩ ↔
        (1000000 : UInt32).toNat * mhz 84000000 < 4295016000 ∧
          minPulse * requestPsc 84000000 ⟨1, 1000000, 500000⟩ * 1000 / mhz 84000000 ≤
            (500000 : UInt32).toNat +
              (requestPsc 84000000 ⟨1, 1000000, 500000⟩ * 1000 + 1000) / mhz 84000000 + 1) :=
  ⟨Or.inl rfl, ⟨by decide, by decide, by decide⟩,
    drvPwmGet_readsBack_iff (Or.inl rfl) resetTim ⟨by decide, by decide, by decide⟩⟩

/-- **A tenth of a second does not fit**: it is read back as less than half
of it. -/
theorem drvPwmGet_not_readsBack :
    Legal 84000000 ⟨1, 100000000, 50000000⟩ ∧
      ¬ ReadsBack 84000000 resetTim ⟨1, 100000000, 50000000⟩ := by
  refine ⟨⟨by decide, by decide, by decide⟩, ?_⟩
  rintro ⟨t, c', hset, -, hn, -⟩
  rw [drvPwmSet_eq (Or.inl rfl)] at hset
  obtain rfl := Option.some.inj hset
  exact absurd hn.getPeriod (by decide)

end Pwm

end RtSpark
