import RtSpark.Pwm.Model.DrvPwm
import RtSpark.Common.Run
import Mathlib.Tactic.NormNum
import Mathlib.Order.Lattice
/-!
# The registers of a PWM timer

`drv_pwm_set` writes all three registers from one configuration and they go
together. `drv_pwm_set_period` writes the reload and leaves the compare, and
`drv_pwm_set_pulse` holds a number of ticks against a number of nanoseconds,
so over a run the compare stays within the reload exactly on the calls that
`Fits` describes. No call divides by zero: the nanoseconds wrap in
thirty-two bits, but not to zero (`periodNs_pos`).
-/

namespace RtSpark

namespace Pwm

variable {timClock : ℕ} {htim htim' : Tim} {c : PwmConfiguration}

/-! ## Ticks -/

/-- The period of a configuration in ticks of the undivided clock. -/
def clockTicks (timClock : ℕ) (c : PwmConfiguration) : ℕ :=
  c.period.toNat * (timClock / 1000000) / 1000

/-- The divisor a number of clock ticks asks for. -/
def prescale (ticks : ℕ) : ℕ := ticks / maxPeriod + 1

/-- The ticks it then has, not below the least. -/
def periodTicks (ticks : ℕ) : ℕ := max minPeriod (ticks / prescale ticks)

/-- The period in nanoseconds that the registers stand for, as far as
thirty-two bits hold it. -/
def periodNs (timClock : ℕ) (htim : Tim) : ℕ :=
  (htim.arr + 1) * (htim.psc + 1) * 1000 % 2 ^ 32 / (timClock / 1000000)

/-- The ticks a pulse comes to in such a period. -/
def pulseTicks (timClock : ℕ) (htim : Tim) (c : PwmConfiguration) : ℕ :=
  c.pulse.toNat * (htim.arr + 1) / periodNs timClock htim % 2 ^ 32

/-- The prescaler brings every period within the reload register. -/
theorem periodTicks_lt (ticks : ℕ) : periodTicks ticks < 2 ^ 16 := by
  have hlt : ticks / prescale ticks < maxPeriod := by
    rw [Nat.div_lt_iff_lt_mul (show 0 < prescale ticks from Nat.succ_pos _), prescale,
      Nat.mul_add]
    have := Nat.div_add_mod ticks maxPeriod
    have := Nat.mod_lt ticks (show 0 < maxPeriod by decide)
    have := Nat.mul_comm maxPeriod (ticks / maxPeriod)
    omega
  have hmax : maxPeriod = 65535 := rfl
  have hmin : minPeriod = 3 := rfl
  unfold periodTicks
  omega

theorem le_periodTicks (ticks : ℕ) : minPeriod ≤ periodTicks ticks := le_max_left _ _

/-- The two clocks the timers run at. -/
def TimerClock (timClock : ℕ) : Prop := timClock = 84000000 ∨ timClock = 168000000

theorem TimerClock.mhz (h : TimerClock timClock) :
    0 < timClock / 1000000 ∧ timClock / 1000000 ≤ 168 := by
  rcases h with rfl | rfl <;> omega

theorem u32_of_lt {n : ℕ} (h : n < 2 ^ 32) : u32 n = n := Nat.mod_eq_of_lt h

theorem u64_of_lt {n : ℕ} (h : n < 2 ^ 64) : u64 n = n := Nat.mod_eq_of_lt h

theorem udiv_of_pos {a b : ℕ} (h : 0 < b) : udiv a b = some (a / b) :=
  if_neg (Nat.pos_iff_ne_zero.1 h)

/-- A nanosecond value times a clock in MHz fits sixty-four bits. -/
theorem u64_mul_mhz (h : TimerClock timClock) (ns : UInt32) :
    u64 (ns.toNat * (timClock / 1000000)) = ns.toNat * (timClock / 1000000) := by
  refine u64_of_lt ?_
  have hns : ns.toNat < 2 ^ 32 := ns.toNat_lt
  have := Nat.mul_le_mul hns.le h.mhz.2
  omega

theorem clockTicks_lt (h : TimerClock timClock) (c : PwmConfiguration) :
    clockTicks timClock c < 2 ^ 30 := by
  have hns : c.period.toNat < 2 ^ 32 := c.period.toNat_lt
  have := Nat.mul_le_mul hns.le h.mhz.2
  unfold clockTicks
  omega

theorem prescale_le (h : TimerClock timClock) (c : PwmConfiguration) :
    prescale (clockTicks timClock c) ≤ 2 ^ 16 := by
  have := clockTicks_lt h c
  have hmax : maxPeriod = 65535 := rfl
  rw [prescale, hmax]
  omega

/-- The least period, as the source writes the comparison. -/
theorem clamp_period (ticks : ℕ) :
    (if ticks / prescale ticks < minPeriod then minPeriod else ticks / prescale ticks) =
      periodTicks ticks := by
  unfold periodTicks
  split <;> omega

/-! ## The setters -/

theorem u32_ticks (h : TimerClock timClock) (c : PwmConfiguration) :
    u32 (u64 (c.period.toNat * (timClock / 1000000)) / 1000) = clockTicks timClock c := by
  rw [u64_mul_mhz h]
  exact u32_of_lt ((clockTicks_lt h c).trans (by norm_num))

theorem udiv_prescale (n ticks : ℕ) :
    udiv n (ticks / maxPeriod + 1) = some (n / prescale ticks) :=
  udiv_of_pos (Nat.succ_pos _)

theorem u32_prescaler (h : TimerClock timClock) (c : PwmConfiguration) :
    u32 (clockTicks timClock c / maxPeriod + 1 - 1) = prescale (clockTicks timClock c) - 1 := by
  have hpsc : clockTicks timClock c / maxPeriod + 1 ≤ 2 ^ 16 := prescale_le h c
  exact u32_of_lt (by omega)

theorem u32_reload (ticks : ℕ) : u32 (periodTicks ticks - 1) = periodTicks ticks - 1 := by
  have := periodTicks_lt ticks
  exact u32_of_lt (by omega)

theorem drvPwmSetPeriod_eq (h : TimerClock timClock) (htim : Tim) (c : PwmConfiguration) :
    drvPwmSetPeriod timClock htim c = some
      { htim with
        psc := prescale (clockTicks timClock c) - 1
        arr := periodTicks (clockTicks timClock c) - 1 } := by
  simp only [drvPwmSetPeriod, u32_ticks h, udiv_prescale, Option.bind_eq_bind, Option.bind_some,
    Option.pure_def, clamp_period, Tim.setPrescaler, Tim.setAutoreload, u32_prescaler h,
    u32_reload]

/-- The two bounds both pulse setters put on a number of ticks. -/
def clampPulse (period pulse : ℕ) : ℕ :=
  if pulse < minPulse then minPulse else if period < pulse then period else pulse

/-- What `drv_pwm_set` writes to the compare register. -/
def compareTicks (timClock : ℕ) (c : PwmConfiguration) : ℕ :=
  u32 (clampPulse (periodTicks (clockTicks timClock c))
    (u32 (u64 (c.pulse.toNat * (timClock / 1000000)) / prescale (clockTicks timClock c) / 1000)) -
      1)

theorem drvPwmSet_eq (h : TimerClock timClock) (htim : Tim) (c : PwmConfiguration) :
    drvPwmSet timClock htim c = some
      { psc := prescale (clockTicks timClock c) - 1
        arr := periodTicks (clockTicks timClock c) - 1
        ccr := Function.update htim.ccr (compareReg c) (compareTicks timClock c) } := by
  simp only [drvPwmSet, u32_ticks h, udiv_prescale, Option.bind_eq_bind, Option.bind_some,
    Option.pure_def, clamp_period, Tim.setPrescaler, Tim.setAutoreload, Tim.setCompare,
    u32_prescaler h, u32_reload]
  rfl

theorem compareTicks_lt (timClock : ℕ) (c : PwmConfiguration) :
    compareTicks timClock c < periodTicks (clockTicks timClock c) := by
  have hperiod := le_periodTicks (clockTicks timClock c)
  have hmin : minPeriod = 3 := rfl
  have hpulse : minPulse = 2 := rfl
  refine (Nat.mod_le _ _).trans_lt ?_
  unfold clampPulse
  split
  · omega
  · split <;> omega

/-- The registers hold a period the setters could have written: the ones of
some number of clock ticks. -/
def Programmed (htim : Tim) : Prop :=
  ∃ ticks < 2 ^ 30, htim.psc = prescale ticks - 1 ∧ htim.arr = periodTicks ticks - 1

theorem Programmed.psc (hp : Programmed htim) : htim.psc < 2 ^ 16 := by
  obtain ⟨ticks, hticks, hpsc, -⟩ := hp
  have hmax : maxPeriod = 65535 := rfl
  rw [hpsc, prescale, hmax]
  omega

theorem Programmed.arr (hp : Programmed htim) : htim.arr < 2 ^ 16 := by
  obtain ⟨ticks, -, -, harr⟩ := hp
  have := periodTicks_lt ticks
  omega

theorem Programmed.least (hp : Programmed htim) : minPeriod ≤ htim.arr + 1 := by
  obtain ⟨ticks, -, -, harr⟩ := hp
  have := le_periodTicks ticks
  omega

/-! ## The period in nanoseconds is never zero -/

/-- The least product of the registers whose nanoseconds reach the `m`-th
multiple of 2 ^ 32. -/
def wrapsAt (m : ℕ) : ℕ := (m * 2 ^ 32 + 999) / 1000

/-- Where the nanoseconds come to just above a multiple of 2 ^ 32, no
prescaler that goes with such a product divides it. -/
theorem wrapsAt_not_dvd : ∀ m < 250, 0 < m → 1000 * wrapsAt m < m * 2 ^ 32 + 168 →
    ∀ d < 2, 65534 * (wrapsAt m / 65535 + 1 + d) < wrapsAt m + 65535 →
      wrapsAt m % (wrapsAt m / 65535 + 1 + d) ≠ 0 := by
  decide +kernel

/-- **No prescaled period wraps to less than a clock tick.** -/
theorem wrapped_period {psc ticks : ℕ} (hlt : ticks * psc < 2 ^ 30) (hpos : 0 < ticks * psc)
    (hlow : ticks * psc < 65535 * psc) (hhigh : 65534 * psc < ticks * psc + 65535) :
    168 ≤ ticks * psc * 1000 % 2 ^ 32 := by
  by_contra hsmall
  have hdiv := Nat.div_add_mod (ticks * psc * 1000) (2 ^ 32)
  -- the product is the least one that reaches its multiple
  have hprod : ticks * psc = wrapsAt (ticks * psc * 1000 / 2 ^ 32) := by
    unfold wrapsAt
    omega
  obtain ⟨d, hd, hpsc⟩ : ∃ d < 2, psc = ticks * psc / 65535 + 1 + d :=
    ⟨psc - (ticks * psc / 65535 + 1), by omega, by omega⟩
  have hdvd : ticks * psc % psc = 0 := Nat.mul_mod_left ticks psc
  have hnot := wrapsAt_not_dvd (ticks * psc * 1000 / 2 ^ 32) (by omega) (by omega)
    (by rw [← hprod]; omega) d hd
  rw [← hprod, ← hpsc] at hnot
  exact hnot hhigh hdvd

/-- The quotient by the prescaler lies at the upper end of the reload. -/
theorem prescaled_bounds {ticks : ℕ} (hticks : ticks < 2 ^ 30) :
    let n := periodTicks ticks * prescale ticks
    n < 2 ^ 30 ∧ 0 < n ∧ n < 65535 * prescale ticks ∧ 65534 * prescale ticks < n + 65535 := by
  have hmax : maxPeriod = 65535 := rfl
  have hmin : minPeriod = 3 := rfl
  have hpsc : prescale ticks = ticks / 65535 + 1 := rfl
  have hquot := Nat.div_add_mod ticks (prescale ticks)
  have hrest := Nat.mod_lt ticks (show 0 < prescale ticks from Nat.succ_pos _)
  have hticks' := Nat.div_add_mod ticks 65535
  have hmod := Nat.mod_lt ticks (show 0 < 65535 by decide)
  rw [Nat.mul_comm (prescale ticks)] at hquot
  rcases Nat.lt_or_ge (ticks / prescale ticks) minPeriod with hfew | hmany
  · -- so few ticks are not prescaled
    have hone : prescale ticks = 1 := by
      rw [hmin] at hfew
      have := (Nat.div_lt_iff_lt_mul (show 0 < prescale ticks from Nat.succ_pos _)).1 hfew
      omega
    have hthree : periodTicks ticks = 3 := max_eq_left hfew.le
    simp [hone, hthree]
  · have hperiod : periodTicks ticks = ticks / prescale ticks := max_eq_right hmany
    have hpos : 0 < ticks / prescale ticks * prescale ticks :=
      Nat.mul_pos (by omega) (Nat.succ_pos _)
    simp only [hperiod]
    exact ⟨by omega, hpos, by omega, by omega⟩

/-- **A period the setters could have written is not zero in
nanoseconds.** -/
theorem periodNs_pos (h : TimerClock timClock) (hp : Programmed htim) :
    0 < periodNs timClock htim := by
  obtain ⟨ticks, hticks, hpsc, harr⟩ := hp
  obtain ⟨hlt, hpos, hlow, hhigh⟩ := prescaled_bounds hticks
  have hwrap := wrapped_period hlt hpos hlow hhigh
  have hleast := le_periodTicks ticks
  have hmin : minPeriod = 3 := rfl
  have harr' : htim.arr + 1 = periodTicks ticks := by omega
  have hpsc' : htim.psc + 1 = prescale ticks := by
    have : 0 < prescale ticks := Nat.succ_pos _
    omega
  rw [periodNs, harr', hpsc']
  exact Nat.div_pos (h.mhz.2.trans hwrap) h.mhz.1

theorem u32_period (hp : Programmed htim) :
    u32 (u32 (u32 (htim.arr + 1) * u32 (htim.psc + 1)) * 1000) =
      (htim.arr + 1) * (htim.psc + 1) * 1000 % 2 ^ 32 := by
  have harr := hp.arr
  have hpsc := hp.psc
  rw [u32_of_lt (show htim.arr + 1 < 2 ^ 32 by omega),
    u32_of_lt (show htim.psc + 1 < 2 ^ 32 by omega)]
  simp only [u32, Nat.mod_mul_mod]

theorem periodNs_lt (timClock : ℕ) (htim : Tim) : periodNs timClock htim < 2 ^ 32 :=
  (Nat.div_le_self _ _).trans_lt (Nat.mod_lt _ (by norm_num))

theorem pulseTicks_lt (timClock : ℕ) (htim : Tim) (c : PwmConfiguration) :
    pulseTicks timClock htim c < 2 ^ 32 :=
  Nat.mod_lt _ (by norm_num)

theorem clampPulse_lt {period pulse : ℕ} (h : pulse < 2 ^ 32) :
    clampPulse period pulse < 2 ^ 32 := by
  have hpulse : minPulse = 2 := rfl
  unfold clampPulse
  split
  · omega
  · split <;> omega

/-- `drv_pwm_set_pulse`, with its arithmetic done. -/
theorem drvPwmSetPulse_eq (h : TimerClock timClock) (hp : Programmed htim)
    (c : PwmConfiguration) :
    drvPwmSetPulse timClock htim c = some
      { htim with
        ccr := Function.update htim.ccr (compareReg c)
          (clampPulse (periodNs timClock htim) (pulseTicks timClock htim c) - 1) } := by
  have harr := hp.arr
  -- the product of sixty-four bits is exact, the one of the period is not
  have hprod : u64 (c.pulse.toNat * u32 (htim.arr + 1)) = c.pulse.toNat * (htim.arr + 1) := by
    rw [u32_of_lt (by omega)]
    have hns : c.pulse.toNat < 2 ^ 32 := c.pulse.toNat_lt
    have := Nat.mul_le_mul hns.le (show htim.arr + 1 ≤ 2 ^ 16 by omega)
    exact u64_of_lt (by omega)
  have hperiod : udiv (u32 (u32 (u32 (htim.arr + 1) * u32 (htim.psc + 1)) * 1000))
      (timClock / 1000000) = some (periodNs timClock htim) := by
    rw [u32_period hp]
    exact udiv_of_pos h.mhz.1
  have hlt : clampPulse (periodNs timClock htim) (pulseTicks timClock htim c) - 1 < 2 ^ 32 :=
    (Nat.sub_le _ _).trans_lt (clampPulse_lt (pulseTicks_lt timClock htim c))
  simp only [drvPwmSetPulse, hperiod, hprod, Option.bind_eq_bind, Option.bind_some,
    u32_of_lt (periodNs_lt timClock htim), udiv_of_pos (periodNs_pos h hp)]
  refine congrArg some ?_
  change Tim.setCompare htim c (clampPulse (periodNs timClock htim)
    (pulseTicks timClock htim c) - 1) = _
  rw [Tim.setCompare, u32_of_lt hlt]

/-! ## Runs -/

/-- The call came back, both registers fit sixteen bits, and the channel's
compare lies within the reload. -/
def Consistent (cmd : PwmCmd) (htim : Option Tim) : Prop :=
  ∃ t, htim = some t ∧ t.psc < 2 ^ 16 ∧ t.arr < 2 ^ 16 ∧
    t.ccr (compareReg cmd.configuration) ≤ t.arr

/-- What the registers have to allow before a call. A new period must still
cover the compare that stays; a new pulse must not come to more ticks than
the reload has unless the nanoseconds of the period, in thirty-two bits, are
as few. -/
def Fits (timClock : ℕ) (htim : Option Tim) : PwmCmd → Prop
  | .set _ => True
  | .setPeriod c => ∀ t, htim = some t →
      t.ccr (compareReg c) < periodTicks (clockTicks timClock c)
  | .setPulse c => ∀ t, htim = some t →
      min (pulseTicks timClock t c) (periodNs timClock t) ≤ t.arr + 1

/-- Whatever is written at or above the least pulse is bounded by ticks and
nanoseconds alike. -/
theorem clampPulse_le_iff {period pulse arr : ℕ} (hperiod : 0 < period)
    (harr : minPeriod ≤ arr + 1) :
    clampPulse period pulse - 1 ≤ arr ↔ min pulse period ≤ arr + 1 := by
  have hmin : minPeriod = 3 := rfl
  have hpulse : minPulse = 2 := rfl
  unfold clampPulse
  split
  · omega
  · split <;> omega

theorem programmed_of_set (h : TimerClock timClock) (c : PwmConfiguration) (ccr : Fin 4 → ℕ) :
    Programmed
      { psc := prescale (clockTicks timClock c) - 1
        arr := periodTicks (clockTicks timClock c) - 1
        ccr := ccr } := by
  exact ⟨clockTicks timClock c, clockTicks_lt h c, rfl, rfl⟩

/-- A call that writes a period leaves the registers consistent when the
compare of its channel is below it. -/
theorem consistent_of_set (h : TimerClock timClock) {cmd : PwmCmd} {c : PwmConfiguration}
    {ccr : Fin 4 → ℕ} :
    Consistent cmd (some
      { psc := prescale (clockTicks timClock c) - 1
        arr := periodTicks (clockTicks timClock c) - 1
        ccr := ccr }) ↔
      ccr (compareReg cmd.configuration) < periodTicks (clockTicks timClock c) := by
  have hp := programmed_of_set h c ccr
  have hleast := le_periodTicks (clockTicks timClock c)
  have hmin : minPeriod = 3 := rfl
  constructor
  · rintro ⟨t, ht, -, -, hle⟩
    obtain rfl := Option.some.inj ht
    simp only at hle
    omega
  · intro hlt
    exact ⟨_, rfl, hp.psc, hp.arr, by simp only; omega⟩

/-- **A call leaves the registers consistent exactly when it fits them.** -/
theorem consistent_iff (h : TimerClock timClock) (hp : Programmed htim) (cmd : PwmCmd) :
    Consistent cmd (drvPwmControl timClock (some htim) cmd) ↔
      Fits timClock (some htim) cmd := by
  cases cmd with
  | set c =>
    -- the compare is clamped by the period it is written with
    change Consistent _ (drvPwmSet timClock htim c) ↔ True
    rw [drvPwmSet_eq h, consistent_of_set h, iff_true]
    simp only [PwmCmd.configuration, Function.update_self]
    exact compareTicks_lt timClock c
  | setPeriod c =>
    -- the compare is the one of an earlier call
    change Consistent _ (drvPwmSetPeriod timClock htim c) ↔ _
    rw [drvPwmSetPeriod_eq h, consistent_of_set h]
    simp [Fits, PwmCmd.configuration]
  | setPulse c =>
    -- ticks are clamped by nanoseconds
    change Consistent _ (drvPwmSetPulse timClock htim c) ↔ _
    rw [drvPwmSetPulse_eq h hp]
    simp only [Consistent, Fits, PwmCmd.configuration, Option.some.injEq, exists_eq_left',
      Function.update_self, forall_eq', hp.psc, hp.arr, true_and]
    exact clampPulse_le_iff (periodNs_pos h hp) hp.least

/-- A call that comes back leaves a period the setters could have written. -/
theorem programmed_step (h : TimerClock timClock) (hp : Programmed htim) {cmd : PwmCmd}
    (hstep : drvPwmControl timClock (some htim) cmd = some htim') : Programmed htim' := by
  cases cmd with
  | set c =>
    change drvPwmSet timClock htim c = _ at hstep
    rw [drvPwmSet_eq h] at hstep
    exact Option.some.inj hstep ▸ programmed_of_set h c _
  | setPeriod c =>
    change drvPwmSetPeriod timClock htim c = _ at hstep
    rw [drvPwmSetPeriod_eq h] at hstep
    exact Option.some.inj hstep ▸ programmed_of_set h c _
  | setPulse c =>
    change drvPwmSetPulse timClock htim c = _ at hstep
    rw [drvPwmSetPulse_eq h hp] at hstep
    exact Option.some.inj hstep ▸ hp

/-- **The registers stay consistent exactly as long as every call fits
them**, on the channel each call names, from a first `drv_pwm_set` on
whatever the timer held before it. -/
theorem registers_consistent_iff (h : TimerClock timClock) (htim : Tim) (c : PwmConfiguration)
    (cmds : List PwmCmd) :
    Run.AlongRun (drvPwmControl timClock) (fun _ cmd s' => Consistent cmd s') (some htim)
        (.set c :: cmds) ↔
      Run.AlongRun (drvPwmControl timClock) (fun s cmd _ => Fits timClock s cmd) (some htim)
        (.set c :: cmds) := by
  have hset : drvPwmControl timClock (some htim) (.set c) = _ := drvPwmSet_eq h htim c
  have hfirst : Consistent (.set c) (drvPwmControl timClock (some htim) (.set c)) := by
    rw [hset, consistent_of_set h]
    simp only [PwmCmd.configuration, Function.update_self]
    exact compareTicks_lt timClock c
  have hrest : Run.AlongRun (drvPwmControl timClock) (fun _ cmd s' => Consistent cmd s')
      (drvPwmControl timClock (some htim) (.set c)) cmds ↔
        Run.AlongRun (drvPwmControl timClock) (fun s cmd _ => Fits timClock s cmd)
          (drvPwmControl timClock (some htim) (.set c)) cmds := by
    refine Run.alongRun_iff (I := fun s => ∃ t, s = some t ∧ Programmed t)
      (Q := fun _ _ _ => True) ?_ ?_ ⟨_, hset, programmed_of_set h c _⟩
      (Run.alongRun_of_forall fun _ _ => trivial)
    · rintro s cmd ⟨t, rfl, hp⟩ -
      exact consistent_iff h hp cmd
    · rintro s cmd ⟨t, rfl, hp⟩ ⟨t', ht', -⟩
      exact ⟨t', ht', programmed_step h hp ht'⟩
  exact ⟨fun hrun => ⟨trivial, hrest.1 hrun.2⟩, fun hrun => ⟨hfirst, hrest.2 hrun.2⟩⟩

/-- A timer out of reset, and a millisecond of it at full duty. -/
def resetTim : Tim := ⟨0, 0, fun _ => 0⟩

theorem registers_consistent_full_duty :
    Run.AlongRun (drvPwmControl 84000000) (fun _ cmd s' => Consistent cmd s') (some resetTim)
        (.set ⟨1, 1000000, 1000000⟩ :: [.setPeriod ⟨1, 2000000, 0⟩]) ↔
      Run.AlongRun (drvPwmControl 84000000) (fun s cmd _ => Fits 84000000 s cmd) (some resetTim)
        (.set ⟨1, 1000000, 1000000⟩ :: [.setPeriod ⟨1, 2000000, 0⟩]) :=
  registers_consistent_iff (Or.inl rfl) resetTim ⟨1, 1000000, 1000000⟩ [.setPeriod ⟨1, 2000000, 0⟩]

/-- **A shorter period leaves a compare above the reload.** -/
theorem registers_not_consistent :
    ¬ ∀ (timClock : ℕ) (htim : Tim) (c : PwmConfiguration) (cmds : List PwmCmd),
      TimerClock timClock →
        Run.AlongRun (drvPwmControl timClock) (fun _ cmd s' => Consistent cmd s') (some htim)
          (.set c :: cmds) := by
  intro h
  obtain ⟨-, ⟨t, ht, -, -, hle⟩, -⟩ := h 84000000 resetTim ⟨1, 1000000, 1000000⟩
    [.setPeriod ⟨1, 100000, 0⟩] (Or.inl rfl)
  rw [← Option.some.inj ht] at hle
  exact absurd hle (by decide)

end Pwm

end RtSpark
