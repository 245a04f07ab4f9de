import Mathlib.Data.Nat.Notation
import Mathlib.Algebra.Group.Nat.Defs
import Mathlib.Logic.Function.Basic
/-!
# The PWM registers

`drv_pwm.c`: the setters, and what reads them back. Nanoseconds and
registers are thirty-two bits wide, the clock and the prescaler under
computation sixty-four. A division by zero has no result, so each function
returns `none` there.
-/

namespace RtSpark

namespace Pwm

def maxPeriod : ℕ := 65535
def minPeriod : ℕ := 3
def minPulse : ℕ := 2

/-- What an unsigned variable of the source keeps of a value. -/
def u32 (n : ℕ) : ℕ := n % 2 ^ 32

def u64 (n : ℕ) : ℕ := n % 2 ^ 64

/-- Unsigned division. -/
def udiv (a b : ℕ) : Option ℕ := if b = 0 then none else some (a / b)

/-- The registers of `TIM_TypeDef` the setters use. -/
structure Tim where
  psc : ℕ
  arr : ℕ
  ccr : Fin 4 → ℕ

/-- `struct rt_pwm_configuration`, without the field the setters do not
read. -/
structure PwmConfiguration where
  channel : UInt32
  period : UInt32
  pulse : UInt32

/-- The register `__HAL_TIM_SET_COMPARE` chooses, from the channel number of
the HAL. -/
def compareReg (c : PwmConfiguration) : Fin 4 :=
  let channel := 0x04 * (c.channel - 1)
  if channel = 0 then ⟨0, by decide⟩
  else if channel = 4 then ⟨1, by decide⟩
  else if channel = 8 then ⟨2, by decide⟩
  else ⟨3, by decide⟩

/-- `__HAL_TIM_SET_PRESCALER`. -/
def Tim.setPrescaler (htim : Tim) (presc : ℕ) : Tim := { htim with psc := u32 presc }

/-- `__HAL_TIM_SET_AUTORELOAD`. -/
def Tim.setAutoreload (htim : Tim) (autoreload : ℕ) : Tim := { htim with arr := u32 autoreload }

/-- `__HAL_TIM_SET_COMPARE`. -/
def Tim.setCompare (htim : Tim) (c : PwmConfiguration) (compare : ℕ) : Tim :=
  { htim with ccr := Function.update htim.ccr (compareReg c) (u32 compare) }

/-- `drv_pwm_set_period`, with what `tim_clock_get` returns. -/
def drvPwmSetPeriod (timClock : ℕ) (htim : Tim) (c : PwmConfiguration) : Option Tim := do
  let timClock := timClock / 1000000
  let period := u32 (u64 (c.period.toNat * timClock) / 1000)
  let psc := period / maxPeriod + 1
  let period ← udiv period psc
  let htim := htim.setPrescaler (psc - 1)
  let period := if period < minPeriod then minPeriod else period
  return htim.setAutoreload (period - 1)

/-- `drv_pwm_set`. -/
def drvPwmSet (timClock : ℕ) (htim : Tim) (c : PwmConfiguration) : Option Tim := do
  let timClock := timClock / 1000000
  let period := u32 (u64 (c.period.toNat * timClock) / 1000)
  let psc := period / maxPeriod + 1
  let period ← udiv period psc
  let htim := htim.setPrescaler (psc - 1)
  let period := if period < minPeriod then minPeriod else period
  let htim := htim.setAutoreload (period - 1)
  let pulse ← udiv (u64 (c.pulse.toNat * timClock)) psc
  let pulse := u32 (pulse / 1000)
  let pulse := if pulse < minPulse then minPulse else if period < pulse then period else pulse
  return htim.setCompare c (pulse - 1)

/-- `drv_pwm_set_pulse`. The period is worked out in thirty-two bits up to
the division. -/
def drvPwmSetPulse (timClock : ℕ) (htim : Tim) (c : PwmConfiguration) : Option Tim := do
  let timClock := timClock / 1000000
  let period ← udiv (u32 (u32 (u32 (htim.arr + 1) * u32 (htim.psc + 1)) * 1000)) timClock
  let period := u32 period
  let pulse ← udiv (u64 (c.pulse.toNat * u32 (htim.arr + 1))) period
  let pulse := u32 pulse
  let pulse := if pulse < minPulse then minPulse else if period < pulse then period else pulse
  return htim.setCompare c (pulse - 1)

/-- `TIM_CLOCKDIVISION_DIV1`, `TIM_CLOCKDIVISION_DIV2` and
`TIM_CLOCKDIVISION_DIV4`. -/
def timClockdivisionDiv1 : ℕ := 0x000
def timClockdivisionDiv2 : ℕ := 0x100
def timClockdivisionDiv4 : ℕ := 0x200

/-- A number of ticks as `drv_pwm_get` turns it into nanoseconds. The
products have thirty-two bits, the division sixty-four. -/
def ticksToNs (timClock ticks psc : ℕ) : Option ℕ :=
  udiv (u32 (u32 (u32 (ticks + 1) * u32 (psc + 1)) * 1000)) timClock

/-- `drv_pwm_get`, with the clock division the timer is configured with. -/
def drvPwmGet (timClock clockDivision : ℕ) (htim : Tim) (c : PwmConfiguration) :
    Option PwmConfiguration := do
  let timClock :=
    if clockDivision = timClockdivisionDiv2 then timClock / 2
    else if clockDivision = timClockdivisionDiv4 then timClock / 4
    else timClock
  let timClock := timClock / 1000000
  let period ← ticksToNs timClock htim.arr htim.psc
  let pulse ← ticksToNs timClock (htim.ccr (compareReg c)) htim.psc
  return { c with period := UInt32.ofNat period, pulse := UInt32.ofNat pulse }

/-- The commands of `drv_pwm_control` that set registers. -/
inductive PwmCmd where
  | set (c : PwmConfiguration)
  | setPeriod (c : PwmConfiguration)
  | setPulse (c : PwmConfiguration)

def PwmCmd.configuration : PwmCmd → PwmConfiguration
  | .set c => c
  | .setPeriod c => c
  | .setPulse c => c

/-- `drv_pwm_control` on a timer that no call has failed on so far. -/
def drvPwmControl (timClock : ℕ) (htim : Option Tim) (cmd : PwmCmd) : Option Tim :=
  htim.bind fun htim =>
    match cmd with
    | .set c => drvPwmSet timClock htim c
    | .setPeriod c => drvPwmSetPeriod timClock htim c
    | .setPulse c => drvPwmSetPulse timClock htim c

end Pwm

end RtSpark
