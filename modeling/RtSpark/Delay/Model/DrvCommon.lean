import RtSpark.Common.Loop
import RtSpark.Common.Word
import Mathlib.Algebra.Group.Nat.Defs
/-!
# The microsecond delay

`rt_hw_us_delay` of `drv_common.c`. It reads `SysTick->VAL` over and over,
so the values read are an input: `sample i` is what the read number `i`
gives, the read before the loop being number zero. All variables are
thirty-two bits wide.
-/

namespace RtSpark

namespace Delay

open Word

/-- `RT_TICK_PER_SECOND` of the board. -/
def rtTickPerSecond : ℕ := 1000

/-- The ticks to wait. -/
def delayTicks (reload us : ℕ) : ℕ := u32 (us * reload) / (1000000 / rtTickPerSecond)

structure DelayState where
  /-- How many values were read so far. -/
  reads : ℕ
  told : ℕ
  tcnt : ℕ
  /-- The `break` was taken. -/
  left : Bool
deriving DecidableEq

/-- One pass of the loop. -/
def usDelayPass (sample : ℕ → ℕ) (reload ticks : ℕ) (s : DelayState) : Option DelayState :=
  if s.left then
    none
  else
    let tnow := sample s.reads
    if tnow ≠ s.told then
      let tcnt :=
        if tnow < s.told then u32 (s.tcnt + sub32 s.told tnow)
        else u32 (s.tcnt + u32 (sub32 reload tnow + s.told))
      some ⟨s.reads + 1, tnow, tcnt, decide (ticks ≤ tcnt)⟩
    else
      some { s with reads := s.reads + 1 }

/-- What the loop of `rt_hw_us_delay` begins with. -/
def usDelayInit (sample : ℕ → ℕ) : DelayState := ⟨1, sample 0, 0, false⟩

/-- The loop of `rt_hw_us_delay`. -/
def rtHwUsDelay (sample : ℕ → ℕ) (reload us : ℕ) : DelayState → Option DelayState :=
  usDelayPass sample reload (delayTicks reload us)

end Delay

end RtSpark
