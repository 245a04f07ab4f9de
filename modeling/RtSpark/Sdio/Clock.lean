import RtSpark.Sdio.Model.Iocfg
import Mathlib.Data.Rat.Cast.Order
import Mathlib.Algebra.Order.Field.Basic
import Mathlib.Data.Nat.Bitwise
import Mathlib.Tactic.Linarith
import Mathlib.Tactic.NormNum
/-!
# The clock of the card

The divider is the quotient of source and request, rounded down, and held
to `2 .. 255`. Rounding down makes the card's clock too fast unless the
request divides the source, and so does the upper limit; the lower limit
makes it too slow, which is safe. `safeClock_iff` says so for every source
and request.
-/

namespace RtSpark

namespace Sdio

variable {clkSrc freqMax clk : ℕ} {ioCfg : IoCfg} {hw : ClockRegs}

/-! ## The fields of the register -/

/-- The eight bits of `CLKDIV`. -/
def ClockRegs.clkdiv (hw : ClockRegs) : ℕ := hw.clkcr % 2 ^ 8

/-- `CLKEN`. -/
def ClockRegs.enabled (hw : ClockRegs) : Bool := hw.clkcr.testBit 8

/-- The clock the card sees. -/
def ClockRegs.cardClock (clkSrc : ℕ) (hw : ClockRegs) : ℚ := clkSrc / (hw.clkdiv + 2)

theorem busBits_cases (busWidth : ℕ) :
    busBits busWidth = hwSdioBuswide8b ∨ busBits busWidth = hwSdioBuswide4b ∨
      busBits busWidth = hwSdioBuswide1b := by
  unfold busBits
  split_ifs
  · exact Or.inl rfl
  · exact Or.inr (Or.inl rfl)
  · exact Or.inr (Or.inr rfl)

/-- The width of the bus is written beside the clock. -/
theorem busBits_beside (busWidth : ℕ) :
    busBits busWidth % 2 ^ 8 = 0 ∧ (busBits busWidth).testBit 8 = false := by
  rcases busBits_cases busWidth with h | h | h <;> rw [h] <;> decide

theorem clkdiv_of_bits {div busWidth power : ℕ} (hdiv : div < 2 ^ 8) :
    (ClockRegs.mk power (div ||| hwSdioClkEnable ||| busBits busWidth)).clkdiv = div := by
  have hen : hwSdioClkEnable % 2 ^ 8 = 0 := by decide
  rw [ClockRegs.clkdiv, Nat.or_mod_two_pow, Nat.or_mod_two_pow, (busBits_beside busWidth).1, hen,
    Nat.or_zero, Nat.or_zero, Nat.mod_eq_of_lt hdiv]

theorem enabled_of_bits {div busWidth power : ℕ} :
    (ClockRegs.mk power (div ||| hwSdioClkEnable ||| busBits busWidth)).enabled = true := by
  have hen : hwSdioClkEnable.testBit 8 = true := by decide
  rw [ClockRegs.enabled, Nat.testBit_or, Nat.testBit_or, hen, Bool.or_true, Bool.true_or]

/-! ## The divider -/

/-- What the quotient is held to. -/
def divider (clkSrc clk : ℕ) : ℕ :=
  if clkSrc / clk < 2 then 2 else if 0xFF < clkSrc / clk then 0xFF else clkSrc / clk

theorem divider_bounds (clkSrc clk : ℕ) : 2 ≤ divider clkSrc clk ∧ divider clkSrc clk ≤ 255 := by
  unfold divider
  split_ifs <;> omega

/-- **The divider keeps below the request** if the request is at least
half the source, or divides it and the divider has room. -/
theorem divider_le_iff (hclk : 0 < clk) (hle : clk ≤ clkSrc) :
    clkSrc ≤ clk * divider clkSrc clk ↔
      clkSrc ≤ 2 * clk ∨ (clk ∣ clkSrc ∧ clkSrc ≤ 255 * clk) := by
  have hdiv := Nat.div_add_mod clkSrc clk
  have hmod := Nat.mod_lt clkSrc hclk
  have hdvd : clk ∣ clkSrc ↔ clkSrc % clk = 0 := Nat.dvd_iff_mod_eq_zero
  rw [hdvd]
  unfold divider
  split_ifs with hlow hhigh
  · -- the quotient is one, the divider two
    have hone : clkSrc / clk = 1 := by
      have := Nat.div_pos hle hclk
      omega
    rw [hone] at hdiv
    omega
  · -- the quotient is out of reach
    have hlarge : clk * 256 ≤ clk * (clkSrc / clk) := Nat.mul_le_mul_left _ hhigh
    omega
  · have htwo : clk * 2 ≤ clk * (clkSrc / clk) := Nat.mul_le_mul_left _ (by omega)
    have hroom : clk * (clkSrc / clk) ≤ clk * 255 := Nat.mul_le_mul_left _ (by omega)
    omega

/-! ## The settings -/

theorem clampClock_eq : clampClock clkSrc freqMax clk = min (min clk freqMax) clkSrc := by
  unfold clampClock
  simp only
  split_ifs <;> omega

/-- **What the settings come to.** -/
theorem rthwSdioIocfg_eq (hw : ClockRegs) (hsrc : 400000 ≤ clkSrc)
    (hpos : 0 < min ioCfg.clock freqMax) :
    rthwSdioIocfg clkSrc freqMax ioCfg hw =
      some ⟨powerBits ioCfg.powerMode hw.power,
        (divider clkSrc (min (min ioCfg.clock freqMax) clkSrc) - 2) ||| hwSdioClkEnable |||
          busBits ioCfg.busWidth⟩ := by
  have hquot : 0 < clkSrc / min (min ioCfg.clock freqMax) clkSrc :=
    Nat.div_pos (Nat.min_le_right _ _) (by omega)
  rw [rthwSdioIocfg, if_neg (by omega), clampClock_eq, clockBits, if_neg (by omega),
    if_neg (by omega)]
  rfl

/-- A request of zero is divided by. -/
theorem rthwSdioIocfg_zero (hsrc : 400000 ≤ clkSrc) (hzero : min ioCfg.clock freqMax = 0) :
    rthwSdioIocfg clkSrc freqMax ioCfg hw = none := by
  rw [rthwSdioIocfg, if_neg (by omega), clampClock_eq, clockBits, if_pos (by omega)]
  rfl

/-- No division by zero, and a clock, where there is one, within the
request. -/
def SafeClock (clkSrc freqMax : ℕ) (ioCfg : IoCfg) (hw : ClockRegs) : Prop :=
  ∃ hw', rthwSdioIocfg clkSrc freqMax ioCfg hw = some hw' ∧
    (hw'.enabled = true → hw'.cardClock clkSrc ≤ (min ioCfg.clock freqMax : ℕ))

theorem cardClock_le_iff {limit : ℕ} :
    hw.cardClock clkSrc ≤ limit ↔ clkSrc ≤ limit * (hw.clkdiv + 2) := by
  have hpos : (0 : ℚ) < hw.clkdiv + 2 := by
    have : (0 : ℚ) ≤ hw.clkdiv := Nat.cast_nonneg _
    linarith
  rw [ClockRegs.cardClock, div_le_iff₀ hpos]
  exact_mod_cast Iff.rfl

/-- **When the card's clock is safe.** -/
theorem rthwSdioIocfg_safe_iff (hsrc : 400000 ≤ clkSrc) (ioCfg : IoCfg) (hw : ClockRegs) :
    SafeClock clkSrc freqMax ioCfg hw ↔
      min ioCfg.clock freqMax ≠ 0 ∧ (clkSrc ≤ 2 * min ioCfg.clock freqMax ∨
        (min ioCfg.clock freqMax ∣ clkSrc ∧ clkSrc ≤ 255 * min ioCfg.clock freqMax)) := by
  generalize hm : min ioCfg.clock freqMax = m
  rcases Nat.eq_zero_or_pos m with rfl | hpos
  · constructor
    · rintro ⟨hw', hset, -⟩
      rw [rthwSdioIocfg_zero hsrc hm] at hset
      cases hset
    · rintro ⟨hne, -⟩
      exact absurd rfl hne
  have hset := rthwSdioIocfg_eq hw hsrc (hm ▸ hpos)
  rw [hm] at hset
  have hbounds := divider_bounds clkSrc (min m clkSrc)
  have hsafe : SafeClock clkSrc freqMax ioCfg hw ↔
      clkSrc ≤ m * divider clkSrc (min m clkSrc) := by
    unfold SafeClock
    rw [hset, hm]
    constructor
    · rintro ⟨hw', heq, hle⟩
      obtain rfl := Option.some.inj heq
      have h := cardClock_le_iff.1 (hle enabled_of_bits)
      rw [clkdiv_of_bits (by omega), Nat.sub_add_cancel hbounds.1] at h
      exact h
    · intro h
      refine ⟨_, rfl, fun _ => cardClock_le_iff.2 ?_⟩
      rw [clkdiv_of_bits (by omega), Nat.sub_add_cancel hbounds.1]
      exact h
  rw [hsafe]
  rcases Nat.le_total m clkSrc with hle | hge
  · rw [Nat.min_eq_left hle, divider_le_iff hpos hle]
    exact ⟨fun h => ⟨hpos.ne', h⟩, fun h => h.2⟩
  · -- more than the source is asked for: half of it is given
    have htwo : m * 2 ≤ m * divider clkSrc (min m clkSrc) := Nat.mul_le_mul_left _ hbounds.1
    exact ⟨fun _ => ⟨hpos.ne', Or.inl (by omega)⟩, fun _ => by omega⟩

/-- Identification at 400 kHz, from the 48 MHz of the board. -/
theorem rthwSdioIocfg_safe_iff_identification :
    400000 ≤ 48000000 ∧ (SafeClock 48000000 24000000 ⟨400000, 0, 2⟩ ⟨0, 0⟩ ↔
      min 400000 24000000 ≠ 0 ∧ (48000000 ≤ 2 * min 400000 24000000 ∨
        (min 400000 24000000 ∣ 48000000 ∧ 48000000 ≤ 255 * min 400000 24000000))) :=
  ⟨by decide, rthwSdioIocfg_safe_iff (by decide) ⟨400000, 0, 2⟩ ⟨0, 0⟩⟩

/-- The settings a host is switched off with, and a request for 20 MHz: the
one divides by zero, the other gives 24 MHz. -/
theorem rthwSdioIocfg_not_safe :
    ¬ SafeClock 48000000 24000000 ⟨0, mmcsdBusWidth1, mmcsdPowerOff⟩ ⟨3, 0⟩ ∧
      ¬ SafeClock 48000000 24000000 ⟨20000000, mmcsdBusWidth4, mmcsdPowerOn⟩ ⟨3, 0⟩ := by
  constructor
  · rintro ⟨hw', hset, -⟩
    rw [rthwSdioIocfg_zero (by decide) (by decide)] at hset
    cases hset
  · rintro ⟨hw', hset, hle⟩
    have heq : rthwSdioIocfg 48000000 24000000 ⟨20000000, mmcsdBusWidth4, mmcsdPowerOn⟩ ⟨3, 0⟩ =
        some ⟨3, 0x900⟩ := by decide
    obtain rfl := Option.some.inj (heq.symm.trans hset)
    have := cardClock_le_iff.1 (hle (by decide))
    exact absurd this (by decide)

end Sdio

end RtSpark
