import Mathlib.Data.Nat.Notation
import Mathlib.Algebra.Group.Nat.Defs
/-!
# The settings of the SD host

`rthw_sdio_iocfg` of `drv_sdio.c`: clock, bus width and power of the card.
The two registers it writes are numbers; a division by zero has no result,
so the function returns `none` there.
-/

namespace RtSpark

namespace Sdio

def hwSdioClkEnable : ℕ := 0x01 <<< 8
def hwSdioBuswide1b : ℕ := 0x00 <<< 11
def hwSdioBuswide4b : ℕ := 0x01 <<< 11
def hwSdioBuswide8b : ℕ := 0x02 <<< 11
def hwSdioPowerOff : ℕ := 0x00
def hwSdioPowerUp : ℕ := 0x02
def hwSdioPowerOn : ℕ := 0x03

def mmcsdBusWidth1 : ℕ := 0
def mmcsdBusWidth4 : ℕ := 2
def mmcsdBusWidth8 : ℕ := 3
def mmcsdPowerOff : ℕ := 0
def mmcsdPowerUp : ℕ := 1
def mmcsdPowerOn : ℕ := 2

/-- The fields of `rt_mmcsd_io_cfg` the function reads. -/
structure IoCfg where
  clock : ℕ
  busWidth : ℕ
  powerMode : ℕ
deriving DecidableEq

/-- The registers of `stm32_sdio` it writes. -/
structure ClockRegs where
  power : ℕ
  clkcr : ℕ
deriving DecidableEq

/-- The clock bits of `clkcr`, from the two clocks. The quotient is taken
before the request is compared with zero. -/
def clockBits (clkSrc clk : ℕ) : Option ℕ :=
  if clk = 0 then
    none
  else
    let div := clkSrc / clk
    if clk = 0 ∨ div = 0 then
      some 0
    else
      let div := if div < 2 then 2 else if 0xFF < div then 0xFF else div
      some ((div - 2) ||| hwSdioClkEnable)

def busBits (busWidth : ℕ) : ℕ :=
  if busWidth = mmcsdBusWidth8 then hwSdioBuswide8b
  else if busWidth = mmcsdBusWidth4 then hwSdioBuswide4b
  else hwSdioBuswide1b

/-- What the switch on the power mode leaves in `power`. -/
def powerBits (powerMode power : ℕ) : ℕ :=
  if powerMode = mmcsdPowerOff then hwSdioPowerOff
  else if powerMode = mmcsdPowerUp then hwSdioPowerUp
  else if powerMode = mmcsdPowerOn then hwSdioPowerOn
  else power

/-- The request, below the limit of the host and the source. -/
def clampClock (clkSrc freqMax clk : ℕ) : ℕ :=
  let clk := if freqMax < clk then freqMax else clk
  if clkSrc < clk then clkSrc else clk

/-- `rthw_sdio_iocfg`, with what `clk_get` returns and `host->freq_max`. -/
def rthwSdioIocfg (clkSrc freqMax : ℕ) (ioCfg : IoCfg) (hw : ClockRegs) : Option ClockRegs :=
  if clkSrc < 400 * 1000 then
    some hw
  else
    (clockBits clkSrc (clampClock clkSrc freqMax ioCfg.clock)).map fun clkcr =>
      { power := powerBits ioCfg.powerMode hw.power
        clkcr := clkcr ||| busBits ioCfg.busWidth }

end Sdio

end RtSpark
