import RtSpark.Common.Raster
import Mathlib.Algebra.Group.Int.Defs
/-!
# The codec's driver

`drv_es8388.c` over the codec's register file. The transfers on the I2C
bus succeed, so `reg_read` is the register and `reg_write` sets it; several
writes in order are `Stores.apply`.
-/

namespace RtSpark

namespace Audio

/-- The register file, by `reg`. -/
abbrev Regs := UInt8 → UInt8

def es8388Control1 : UInt8 := 0x00
def es8388Control2 : UInt8 := 0x01
def es8388ChipPower : UInt8 := 0x02
def es8388AdcPower : UInt8 := 0x03
def es8388DacPower : UInt8 := 0x04
def es8388MasterMode : UInt8 := 0x08
def es8388AdcControl1 : UInt8 := 0x09
def es8388AdcControl2 : UInt8 := 0x0a
def es8388AdcControl3 : UInt8 := 0x0b
def es8388AdcControl4 : UInt8 := 0x0c
def es8388AdcControl5 : UInt8 := 0x0d
def es8388AdcControl8 : UInt8 := 0x10
def es8388AdcControl9 : UInt8 := 0x11
def es8388DacControl1 : UInt8 := 0x17
def es8388DacControl2 : UInt8 := 0x18
def es8388DacControl3 : UInt8 := 0x19
def es8388DacControl4 : UInt8 := 0x1a
def es8388DacControl5 : UInt8 := 0x1b
def es8388DacControl16 : UInt8 := 0x26
def es8388DacControl17 : UInt8 := 0x27
def es8388DacControl20 : UInt8 := 0x2a
def es8388DacControl21 : UInt8 := 0x2b
def es8388DacControl23 : UInt8 := 0x2d
def es8388DacControl24 : UInt8 := 0x2e
def es8388DacControl25 : UInt8 := 0x2f

/-- `enum es8388_mode`. -/
inductive Es8388Mode where
  | none
  | dac
  | adc
  | dacAdc
  | line
  | max
deriving DecidableEq

/-- `enum es8388_format`. -/
inductive Es8388Format where
  | normal
  | left
  | right
  | dsp
deriving DecidableEq

def Es8388Format.toUInt8 : Es8388Format → UInt8
  | .normal => 0
  | .left => 1
  | .right => 2
  | .dsp => 3

def regRead (r : Regs) (addr : UInt8) : UInt8 := r addr

def regWrite (addr val : UInt8) (r : Regs) : Regs := Stores.apply r [(addr, val)]

def es8388SetAdcDacVolume (mode : Es8388Mode) (volume dot : ℤ) (r : Regs) : Regs :=
  let volume := if volume < -96 then -96 else if 0 < volume then 0 else volume
  let dot := if 5 ≤ dot then 1 else 0
  let volume := UInt8.ofInt (-volume * 2 + dot)
  let r := if mode = .adc ∨ mode = .dacAdc then
    Stores.apply r [(es8388AdcControl8, volume), (es8388AdcControl9, volume)] else r
  if mode = .dac ∨ mode = .dacAdc then
    Stores.apply r [(es8388DacControl5, volume), (es8388DacControl4, volume)] else r

def es8388SetVoiceMute (enable : ℤ) (r : Regs) : Regs :=
  let reg := regRead r es8388DacControl3 &&& 0xFB
  regWrite es8388DacControl3 (reg ||| UInt8.ofInt (enable * 4)) r

/-- `es8388_init`, with the bus found. -/
def es8388Init (r : Regs) : Regs :=
  let r := Stores.apply r
    [(es8388DacControl3, 0x04),
      (es8388Control2, 0x50),
      (es8388ChipPower, 0x00),
      (es8388MasterMode, 0x00),
      (es8388DacPower, 0xC0),
      (es8388Control1, 0x12),
      (es8388DacControl1, 0x18),
      (es8388DacControl2, 0x02),
      (es8388DacControl16, 0x00),
      (es8388DacControl17, 0x9C),
      (es8388DacControl20, 0x9C),
      (es8388DacControl21, 0x80),
      (es8388DacControl23, 0x00)]
  let r := es8388SetAdcDacVolume .dac 0 0 r
  let r := Stores.apply r
    [(es8388DacPower, 0x3c),
      (es8388AdcPower, 0xFF),
      (es8388AdcControl1, 0xbb),
      (es8388AdcControl2, 0x00),
      (es8388AdcControl3, 0x02),
      (es8388AdcControl4, 0x0d),
      (es8388AdcControl5, 0x02)]
  let r := es8388SetAdcDacVolume .adc 0 0 r
  Stores.apply r
    [(es8388AdcPower, 0x09),
      (es8388DacControl24, 0x1E),
      (es8388DacControl25, 0x1E)]

def es8388Start (mode : Es8388Mode) (r : Regs) : Regs :=
  let prevData := regRead r es8388DacControl21
  let r :=
    if mode = .line then
      Stores.apply r
        [(es8388DacControl16, 0x09),
          (es8388DacControl17, 0x50),
          (es8388DacControl20, 0x50),
          (es8388DacControl21, 0xC0)]
    else
      regWrite es8388DacControl21 0x80 r
  let data := regRead r es8388DacControl21
  let r := if prevData ≠ data then
    Stores.apply r [(es8388ChipPower, 0xF0), (es8388ChipPower, 0x00)] else r
  let r := if mode = .adc ∨ mode = .dacAdc ∨ mode = .line then
    regWrite es8388AdcPower 0x00 r else r
  if mode = .dac ∨ mode = .dacAdc ∨ mode = .line then
    es8388SetVoiceMute 0 (regWrite es8388DacPower 0x3c r)
  else
    r

def es8388Stop (mode : Es8388Mode) (r : Regs) : Regs :=
  if mode = .line then
    Stores.apply r
      [(es8388DacControl21, 0x80),
        (es8388DacControl16, 0x00),
        (es8388DacControl17, 0x90),
        (es8388DacControl20, 0x90)]
  else
    let r := if mode = .dac ∨ mode = .dacAdc then
      es8388SetVoiceMute 1 (regWrite es8388DacPower 0x00 r) else r
    let r := if mode = .adc ∨ mode = .dacAdc then regWrite es8388AdcPower 0xFF r else r
    if mode = .dacAdc then regWrite es8388DacControl21 0x9C r else r

def es8388FmtSet (mode : Es8388Mode) (fmt : Es8388Format) (r : Regs) : Regs :=
  let r :=
    if mode = .adc ∨ mode = .dacAdc then
      let reg := regRead r es8388AdcControl4 &&& (0xfc : UInt8)
      regWrite es8388AdcControl4 (reg ||| fmt.toUInt8) r
    else
      r
  if mode = .dac ∨ mode = .dacAdc then
    let reg := regRead r es8388DacControl1 &&& (0xf9 : UInt8)
    regWrite es8388DacControl1 (reg ||| fmt.toUInt8 <<< 1) r
  else
    r

/-- The attenuation `es8388_volume_set` programs: `volume` is turned
around in 8 bits, then limited. -/
def realVol (volume : UInt8) : UInt8 :=
  let volume := 100 - volume
  let volume := if 100 < volume then 100 else volume
  UInt8.ofNat (192 * volume.toNat / 100)

def es8388VolumeSet (volume : UInt8) (r : Regs) : Regs :=
  Stores.apply r [(es8388DacControl4, realVol volume), (es8388DacControl5, realVol volume)]

def es8388VolumeGet (r : Regs) : UInt8 :=
  let volume := regRead r es8388DacControl24
  if volume = 0xff then 0
  else
    let volume := volume * 3
    if volume = 99 then 100 else volume

end Audio

end RtSpark
