import RtSpark.Common.Loop
import RtSpark.Lcd.Model.Panel
import Mathlib.Algebra.Group.Nat.Defs
import Mathlib.Algebra.Group.Int.Defs
/-!
# The panel driver

`drv_st7789.c`, as the bus writes its functions make. Coordinates are
cut to 16 bits where they reach the bus. `LCD_SetCursor` compares the id
with the decimal 8552, so on the panel the driver knows it writes nothing.
-/

namespace RtSpark

namespace Lcd

/-! ## The device -/

/-- `_lcd_dev`. -/
structure LcdDev where
  width : UInt16
  height : UInt16
  id : UInt16
  dir : UInt8
  wramcmd : UInt16
  setxcmd : UInt16
  setycmd : UInt16
deriving DecidableEq

/-- `LCD_Display_Dir`: both directions set the same. -/
def lcdDisplayDir (dev : LcdDev) (dir : UInt8) : LcdDev :=
  let dev := { dev with dir := dir, width := 240, height := 240 }
  if dev.id = 0x8552 then { dev with wramcmd := 0x2C, setxcmd := 0x2A, setycmd := 0x2B } else dev

def white : Color := 0xFFFF
def red : Color := 0xF800

/-! ## Bus writes -/

/-- `LCD_WriteRAM_Prepare`. -/
def lcdWriteRamPrepare (dev : LcdDev) : List BusWrite := [.reg dev.wramcmd.toUInt8]

def lcdSetCursor (dev : LcdDev) (xpos ypos : ℕ) : List BusWrite :=
  let x := UInt16.ofNat xpos
  let y := UInt16.ofNat ypos
  if dev.id = 8552 then
    [.reg dev.setxcmd.toUInt8, .ram16 (x >>> 8), .ram16 (x &&& 0xFF),
      .reg dev.setycmd.toUInt8, .ram16 (y >>> 8), .ram16 (y &&& 0xFF)]
  else
    []

def changeByteOrder (word : UInt16) : UInt16 :=
  ((word <<< 8) &&& (0xff00 : UInt16)) ||| ((word >>> 8) &&& (0x00ff : UInt16))

def lcdWriteHalfWord (da : UInt16) : List BusWrite := [.ram16 (changeByteOrder da)]

def lcdWriteDataBuffer (sendBuf : List UInt8) : List BusWrite := sendBuf.map .ram8

def lcdAddressSet (dev : LcdDev) (x1 y1 x2 y2 : ℕ) : List BusWrite :=
  let byte (n : ℕ) : List BusWrite :=
    [.ram8 (highByte (UInt16.ofNat n)), .ram8 (lowByte (UInt16.ofNat n))]
  (if dev.id = 0x8552 then
    [.reg dev.setxcmd.toUInt8] ++ byte x1 ++ byte x2 ++
      [.reg dev.setycmd.toUInt8] ++ byte y1 ++ byte y2
  else
    []) ++ lcdWriteRamPrepare dev

/-! ## Drawing -/

def lcdClear (dev : LcdDev) (color : Color) : List BusWrite :=
  let totalpoint := dev.width.toNat * dev.height.toNat
  lcdSetCursor dev 0 0 ++ lcdWriteRamPrepare dev ++ List.replicate totalpoint (.ram16 color)

def lcdDrawPoint (dev : LcdDev) (x y : ℕ) : List BusWrite :=
  lcdAddressSet dev x y x y ++ lcdWriteHalfWord white

/-- The buffer is read once, in order: `*pixel++`. -/
def lcdFillArray (dev : LcdDev) (xStart yStart xEnd yEnd : ℕ) (pcolor : ℕ → Color) :
    List BusWrite :=
  let cols := xEnd + 1 - xStart
  lcdAddressSet dev xStart yStart xEnd yEnd ++
    (List.range (yEnd + 1 - yStart)).flatMap fun row =>
      (List.range cols).flatMap fun xOffset =>
        let pixel := pcolor (row * cols + xOffset)
        [.ram8 (highByte pixel), .ram8 (lowByte pixel)]

/-- The variables of its loops: both counters are 16 bits wide, and `pixel`
is how far the pointer into the buffer has moved. -/
structure FillArrayState where
  cycleY : ℕ
  xOffset : ℕ
  pixel : ℕ
  /-- The elements of the buffer read so far. -/
  reads : List ℕ
  writes : List BusWrite

/-- One pass of the inner loop. -/
def fillArrayCol (xStart xEnd : ℕ) (pcolor : ℕ → Color) (s : FillArrayState) :
    Option FillArrayState :=
  if xStart + s.xOffset ≤ xEnd then
    some { s with
      xOffset := (s.xOffset + 1) % 2 ^ 16
      pixel := s.pixel + 1
      reads := s.reads ++ [s.pixel]
      writes := s.writes ++ [.ram8 (highByte (pcolor s.pixel)), .ram8 (lowByte (pcolor s.pixel))] }
  else
    none

/-- One pass of the outer one, the inner one for as many passes as its
counter can tell apart. -/
def fillArrayRow (xStart xEnd yEnd : ℕ) (pcolor : ℕ → Color) (s : FillArrayState) :
    Option FillArrayState :=
  if s.cycleY ≤ yEnd then
    let s := Loop.run (fillArrayCol xStart xEnd pcolor) (2 ^ 16) { s with xOffset := 0 }
    some { s with cycleY := (s.cycleY + 1) % 2 ^ 16 }
  else
    none

/-! ## The graphic operations -/

def lcdFastDrawPoint (dev : LcdDev) (color : Color) (x y : ℤ) : List BusWrite :=
  (if dev.id = 0x8552 then
    [.reg dev.setxcmd.toUInt8,
      .ram16 (UInt16.ofInt (x >>> (8 : ℕ))), .ram16 (UInt16.ofInt (x % 256)),
      .reg dev.setycmd.toUInt8,
      .ram16 (UInt16.ofInt (y >>> (8 : ℕ))), .ram16 (UInt16.ofInt (y % 256))]
  else
    []) ++ [.reg dev.wramcmd.toUInt8, .ram16 color]

structure LineState where
  t : ℕ
  xerr : ℤ
  yerr : ℤ
  uRow : ℤ
  uCol : ℤ
  /-- The points drawn so far. -/
  points : List (ℤ × ℤ)
deriving DecidableEq

/-- One pass of the loop of `LCD_DrawLine`; `t` is a 16-bit counter. -/
def linePass (deltaX deltaY distance incx incy : ℤ) (s : LineState) : Option LineState :=
  if (s.t : ℤ) ≤ distance + 1 then
    let xerr := s.xerr + deltaX
    let yerr := s.yerr + deltaY
    some {
      t := (s.t + 1) % 2 ^ 16
      xerr := if distance < xerr then xerr - distance else xerr
      yerr := if distance < yerr then yerr - distance else yerr
      uRow := if distance < xerr then s.uRow + incx else s.uRow
      uCol := if distance < yerr then s.uCol + incy else s.uCol
      points := s.points ++ [(s.uRow, s.uCol)] }
  else
    none

/-- The points of the line, in the order they are drawn. -/
def linePoints (x1 y1 x2 y2 : ℕ) : List (ℤ × ℤ) :=
  let dx : ℤ := x2 - x1
  let dy : ℤ := y2 - y1
  let distance := max dx.natAbs dy.natAbs
  (Loop.run (linePass dx.natAbs dy.natAbs distance dx.sign dy.sign) (distance + 3)
    ⟨0, 0, 0, x1, y1, []⟩).points

def lcdDrawLine (dev : LcdDev) (color : Color) (x1 y1 x2 y2 : ℕ) : List BusWrite :=
  (linePoints x1 y1 x2 y2).flatMap fun q => lcdFastDrawPoint dev color q.1 q.2

def lcdHLine (dev : LcdDev) (color : Color) (x1 x2 y : ℕ) : List BusWrite :=
  lcdDrawLine dev color x1 y x2 y

def lcdVLine (dev : LcdDev) (color : Color) (x y1 y2 : ℕ) : List BusWrite :=
  lcdDrawLine dev color x y1 x y2

def lcdBlitLine (dev : LcdDev) (pixel : List Color) (x y : ℕ) : List BusWrite :=
  lcdSetCursor dev x y ++ lcdWriteRamPrepare dev ++ pixel.map .ram16

/-! ## Start-up -/

/-- The panel settings `drv_lcd_init` sends, each command with its
parameters. -/
def initSequence : List (UInt8 × List UInt8) :=
  [(0x36, [0x00]),
    (0x3A, [0x65]),
    (0xB2, [0x0C, 0x0C, 0x00, 0x33, 0x33]),
    (0xB7, [0x35]),
    (0xBB, [0x37]),
    (0xC0, [0x2C]),
    (0xC2, [0x01]),
    (0xC3, [0x12]),
    (0xC4, [0x20]),
    (0xC6, [0x0F]),
    (0xD0, [0xA4, 0xA1]),
    (0xE0, [0xD0, 0x04, 0x0D, 0x11, 0x13, 0x2B, 0x3F, 0x54, 0x4C, 0x18, 0x0D, 0x0B, 0x1F, 0x23]),
    (0xE1, [0xD0, 0x04, 0x0C, 0x11, 0x13, 0x2C, 0x3F, 0x44, 0x51, 0x2F, 0x1F, 0x1F, 0x20, 0x23]),
    (0x21, []),
    (0x35, [0x00]),
    (0x11, []),
    (0x29, [])]

/-- `drv_lcd_init`, on a panel that answers with `id`: the device it leaves
and what it writes. -/
def drvLcdInit (id : UInt16) : LcdDev × List BusWrite :=
  let dev := lcdDisplayDir ⟨0, 0, id, 0, 0, 0, 0⟩ 0
  (dev, [.reg 0x04] ++
    (if id = 0x8552 then
      initSequence.flatMap fun setting => .reg setting.1 :: setting.2.map .ram8
    else
      []) ++ lcdClear dev white)

/-- The device on the panel the driver knows. -/
def st7789 : LcdDev := (drvLcdInit 0x8552).1

end Lcd

end RtSpark
