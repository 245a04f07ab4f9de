import RtSpark.Common.Raster
/-!
# The panel on its bus

The ST7789 behind the 8-bit bus: a memory of pixels, a column and a row
window, and a write pointer. What the driver stores to the controller's
addresses arrives as a list of bus writes; a 16-bit store to `_u16_RAM` is
two bytes on the bus, the low one first.

A pixel of the panel is a cell below `LCD_W` and `LCD_H`. A window may
name cells beyond them: what is stored there does not show.
-/

namespace RtSpark

namespace Lcd

/-- `LCD_W`. -/
def lcdW : ℕ := 240

/-- `LCD_H`. -/
def lcdH : ℕ := 240

@[simp] theorem lcdW_eq : lcdW = 240 := rfl
@[simp] theorem lcdH_eq : lcdH = 240 := rfl

/-- An RGB565 value. -/
abbrev Color := UInt16

/-- The bytes of a 16-bit value. -/
def highByte (c : UInt16) : UInt8 := (c >>> 8).toUInt8

def lowByte (c : UInt16) : UInt8 := c.toUInt8

/-- Two bytes as one value, the high one first. -/
def ofBytes (high low : UInt8) : UInt16 := (high.toUInt16 <<< 8) ||| low.toUInt16

/-- A store to the controller. -/
inductive BusWrite where
  | reg (b : UInt8)
  | ram8 (b : UInt8)
  | ram16 (w : UInt16)
deriving DecidableEq

structure Panel where
  frame : ℕ × ℕ → Color
  xs : ℕ
  xe : ℕ
  ys : ℕ
  ye : ℕ
  cx : ℕ
  cy : ℕ
  /-- The command in force, and the parameter bytes it has taken. -/
  cmd : UInt8
  args : List UInt8
  /-- The first byte of a pixel, until the second arrives. -/
  half : Option UInt8

namespace Panel

/-- A command byte. `RAMWR` takes the pointer to the window's origin. -/
def command (p : Panel) (b : UInt8) : Panel :=
  let p := { p with cmd := b, args := [], half := none }
  if b = 0x2C then { p with cx := p.xs, cy := p.ys } else p

/-- The pointer moves on: along the row, to the next row, and from the
window's last cell to its first. -/
def advance (p : Panel) : Panel :=
  if p.cx = p.xe then
    { p with cx := p.xs, cy := if p.cy = p.ye then p.ys else p.cy + 1 }
  else
    { p with cx := p.cx + 1 }

/-- A pixel is stored under the pointer. -/
def store (p : Panel) (c : Color) : Panel :=
  { p with frame := Function.update p.frame (p.cx, p.cy) c }.advance

/-- A data byte: a parameter of `CASET` or `RASET`, or half a pixel. -/
def data (p : Panel) (b : UInt8) : Panel :=
  if p.cmd = 0x2A then
    match p.args ++ [b] with
    | [a₀, a₁, a₂, a₃] => { p with
        args := [a₀, a₁, a₂, a₃]
        xs := (ofBytes a₀ a₁).toNat
        xe := (ofBytes a₂ a₃).toNat }
    | args => { p with args := args }
  else if p.cmd = 0x2B then
    match p.args ++ [b] with
    | [a₀, a₁, a₂, a₃] => { p with
        args := [a₀, a₁, a₂, a₃]
        ys := (ofBytes a₀ a₁).toNat
        ye := (ofBytes a₂ a₃).toNat }
    | args => { p with args := args }
  else if p.cmd = 0x2C then
    match p.half with
    | none => { p with half := some b }
    | some high => { p with half := none }.store (ofBytes high b)
  else
    p

def write (p : Panel) : BusWrite → Panel
  | .reg b => p.command b
  | .ram8 b => p.data b
  | .ram16 w => (p.data (lowByte w)).data (highByte w)

def run (p : Panel) (ws : List BusWrite) : Panel := ws.foldl write p

end Panel

end Lcd

end RtSpark
