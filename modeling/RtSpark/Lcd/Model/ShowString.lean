import RtSpark.Lcd.Model.Draw
import RtSpark.HalDef
/-!
# Text on the panel

`hal::lcd_show_string`: the formatted text is in `buf`, and one loop moves
a 16-bit cursor over the panel. What it draws is the list of calls it
makes; `TextCall.writes` is what each of them sends.
-/

namespace RtSpark

namespace Lcd

/-- A call the text loop makes. -/
inductive TextCall where
  | clear (color : Color)
  | showChar (x y : ℕ) (data : UInt8) (size : ℕ)
  | showChinese (x y : ℕ) (byteHigh byteLow : UInt8) (size : ℕ)
deriving DecidableEq

structure ShowState where
  p : ℕ
  x : ℕ
  y : ℕ
  /-- The calls made so far. -/
  calls : List TextCall
deriving DecidableEq

/-- `if (x > LCD_W - size / 2)`: the row is full. -/
def ShowState.wrapX (size : ℕ) (s : ShowState) : ShowState :=
  if lcdW - size / 2 < s.x then { s with x := 0, y := (s.y + size) % 2 ^ 16 } else s

/-- `if (y > LCD_H - size)`: the panel is, and starts over. -/
def ShowState.wrapY (size : ℕ) (s : ShowState) : ShowState :=
  if lcdH - size < s.y then { s with x := 0, y := 0, calls := s.calls ++ [.clear red] } else s

/-- The bytes of `buf`. -/
def textSize : ℕ := maxCharsDisp + 1

/-- `buf`: the text, cleared memory to its end, and what lies behind. -/
def textBuf (text : CString textSize) (beyond : Mem) : Mem :=
  Mem.buffer textSize text.chars beyond

/-- One pass of the loop of `hal::lcd_show_string`. -/
def showPass (buf : Mem) (size : ℕ) (s : ShowState) : Option ShowState :=
  if buf s.p ≠ 0 then
    let s := (s.wrapX size).wrapY size
    if buf s.p = cr ∧ buf (s.p + 1) = lf then
      some { s with p := s.p + 2, x := 0, y := (s.y + size) % 2 ^ 16 }
    else if buf s.p = lf ∨ buf s.p = cr then
      some { s with p := s.p + 1, x := 0, y := (s.y + size) % 2 ^ 16 }
    else if buf s.p < 0x80 then
      if buf s.p = 0x20 then
        some { s with p := s.p + 1, x := (s.x + size / 2) % 2 ^ 16 }
      else
        some {
          p := s.p + 1
          x := (s.x + size / 2) % 2 ^ 16
          y := s.y
          calls := s.calls ++ [.showChar s.x s.y (buf s.p) size] }
    else if lcdW < s.x + size then
      -- a double-byte character does not fit: the row ends, it is not consumed
      some { s with x := 0, y := (s.y + size) % 2 ^ 16 }
    else
      some {
        p := s.p + 2
        x := (s.x + size) % 2 ^ 16
        y := s.y
        calls := s.calls ++ [.showChinese s.x s.y (buf s.p) (buf (s.p + 1)) size] }
  else
    none

/-- The indexes of `buf` one pass reads, its guard included: the next byte
behind a CR, and as the second one of a character that is drawn. -/
def showReads (buf : Mem) (size : ℕ) (s : ShowState) : List ℕ :=
  if buf s.p = cr ∨ 0x80 ≤ buf s.p ∧ ((s.wrapX size).wrapY size).x + size ≤ lcdW then
    [s.p, s.p + 1]
  else
    [s.p]

/-! ## The formatted text -/

/-- `rt_vsnprintf(buf, sizeof(buf), ..)`: as many of the formatted bytes as
fit beside the NUL, in cleared memory. -/
def formatBuf (formatted : List UInt8) (beyond : Mem) : Mem :=
  Mem.buffer textSize (formatted.take maxCharsDisp) beyond

/-- What `buf` holds as a string. -/
def formatText (formatted : List UInt8) : List UInt8 :=
  (formatted.take maxCharsDisp).takeWhile fun b => b ≠ 0

/-- `hal::lcd_show_string`: its result, and the calls it makes in at most
`passes` passes of its loop. -/
def lcdShowString (passes x y size : ℕ) (text : CString textSize) (beyond : Mem) :
    Int × List TextCall :=
  if size ≠ 16 ∧ size ≠ 24 ∧ size ≠ 32 then (-1, [])
  else (0, (Loop.run (showPass (textBuf text beyond) size) passes ⟨0, x, y, []⟩).calls)

/-- What a call sends, with the colours, the font tables, the flash and the
heap it finds. -/
def TextCall.writes (dev : LcdDev) (fonts : Fonts) (fore back : Color) (malloc : Option Mem)
    (flashRead : ℕ → ℕ → Option Mem) : TextCall → List BusWrite
  | .clear color => lcdClear dev color
  | .showChar x y data size => lcdShowChar dev fonts fore back malloc x y data size
  | .showChinese x y byteHigh byteLow size =>
    lcdShowChinese dev flashRead x y byteHigh byteLow size

end Lcd

end RtSpark
