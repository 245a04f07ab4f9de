import RtSpark.Common.CString
import RtSpark.Lcd.Model.Driver
/-!
# Fills, characters and images

The drawing functions of `hal_lcd.cpp`. Where one takes a buffer from
`rt_malloc` the outcome is an argument: a block with what it happens to
hold, or none, and then the pixels go out one by one.
-/

namespace RtSpark

namespace Lcd

/-! ## `lcd_fill` -/

/-- `LCD_CLEAR_SEND_NUMBER`. -/
def lcdClearSendNumber : ℕ := 5760

/-- The buffer of a fill: `size` bytes of the colour, high byte first. -/
def fillBuf (color : Color) (size : ℕ) : List UInt8 :=
  (List.range (size / 2)).flatMap fun _ => [highByte color, lowByte color]

/-- The fast fill, a buffer at a time. -/
def fillLoop (color : Color) (size sizeRemain : ℕ) : List BusWrite :=
  lcdWriteDataBuffer (fillBuf color size) ++
    if sizeRemain = 0 then []
    else if lcdClearSendNumber < sizeRemain then
      fillLoop color size (sizeRemain - lcdClearSendNumber)
    else fillLoop color sizeRemain 0
termination_by sizeRemain
decreasing_by
  · unfold lcdClearSendNumber
    omega
  · omega

/-- `lcd_fill`; `malloc` is whether the buffer is there. -/
def lcdFill (dev : LcdDev) (malloc : Bool) (xStart yStart xEnd yEnd : ℕ) (color : Color) :
    List BusWrite :=
  let size := (((xEnd : ℤ) - xStart) * ((yEnd : ℤ) - yStart) * 2 % 2 ^ 32).toNat
  lcdAddressSet dev xStart yStart xEnd yEnd ++
    if malloc then
      if lcdClearSendNumber < size then
        fillLoop color lcdClearSendNumber (size - lcdClearSendNumber)
      else
        fillLoop color size 0
    else
      (List.range (yEnd + 1 - yStart)).flatMap fun _ =>
        (List.range (xEnd + 1 - xStart)).flatMap fun _ => lcdWriteHalfWord color

/-- The block `lcd_fill` asks for. -/
def fillSize (xStart yStart xEnd yEnd : ℕ) : ℕ :=
  min (((xEnd : ℤ) - xStart) * ((yEnd : ℤ) - yStart) * 2 % 2 ^ 32).toNat lcdClearSendNumber

/-- Whether `rt_malloc` returns a block, by whether the heap has one left:
`rt_smem_alloc` has none of no bytes. -/
def rtMalloc (free : Bool) (size : ℕ) : Bool := if size = 0 then false else free

/-! ## `lcd_show_char` -/

/-- The tables of `drv_st7789_fonts.h`. -/
structure Fonts where
  asc2_1608 : ℕ → UInt8
  asc2_2412 : ℕ → UInt8
  asc2_3216 : ℕ → UInt8

/-- How one size of characters is stored: its table, where a character's
bytes start and how many there are, how many pixels each byte holds, and
which pixel of the cell bit `t` of byte `pos` is. -/
structure Face where
  table : ℕ → UInt8
  start : ℕ → ℕ
  count : ℕ
  num : ℕ → ℕ
  index : ℕ → ℕ → ℕ

/-- Whole bytes: sizes 16 and 32. -/
def byteFace (size : ℕ) (table : ℕ → UInt8) : Face where
  table := table
  start := fun data => data * size * (size / 2) / 8
  count := size * (size / 2) / 8
  num := fun _ => 8
  index := fun pos t => 8 * pos + t

/-- Size 24: a row of 12 pixels is a whole byte and a half. -/
def face2412 (size : ℕ) (table : ℕ → UInt8) : Face where
  table := table
  start := fun data => data * (size * 16) / 8
  count := size * 16 / 8
  num := fun pos => if pos % 2 = 0 then 8 else 4
  index := fun pos t => if pos % 2 = 0 then 12 * (pos / 2) + t else 8 + 12 * (pos / 2) + t

def face (fonts : Fonts) (size : ℕ) : Option Face :=
  if size = 16 then some (byteFace size fonts.asc2_1608)
  else if size = 24 then some (face2412 size fonts.asc2_2412)
  else if size = 32 then some (byteFace size fonts.asc2_3216)
  else none

/-- The pixels of a character, as `(index, colour)`: the bits of its bytes
from the top, `temp <<= 1` at each. -/
def charPixels (f : Face) (data : UInt8) (fore back : Color) : List (ℕ × Color) :=
  (List.range f.count).flatMap fun pos =>
    let temp := f.table (f.start data.toNat + pos)
    (List.range (f.num pos)).map fun t =>
      (f.index pos t, if (temp <<< UInt8.ofNat t) &&& 0x80 ≠ 0 then fore else back)

/-- `font_buf` once every pixel is in it. -/
def fontBuf (heap : Mem) (pixels : List (ℕ × Color)) : Mem :=
  Stores.apply heap (pixels.flatMap fun q =>
    [(2 * q.1, highByte q.2), (2 * q.1 + 1, lowByte q.2)])

/-- The early return of `lcd_show_char`. -/
def charOutside (x y size : ℕ) : Prop := lcdW - size / 2 < x ∨ lcdH - size < y

instance (x y size : ℕ) : Decidable (charOutside x y size) :=
  inferInstanceAs (Decidable (_ ∨ _))

/-- `lcd_show_char`; `malloc` is the block `font_buf` gets. -/
def lcdShowChar (dev : LcdDev) (fonts : Fonts) (fore back : Color) (malloc : Option Mem)
    (x y : ℕ) (data : UInt8) (size : ℕ) : List BusWrite :=
  if charOutside x y size then []
  else
    match face fonts size with
    | none => []
    | some f =>
      let pixels := charPixels f (data - 0x20) fore back
      lcdAddressSet dev x y (x + size / 2 - 1) (y + size - 1) ++
        match malloc with
        | none => pixels.flatMap fun q => lcdWriteHalfWord q.2
        | some heap => lcdWriteDataBuffer ((List.range (size * size)).map (fontBuf heap pixels))

/-- The two loops of `lcd_show_char` over a character: `temp` is shifted by
one at each pass of the inner one. `emit` is what is done with a pixel. -/
def charLoop {β : Type} (f : Face) (data : UInt8) (fore back : Color) (emit : β → ℕ → Color → β)
    (out : β) : β :=
  (List.range f.count).foldl
    (fun out pos => ((List.range (f.num pos)).foldl
      (fun (s : UInt8 × β) t =>
        (s.1 <<< 1, emit s.2 (f.index pos t) (if s.1 &&& 0x80 ≠ 0 then fore else back)))
      (f.table (f.start data.toNat + pos), out)).2)
    out

/-- Without memory a pixel is sent. -/
def emitPixel (ws : List BusWrite) (_ : ℕ) (c : Color) : List BusWrite := ws ++ lcdWriteHalfWord c

/-- With it the pixel's bytes are put in `font_buf`. -/
def emitStore (fontBuf : Mem) (i : ℕ) (c : Color) : Mem :=
  Function.update (Function.update fontBuf (2 * i) (highByte c)) (2 * i + 1) (lowByte c)

/-- `sizeof` the table of a size, which holds the characters from `' '` to
`'}'`. -/
def fontTableLen (size : ℕ) : ℕ :=
  if size = 16 then 1504 else if size = 24 then 4512 else if size = 32 then 6016 else 0

/-- The indexes of its table that `lcd_show_char` reads. -/
def charReads (fonts : Fonts) (x y : ℕ) (data : UInt8) (size : ℕ) : List ℕ :=
  if charOutside x y size then []
  else
    match face fonts size with
    | none => []
    | some f => (List.range f.count).map fun pos => f.start (data - 0x20).toNat + pos

/-! ## `lcd_show_chinese` -/

structure GlyphState where
  x : ℕ
  y : ℕ
  /-- The points drawn so far. -/
  points : List (ℕ × ℕ)

/-- The body of the drawing loop: the eight pixels of byte `j`. -/
def glyphPass (x0 fsize : ℕ) (buf : Mem) (s : GlyphState) (j : ℕ) : GlyphState :=
  let points := ((List.range 8).filter fun i => (buf j).toNat.testBit i).map fun i =>
    ((s.x + i) % 2 ^ 16, s.y)
  let x : ℕ := (s.x + 8) % 2 ^ 16
  if (x : ℤ) - x0 = fsize then
    { x := x0, y := (s.y + 1) % 2 ^ 16, points := s.points ++ points }
  else
    { x := x, y := s.y, points := s.points ++ points }

/-- The points a glyph draws at `(x, y)`. -/
def glyphPoints (x y fsize : ℕ) (buf : Mem) : List (ℕ × ℕ) :=
  ((List.range (fsize * fsize / 8)).foldl (glyphPass x fsize buf) ⟨x, y, []⟩).points

/-- Where the font partition holds a character's glyph: 190 to a first
byte, counted in bytes. -/
def fontAddr (byteHigh byteLow : UInt8) (fontUsed : ℕ) : ℕ :=
  let byteLow := if byteLow < 0x7F then byteLow - 0x40 else byteLow - 0x41
  (190 * (byteHigh - 0x81).toNat + byteLow.toNat) * fontUsed

/-- `lcd_show_chinese`; `flashRead` is the block a read of the font
partition fills, or none where it fails. -/
def lcdShowChinese (dev : LcdDev) (flashRead : ℕ → ℕ → Option Mem) (x y : ℕ)
    (byteHigh byteLow : UInt8) (fsize : ℕ) : List BusWrite :=
  let fontUsed := fsize * fsize / 8
  match flashRead (fontAddr byteHigh byteLow fontUsed) fontUsed with
  | none => []
  | some buf => (glyphPoints x y fsize buf).flatMap fun q => lcdDrawPoint dev q.1 q.2

/-- And its result: `-RT_ERROR` where the read fails. -/
def lcdShowChineseErr (flashRead : ℕ → ℕ → Option Mem) (byteHigh byteLow : UInt8) (fsize : ℕ) :
    ℤ :=
  let fontUsed := fsize * fsize / 8
  match flashRead (fontAddr byteHigh byteLow fontUsed) fontUsed with
  | none => -1
  | some _ => 0

/-! ## `lcd_show_image` -/

/-- The window's far corner is `x + length - 1`, in 16 bits. -/
def lcdShowImage (dev : LcdDev) (x y length wide : ℕ) (p : Mem) : List BusWrite :=
  if lcdW < x + length ∨ lcdH < y + wide then []
  else
    lcdAddressSet dev x y (x + length + (2 ^ 16 - 1)) (y + wide + (2 ^ 16 - 1)) ++
      lcdWriteDataBuffer ((List.range (length * wide * 2)).map p)

end Lcd

end RtSpark
