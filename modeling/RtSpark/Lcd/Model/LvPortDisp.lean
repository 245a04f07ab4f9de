import RtSpark.Lcd.Model.Driver
/-!
# The display port of LVGL

`disp_flush` of `lv_port_disp.cpp`: LVGL hands over an area with both its
corners in it and the colours of its pixels, and the driver copies them.
-/

namespace RtSpark

namespace Lcd

/-- `lv_area_t`, whose coordinates are signed. -/
structure LvArea where
  x1 : ℤ
  y1 : ℤ
  x2 : ℤ
  y2 : ℤ

/-- A coordinate as the driver's argument, of 16 bits. -/
def coord (c : ℤ) : ℕ := (c % 2 ^ 16).toNat

def dispFlush (dev : LcdDev) (area : LvArea) (colorP : ℕ → Color) : List BusWrite :=
  lcdFillArray dev (coord area.x1) (coord area.y1) (coord area.x2) (coord area.y2) colorP

end Lcd

end RtSpark
