import RtSpark.Lcd.Bus
import RtSpark.Lcd.Model.Draw
/-!
# What is on the bus

The bus to the panel is eight bits wide: a store of 16 bits is two data
bytes, the low one first. The panel sees nothing but these bytes
(`run_eq_of_busBytes`), so two ways to draw the same are compared by them.
-/

namespace RtSpark

namespace Lcd

/-- A byte on the bus, with the select line beside it. -/
inductive BusByte where
  | command (b : UInt8)
  | data (b : UInt8)
deriving DecidableEq

def BusWrite.bytes : BusWrite → List BusByte
  | .reg b => [.command b]
  | .ram8 b => [.data b]
  | .ram16 w => [.data (lowByte w), .data (highByte w)]

/-- The bytes of some writes. -/
def busBytes (ws : List BusWrite) : List BusByte := ws.flatMap BusWrite.bytes

/-- The bytes of some pixels, the high one first. -/
def pixelBytes (cs : List Color) : List BusByte :=
  cs.flatMap fun c => [.data (highByte c), .data (lowByte c)]

variable {p : Panel} {ws vs : List BusWrite}

@[simp] theorem busBytes_append (ws vs : List BusWrite) :
    busBytes (ws ++ vs) = busBytes ws ++ busBytes vs := List.flatMap_append

@[simp] theorem pixelBytes_append (cs ds : List Color) :
    pixelBytes (cs ++ ds) = pixelBytes cs ++ pixelBytes ds := List.flatMap_append

@[simp] theorem length_pixelBytes (cs : List Color) : (pixelBytes cs).length = 2 * cs.length := by
  induction cs with
  | nil => rfl
  | cons c cs ih =>
    have hcons : (pixelBytes (c :: cs)).length = (pixelBytes cs).length + 2 := rfl
    rw [hcons, ih, List.length_cons]
    omega

/-- `lcd_write_half_word` sends a pixel. -/
theorem busBytes_halfWords (cs : List Color) :
    busBytes (cs.flatMap lcdWriteHalfWord) = pixelBytes cs := by
  have hone : ∀ c, busBytes (lcdWriteHalfWord c) = [.data (highByte c), .data (lowByte c)] := by
    intro c
    show [BusByte.data (lowByte (changeByteOrder c)), .data (highByte (changeByteOrder c))] = _
    rw [lowByte_changeByteOrder, highByte_changeByteOrder]
  induction cs with
  | nil => rfl
  | cons c cs ih =>
    rw [List.flatMap_cons, busBytes_append, ih, hone]
    rfl

/-- So does `lcd_write_data_buffer`, from a buffer with its two bytes. -/
theorem busBytes_dataBuffer (cs : List Color) :
    busBytes (lcdWriteDataBuffer (cs.flatMap fun c => [highByte c, lowByte c])) =
      pixelBytes cs := by
  induction cs with
  | nil => rfl
  | cons c cs ih =>
    rw [List.flatMap_cons, lcdWriteDataBuffer, List.map_append, busBytes_append]
    exact congrArg _ ih

/-- **The panel sees the bytes alone.** -/
theorem run_eq_of_busBytes (p : Panel) (h : busBytes ws = busBytes vs) : p.run ws = p.run vs := by
  have hrun : ∀ (ws : List BusWrite) (p : Panel), p.run ws = (busBytes ws).foldl
      (fun p b => match b with
        | .command b => p.command b
        | .data b => p.data b) p := by
    intro ws
    induction ws with
    | nil => exact fun _ => rfl
    | cons w ws ih =>
      intro p
      rw [Panel.run_cons, ih, show w :: ws = [w] ++ ws from rfl, busBytes_append,
        List.foldl_append]
      cases w <;> rfl
  rw [hrun, hrun, h]

end Lcd

end RtSpark
