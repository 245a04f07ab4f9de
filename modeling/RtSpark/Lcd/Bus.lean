import RtSpark.Lcd.Model.Driver
import Mathlib.Tactic.IntervalCases
/-!
# What the panel makes of the bus

`run_addressSet` is the window a call opens, `run_pixels` what a list of
pixels does behind it: they are stored through the window, one cell after
the other. Both byte orders are read off `IsPixel`: a 16-bit store of a
colour shows the colour with its bytes exchanged.
-/

namespace RtSpark

namespace Lcd

variable {c : Color} {p : Panel} {w : Window} {k : ℕ} {ws vs : List BusWrite}

/-! ## Bytes -/

theorem ofBytes_bytes (c : UInt16) : ofBytes (highByte c) (lowByte c) = c := by
  refine UInt16.toBitVec_inj.1 ?_
  ext i hi
  simp only [ofBytes, highByte, lowByte, UInt16.toBitVec_or, UInt16.toBitVec_shiftLeft,
    UInt8.toBitVec_toUInt16, UInt16.toBitVec_toUInt8, UInt16.toBitVec_shiftRight]
  interval_cases i <;> simp

/-- Low byte first, the value arrives with its bytes exchanged. -/
theorem ofBytes_swap (c : UInt16) : ofBytes (lowByte c) (highByte c) = changeByteOrder c := by
  refine UInt16.toBitVec_inj.1 ?_
  ext i hi
  simp only [ofBytes, highByte, lowByte, changeByteOrder, UInt16.toBitVec_or,
    UInt16.toBitVec_and, UInt16.toBitVec_shiftLeft, UInt8.toBitVec_toUInt16,
    UInt16.toBitVec_toUInt8, UInt16.toBitVec_shiftRight]
  interval_cases i <;> simp

theorem highByte_changeByteOrder (c : UInt16) : highByte (changeByteOrder c) = lowByte c := by
  refine UInt8.toBitVec_inj.1 ?_
  ext i hi
  simp only [highByte, lowByte, changeByteOrder, UInt16.toBitVec_or, UInt16.toBitVec_and,
    UInt16.toBitVec_shiftLeft, UInt16.toBitVec_toUInt8, UInt16.toBitVec_shiftRight]
  interval_cases i <;> simp

theorem lowByte_changeByteOrder (c : UInt16) : lowByte (changeByteOrder c) = highByte c := by
  refine UInt8.toBitVec_inj.1 ?_
  ext i hi
  simp only [highByte, lowByte, changeByteOrder, UInt16.toBitVec_or, UInt16.toBitVec_and,
    UInt16.toBitVec_shiftLeft, UInt16.toBitVec_toUInt8, UInt16.toBitVec_shiftRight]
  interval_cases i <;> simp

/-! ## Runs -/

namespace Panel

@[simp] theorem run_nil (p : Panel) : p.run [] = p := rfl

@[simp] theorem run_cons (p : Panel) (b : BusWrite) (ws : List BusWrite) :
    p.run (b :: ws) = (p.write b).run ws := rfl

theorem run_append (p : Panel) (ws vs : List BusWrite) : p.run (ws ++ vs) = (p.run ws).run vs :=
  List.foldl_append

/-- What each of the calls keeps, all of them keep. -/
theorem run_flatMap {α : Type*} {P : Panel → Prop} {l : List α} {f : α → List BusWrite}
    (hkeep : ∀ a ∈ l, ∀ p : Panel, P p → P (p.run (f a))) (h : P p) : P (p.run (l.flatMap f)) := by
  induction l generalizing p with
  | nil => exact h
  | cons a l ih =>
    have hfirst := hkeep a (List.mem_cons_self ..) p h
    rw [List.flatMap_cons, run_append]
    exact ih (fun a' ha' => hkeep a' (List.mem_cons_of_mem _ ha')) hfirst

/-- The two windows, as they stand. -/
structure Opens (p : Panel) (w : Window) : Prop where
  xs : p.xs = w.x0
  xe : p.xe = w.x1
  ys : p.ys = w.y0
  ye : p.ye = w.y1

/-- The panel takes pixels, and the next one goes to the window's `k`-th
cell. -/
structure Writing (p : Panel) (w : Window) (k : ℕ) : Prop where
  opens : p.Opens w
  cmd : p.cmd = 0x2C
  half : p.half = none
  pointer : (p.cx, p.cy) = w.pos k

/-- `RAMWR` starts at the window's origin. -/
theorem writing_command (h : p.Opens w) :
    (p.command 0x2C).Writing w 0 ∧ (p.command 0x2C).frame = p.frame := by
  obtain ⟨hxs, hxe, hys, hye⟩ := h
  refine ⟨⟨⟨hxs, hxe, hys, hye⟩, rfl, rfl, ?_⟩, rfl⟩
  rw [Window.pos_zero, ← hxs, ← hys]
  rfl

/-- The pointer moves as the window says. -/
theorem advance_pointer (h : p.Opens w) :
    (p.advance.cx, p.advance.cy) = w.next (p.cx, p.cy) := by
  obtain ⟨hxs, hxe, hys, hye⟩ := h
  unfold advance Window.next
  by_cases hcol : p.cx = p.xe
  · rw [if_pos hcol, if_pos (hcol.trans hxe), hxs, hys, hye]
  · rw [if_neg hcol, if_neg fun h => hcol (h.trans hxe.symm)]

theorem advance_opens (h : p.Opens w) : p.advance.Opens w := by
  unfold advance
  split <;> exact ⟨h.xs, h.xe, h.ys, h.ye⟩

/-- **Two bytes are a pixel**, stored under the pointer. -/
theorem writing_pixel (h : p.Writing w k) (a b : UInt8) :
    ((p.data a).data b).Writing w (k + 1) ∧
      ((p.data a).data b).frame = Function.update p.frame (w.pos k) (ofBytes a b) := by
  obtain ⟨hopens, hcmd, hhalf, hpointer⟩ := h
  have hfirst : p.data a = { p with half := some a } := by
    unfold data
    rw [hcmd, hhalf]
    rfl
  have hsecond : (p.data a).data b = { p with half := none }.store (ofBytes a b) := by
    rw [hfirst]
    unfold data
    simp only [hcmd]
    rfl
  have hopens' : ({ p with
      frame := Function.update p.frame (p.cx, p.cy) (ofBytes a b)
      half := none } : Panel).Opens w :=
    ⟨hopens.xs, hopens.xe, hopens.ys, hopens.ye⟩
  have hframe : ((p.data a).data b).frame = Function.update p.frame (p.cx, p.cy) (ofBytes a b) := by
    rw [hsecond]
    unfold store advance
    split <;> rfl
  refine ⟨⟨?_, ?_, ?_, ?_⟩, by rw [hframe, hpointer]⟩
  · rw [hsecond]
    exact advance_opens hopens'
  · rw [hsecond]
    unfold store advance
    split <;> exact hcmd
  · rw [hsecond]
    unfold store advance
    split <;> rfl
  · rw [hsecond, ← Window.next_pos, ← hpointer]
    exact advance_pointer hopens'

end Panel

/-! ## Pixels -/

/-- The writes are the two bytes of one pixel that shows the colour. -/
def IsPixel (ws : List BusWrite) (c : Color) : Prop :=
  ∃ a b, ofBytes a b = c ∧ ∀ p : Panel, p.run ws = (p.data a).data b

theorem isPixel_ram16 (c : Color) : IsPixel [.ram16 c] (changeByteOrder c) :=
  ⟨lowByte c, highByte c, ofBytes_swap c, fun _ => rfl⟩

/-- `lcd_write_half_word` undoes the exchange. -/
theorem isPixel_halfWord (c : Color) : IsPixel (lcdWriteHalfWord c) c := by
  refine ⟨highByte c, lowByte c, ofBytes_bytes c, fun p => ?_⟩
  show (p.data (lowByte (changeByteOrder c))).data (highByte (changeByteOrder c)) = _
  rw [lowByte_changeByteOrder, highByte_changeByteOrder]

/-- **Pixels are stored through the window**, one cell after the other. -/
theorem run_pixels {α : Type*} {enc : α → List BusWrite} {val : α → Color}
    (henc : ∀ v, IsPixel (enc v) (val v)) (h : p.Writing w k) (vs : List α) :
    (p.run (vs.flatMap enc)).Writing w (k + vs.length) ∧
      (p.run (vs.flatMap enc)).frame = Stores.apply p.frame (w.stores k (vs.map val)) := by
  induction vs generalizing p k with
  | nil => exact ⟨h, rfl⟩
  | cons v vs ih =>
    obtain ⟨a, b, hval, hrun⟩ := henc v
    obtain ⟨hwriting, hframe⟩ := Panel.writing_pixel h a b
    rw [List.flatMap_cons, Panel.run_append, hrun]
    obtain ⟨hwriting', hframe'⟩ := ih hwriting
    refine ⟨?_, ?_⟩
    · rw [List.length_cons, show k + (vs.length + 1) = k + 1 + vs.length by omega]
      exact hwriting'
    · rw [hframe', hframe, hval, List.map_cons, Window.stores, Stores.apply_cons]

/-! ## The driver's device -/

/-- Four bytes set the column window. -/
theorem run_caset (p : Panel) (a₀ a₁ a₂ a₃ : UInt8) :
    ((((p.command 0x2A).data a₀).data a₁).data a₂).data a₃ =
      { p with
        xs := (ofBytes a₀ a₁).toNat, xe := (ofBytes a₂ a₃).toNat
        cmd := 0x2A, args := [a₀, a₁, a₂, a₃], half := none } := rfl

/-- And four the row window. -/
theorem run_raset (p : Panel) (a₀ a₁ a₂ a₃ : UInt8) :
    ((((p.command 0x2B).data a₀).data a₁).data a₂).data a₃ =
      { p with
        ys := (ofBytes a₀ a₁).toNat, ye := (ofBytes a₂ a₃).toNat
        cmd := 0x2B, args := [a₀, a₁, a₂, a₃], half := none } := rfl

/-- The bus writes that open a window. -/
theorem lcdAddressSet_st7789 (x1 y1 x2 y2 : ℕ) :
    lcdAddressSet st7789 x1 y1 x2 y2 =
      [.reg 0x2A, .ram8 (highByte (UInt16.ofNat x1)), .ram8 (lowByte (UInt16.ofNat x1)),
        .ram8 (highByte (UInt16.ofNat x2)), .ram8 (lowByte (UInt16.ofNat x2)),
        .reg 0x2B, .ram8 (highByte (UInt16.ofNat y1)), .ram8 (lowByte (UInt16.ofNat y1)),
        .ram8 (highByte (UInt16.ofNat y2)), .ram8 (lowByte (UInt16.ofNat y2)), .reg 0x2C] := rfl

/-- **A call's window.** -/
theorem run_addressSet (p : Panel) {x1 y1 x2 y2 : ℕ} (hx1 : x1 < 2 ^ 16) (hy1 : y1 < 2 ^ 16)
    (hx2 : x2 < 2 ^ 16) (hy2 : y2 < 2 ^ 16) :
    p.run (lcdAddressSet st7789 x1 y1 x2 y2) =
      { p with
        xs := x1, xe := x2, ys := y1, ye := y2
        cx := x1, cy := y1
        cmd := 0x2C, args := [], half := none } := by
  have hcoord : ∀ n, n < 2 ^ 16 →
      (ofBytes (highByte (UInt16.ofNat n)) (lowByte (UInt16.ofNat n))).toNat = n := by
    intro n hn
    rw [ofBytes_bytes]
    exact UInt16.toNat_ofNat_of_lt' hn
  rw [lcdAddressSet_st7789]
  simp only [Panel.run_cons, Panel.run_nil, Panel.write, run_caset, run_raset, hcoord _ hx1,
    hcoord _ hx2, hcoord _ hy1, hcoord _ hy2]
  rfl

end Lcd

end RtSpark
